import Mathlib.Data.List.Nodup
import Mathlib.Data.List.Sigma
import RangeFlow.Proofs.DominatorTree
import RangeFlow.Proofs.Typing

/-! # Predecessors

Between two blocks there is at most one edge, so the predecessors of a block are listed without
repetitions, and a merge has exactly one operand from each of them. Edges and paths depend only on
the outline of the blocks: their targets, and whether they were put on an edge.
-/

namespace RangeFlow

namespace Block

theorem map_fst_addTarget (targets : List (BlockId × EdgeFlags)) (new : BlockId × EdgeFlags) :
    (addTarget targets new).map Prod.fst =
      if targets.any (·.1 == new.1) then targets.map Prod.fst
      else targets.map Prod.fst ++ [new.1] := by
  unfold addTarget
  split
  · rw [List.map_map]
    refine List.map_congr_left fun t _ => ?_
    simp only [Function.comp]
    split <;> rfl
  · simp

theorem nodup_outgoing (b : Block) : (b.outgoing.map Prod.fst).Nodup := by
  have step : ∀ (rest entries : List (BlockId × EdgeFlags)), (entries.map Prod.fst).Nodup →
      ((rest.foldl addTarget entries).map Prod.fst).Nodup := by
    intro rest
    induction rest with
    | nil => exact fun entries h => h
    | cons new rest ih =>
        intro entries h
        refine ih _ ?_
        rw [map_fst_addTarget]
        split
        · exact h
        · next fresh =>
            refine List.nodup_append.mpr ⟨h, by simp, ?_⟩
            intro a ha b hb same
            rw [List.mem_singleton] at hb
            obtain ⟨entry, hentry, key⟩ := List.mem_map.mp ha
            refine fresh (List.any_eq_true.mpr ⟨entry, hentry, ?_⟩)
            simp [key, same, hb]
  exact step b.flaggedTargets [] (by simp)

/-- What the edges and paths of a function depend on. -/
def outline (b : Block) : List (BlockId × EdgeFlags) × Bool := (b.flaggedTargets, b.split)

theorem targets_of_outline {b c : Block} (h : b.outline = c.outline) :
    b.terminator.targets ++ b.abnormal = c.terminator.targets ++ c.abnormal := by
  rw [← map_fst_flaggedTargets, ← map_fst_flaggedTargets, (Prod.mk.inj h).1]

end Block

namespace Function

/-- Control can go from the one block to the other. -/
def Feeds (f : Function) (p t : BlockId) : Prop :=
  ∃ b, f.block? p = some b ∧ t ∈ b.terminator.targets ++ b.abnormal

theorem Path.step_feeds {f : Function} {p t : BlockId} {passed : List BlockId}
    (way : f.Path p passed) (h : f.Feeds p t) : f.Path t (p :: passed) := by
  obtain ⟨b, hb, ht⟩ := h
  exact way.step hb ht

/-- A path is at the entry, or comes from a block that feeds it. -/
theorem Path.cases_feeds {f : Function} {t : BlockId} {passed : List BlockId}
    (way : f.Path t passed) :
    (t = f.entry ∧ passed = []) ∨ ∃ p before, passed = p :: before ∧ f.Path p before ∧ f.Feeds p t := by
  cases way with
  | entry => exact .inl ⟨rfl, rfl⟩
  | step way hb ht => exact .inr ⟨_, _, rfl, way, _, hb, ht⟩

theorem Valid.feeds_lt {f : Function} (hf : f.Valid) {p t : BlockId} (h : f.Feeds p t) :
    p < f.blockCount ∧ t < f.blockCount := by
  obtain ⟨b, hb, ht⟩ := h
  exact ⟨(List.getElem?_eq_some_iff.mp hb).1, hf.targets b (List.mem_of_getElem? hb) t ht⟩

/-- Control can go along an edge. -/
theorem feeds_of_edge? {f : Function} {id : EdgeId} {e : Edge} (edge : f.edge? id = some e) :
    f.Feeds e.src e.dst := by
  obtain ⟨block, -, flags, hblock, -, out, -⟩ := mem_edges.mp (mem_edges_of_edge? edge)
  exact ⟨block, hblock, Block.mem_outgoing.mp ⟨flags, out⟩⟩

theorem nodup_ends (f : Function) : (f.edges.map fun e => (e.src, e.dst)).Nodup := by
  rw [edges, List.map_flatMap, List.nodup_flatMap]
  constructor
  · rintro ⟨b, src⟩ -
    rw [List.map_filterMap]
    have keys := List.filterMap_map (f := Prod.fst) (l := b.outgoing)
      (g := fun dst => (f.blocks.toArray[dst]?).map fun _ => (src, dst))
    have same : b.outgoing.filterMap (fun t => ((f.blocks.toArray[t.1]?).map fun target =>
        ({ src, dst := t.1, flags := { t.2 with split := b.split || target.split } } : Edge)).map
          fun e => (e.src, e.dst)) =
        (b.outgoing.map Prod.fst).filterMap
          fun dst => (f.blocks.toArray[dst]?).map fun _ => (src, dst) := by
      rw [keys]
      refine List.filterMap_congr fun t _ => ?_
      simp [Option.map_map, Function.comp_def]
    dsimp only
    rw [same]
    refine (b.nodup_outgoing).filterMap ?_
    intro d d' ends hd hd'
    simp only [Option.mem_def, Option.map_eq_some_iff] at hd hd'
    obtain ⟨_, -, rfl⟩ := hd
    obtain ⟨_, -, same⟩ := hd'
    exact (Prod.mk.inj same).2.symm
  · have order : f.blocks.zipIdx.Pairwise fun p q => p.2 ≠ q.2 :=
      List.pairwise_map.mp (List.nodup_zipIdx_map_snd f.blocks)
    refine order.imp ?_
    rintro ⟨b, src⟩ ⟨b', src'⟩ distinct ends hends hends'
    obtain ⟨e, he, rfl⟩ := List.mem_map.mp hends
    obtain ⟨e', he', same⟩ := List.mem_map.mp hends'
    obtain ⟨_, -, he⟩ := List.mem_filterMap.mp he
    obtain ⟨_, -, he'⟩ := List.mem_filterMap.mp he'
    obtain ⟨_, -, rfl⟩ := Option.map_eq_some_iff.mp he
    obtain ⟨_, -, rfl⟩ := Option.map_eq_some_iff.mp he'
    exact distinct (Prod.mk.inj same).1.symm

theorem nodup_predecessors (f : Function) (t : BlockId) : (f.predecessors t).Nodup := by
  have filtered : ((f.edges.filter (·.dst == t)).map fun e => (e.src, e.dst)).Nodup :=
    f.nodup_ends.sublist (List.filter_sublist.map _)
  have pairs : (f.edges.filter (·.dst == t)).map (fun e => (e.src, e.dst)) =
      (f.predecessors t).map fun p => (p, t) := by
    rw [predecessors, List.map_map]
    refine List.map_congr_left fun e he => ?_
    simpa using (List.mem_filter.mp he).2
  rw [pairs] at filtered
  exact filtered.of_map

theorem mem_predecessors {f : Function} {p t : BlockId} (ht : t < f.blockCount) :
    p ∈ f.predecessors t ↔ f.Feeds p t := by
  simp only [predecessors, List.mem_map, List.mem_filter, beq_iff_eq]
  constructor
  · rintro ⟨e, ⟨he, rfl⟩, rfl⟩
    obtain ⟨b, -, flags, hb, -, out, -⟩ := mem_edges.mp he
    exact ⟨b, hb, Block.mem_outgoing.mp ⟨flags, out⟩⟩
  · rintro ⟨b, hb, target⟩
    obtain ⟨flags, out⟩ := Block.mem_outgoing.mpr target
    have exists_ : f.block? t = some f.blocks[t] := List.getElem?_eq_getElem ht
    exact ⟨⟨p, t, { flags with split := b.split || f.blocks[t].split }⟩,
      ⟨mem_edges.mpr ⟨b, _, flags, hb, exists_, out, rfl⟩, rfl⟩, rfl⟩

/-- Elements that pass a test are found with their positions. -/
theorem map_fst_filter_zipIdx {α : Type} (l : List α) (test : α → Bool) :
    (l.zipIdx.filter fun p => test p.1).map Prod.fst = l.filter test := by
  have filtered := List.filter_map (f := Prod.fst) (l := l.zipIdx) (p := test)
  rw [List.zipIdx_map_fst] at filtered
  exact filtered.symm

/-- The edges into a block are as many as its predecessors. -/
theorem length_predEdges (f : Function) (t : BlockId) :
    (f.predEdges t).length = (f.predecessors t).length := by
  rw [predEdges, edgesWhere, predecessors, List.length_map, List.length_map,
    ← map_fst_filter_zipIdx f.edges fun e => e.dst == t, List.length_map]

theorem src_lt_of_mem_predecessors {f : Function} {p t : BlockId} (h : p ∈ f.predecessors t) :
    p < f.blockCount := by
  obtain ⟨e, he, rfl⟩ := List.mem_map.mp h
  obtain ⟨b, -, -, hb, -⟩ := mem_edges.mp (List.mem_filter.mp he).1
  exact (List.getElem?_eq_some_iff.mp hb).1

theorem isSome_operandFrom? {phi : Phi} {p : BlockId} :
    (phi.operandFrom? p).isSome = true ↔ ∃ o ∈ phi.operands, o.predecessor = p := by
  simp [Phi.operandFrom?, List.find?_isSome]

/-- What the check of a merge asks for. -/
theorem checkPhi_eq_ok {f : Function} {id : BlockId} {phi : Phi} :
    f.checkPhi id phi = .ok () ↔
      phi.dest < f.nameCount ∧ phi.operands.length = (f.predecessors id).length ∧
      (∀ o ∈ phi.operands, o.predecessor < f.blockCount ∧
        o.predecessor ∈ f.predecessors id ∧ f.Typed (f.typeOf phi.dest) o.value) ∧
      ∀ p ∈ f.predecessors id, (phi.operandFrom? p).isSome = true := by
  have operand : ∀ (ty : ScalarType) (o : PhiOperand),
      (do if f.blockCount ≤ o.predecessor then .error (.unknownBlock o.predecessor)
          if !(f.predecessors id).contains o.predecessor then
            .error (.phiStranger phi.dest id o.predecessor)
          f.checkOperand ty o.value : Except Error Unit) = .ok () ↔
        o.predecessor < f.blockCount ∧ o.predecessor ∈ f.predecessors id ∧ f.Typed ty o.value := by
    intro ty o
    rw [guard_bind_eq_ok, guard_bind_eq_ok, checkOperand_eq_ok]
    simp
  have present : ∀ p, (if (phi.operandFrom? p).isSome then .ok () else
      .error (.phiLacks phi.dest id p) : Except Error Unit) = .ok () ↔
        (phi.operandFrom? p).isSome = true := by
    intro p
    split <;> simp_all
  unfold checkPhi
  simp only [bind_eq_ok (b := ())]
  constructor
  · rintro ⟨ty, hty, check⟩
    obtain ⟨exists_, rfl⟩ := checkedType_eq_ok hty
    obtain ⟨arity, check⟩ := guard_bind_eq_ok.mp check
    obtain ⟨_, hops, hpreds⟩ := bind_eq_ok.mp check
    refine ⟨exists_, Decidable.not_not.mp arity, fun o ho => ?_, fun p hp => ?_⟩
    · exact (operand _ o).mp (forM_eq_ok.mp hops o ho)
    · exact (present p).mp (forM_eq_ok.mp hpreds p hp)
  · rintro ⟨exists_, arity, hops, hpreds⟩
    refine ⟨f.typeOf phi.dest, by simp [checkedType, typeOf?_eq_some exists_], ?_⟩
    refine guard_bind_eq_ok.mpr ⟨not_not.mpr arity, bind_eq_ok.mpr ⟨(), ?_, ?_⟩⟩
    · exact forM_eq_ok.mpr fun o ho => (operand _ o).mpr (hops o ho)
    · exact forM_eq_ok.mpr fun p hp => (present p).mpr (hpreds p hp)

/-- In a valid function the operands of a merge name the predecessors of its block, each once. -/
theorem Valid.perm_predecessors {f : Function} (hf : f.Valid) {id : BlockId} {block : Block}
    {phi : Phi} (hblock : f.block? id = some block) (hphi : phi ∈ block.phis) :
    (phi.operands.map PhiOperand.predecessor).Perm (f.predecessors id) := by
  obtain ⟨-, arity, -, present⟩ := checkPhi_eq_ok.mp (hf.phis id block hblock phi hphi)
  refine (List.subperm_of_subset (f.nodup_predecessors id) fun p hp => ?_).perm_of_length_le ?_
    |>.symm
  · obtain ⟨o, ho, rfl⟩ := isSome_operandFrom?.mp (present p hp)
    exact List.mem_map_of_mem ho
  · rw [List.length_map]
    exact Nat.le_of_eq arity

section Outline

variable {f g : Function} (same : f.blocks.map Block.outline = g.blocks.map Block.outline)

include same

theorem blockCount_of_outline : f.blockCount = g.blockCount := by
  simpa [blockCount] using congrArg List.length same

theorem block?_of_outline {id : BlockId} {b : Block} (hb : f.block? id = some b) :
    ∃ c, g.block? id = some c ∧ b.outline = c.outline := by
  have here : (f.blocks.map Block.outline)[id]? = some b.outline := by
    rw [List.getElem?_map]
    exact congrArg _ hb
  rw [same, List.getElem?_map] at here
  obtain ⟨c, hc, outline⟩ := Option.map_eq_some_iff.mp here
  exact ⟨c, hc, outline.symm⟩

theorem feeds_of_outline {p t : BlockId} (h : f.Feeds p t) : g.Feeds p t := by
  obtain ⟨b, hb, ht⟩ := h
  obtain ⟨c, hc, outline⟩ := block?_of_outline same hb
  exact ⟨c, hc, Block.targets_of_outline outline ▸ ht⟩

theorem path_of_outline {t : BlockId} {passed : List BlockId} (h : f.Path t passed) :
    g.Path t passed := by
  induction h with
  | entry => exact .entry
  | step _ hb ht ih => exact ih.step_feeds (feeds_of_outline same ⟨_, hb, ht⟩)

/-- Functions with one outline have the same edges. -/
theorem edges_of_outline : f.edges = g.edges := by
  have list : ∀ h : Function, h.edges = (h.blocks.map Block.outline).zipIdx.flatMap
      fun p => (p.1.1.foldl Block.addTarget []).filterMap fun t =>
        ((h.blocks.map Block.outline).toArray[t.1]?).map fun target =>
          { src := p.2, dst := t.1, flags := { t.2 with split := p.1.2 || target.2 } } := by
    intro h
    rw [List.zipIdx_map, List.flatMap_map]
    simp only [edges]
    congr 1
    funext p
    refine List.filterMap_congr fun t _ => ?_
    simp [Block.outline, Option.map_map, Function.comp_def]
  rw [list f, list g, same]

end Outline

end Function

end RangeFlow
