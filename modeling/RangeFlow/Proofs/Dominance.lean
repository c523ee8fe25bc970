import RangeFlow.Proofs.Places

/-! # Definitions dominate uses

A definition dominates a point if every way from the entry to the point has passed it. This is
stated on ways through the blocks, without the computed dominator tree.
-/

namespace RangeFlow

/-- A way from the entry to a block, with the blocks left on the way, the latest first. -/
inductive Function.Path (f : Function) : BlockId → List BlockId → Prop where
  | entry : Path f f.entry []
  | step {block target : BlockId} {passed : List BlockId} {b : Block} (way : Path f block passed)
      (hb : f.block? block = some b) (ht : target ∈ b.terminator.targets ++ b.abnormal) :
      Path f target (block :: passed)

/-- The block of a definition, and how many of its statements have run when the name is set. -/
def DefSite.place? : DefSite → Option (BlockId × Nat)
  | default => none
  | phi block _ => some (block, 0)
  | stmt block index => some (block, index + 1)

/-- Every way to the point in front of a statement has passed the definition. -/
def DefSite.Dominates (f : Function) (site : DefSite) (block : BlockId) (index : Nat) : Prop :=
  ∀ d k, site.place? = some (d, k) → ∀ passed, f.Path block passed →
    (d = block ∧ k ≤ index) ∨ d ∈ passed

namespace Function

/-- The name is set on every way to the point in front of a statement. -/
def Dominated (f : Function) (name : NameId) (block : BlockId) (index : Nat) : Prop :=
  ∃ site, f.defSite? name = some site ∧ site.Dominates f block index

/-- Every use is dominated by its definition. The operand of a merge is used at the end of the
    predecessor. -/
structure UsesDominated (f : Function) : Prop where
  stmt : ∀ block index stmt n, f.stmtAt? block index = some stmt → n ∈ stmt.usedNames →
    f.Dominated n block index
  terminator : ∀ block b n, f.block? block = some b → n ∈ b.terminator.usedNames →
    f.Dominated n block b.stmts.length
  phi : ∀ block index phi o n p, f.phiAt? block index = some phi → o ∈ phi.operands →
    o.value = .name n → f.block? o.predecessor = some p →
    f.Dominated n o.predecessor p.stmts.length

/-- To a block on a way there is a shorter way along the same blocks. -/
theorem Path.to_passed {f : Function} {block d : BlockId} {passed : List BlockId}
    (way : f.Path block passed) (h : d ∈ passed) :
    ∃ before, f.Path d before ∧ before.length < passed.length ∧ ∀ x ∈ before, x ∈ passed := by
  induction way with
  | entry => cases h
  | @step block target passed b way hb ht ih =>
      rcases List.mem_cons.mp h with rfl | h
      · exact ⟨passed, way, by simp, fun x hx => List.mem_cons_of_mem _ hx⟩
      · obtain ⟨before, shorter, length, sub⟩ := ih h
        refine ⟨before, shorter, ?_, fun x hx => List.mem_cons_of_mem _ (sub x hx)⟩
        simp only [List.length_cons]
        omega

/-- Two places cannot both lie before each other on every way. -/
theorem Path.not_both_before {f : Function} {a b : BlockId} {aFirst bFirst : Prop}
    (toB : ∀ passed, f.Path b passed → (a = b ∧ aFirst) ∨ a ∈ passed)
    (toA : ∀ passed, f.Path a passed → (b = a ∧ bFirst) ∨ b ∈ passed)
    (apart : ¬ (aFirst ∧ bFirst)) {passed : List BlockId} : ¬ f.Path a passed := by
  -- each place on a way to the other cuts the way short
  induction h : passed.length using Nat.strongRecOn generalizing passed with
  | _ length ih =>
      intro way
      have again : ∀ before, before.length < length → ¬ f.Path a before := by
        intro before shorter
        exact ih before.length shorter rfl
      have loop : ∀ before, before.length ≤ length → f.Path b before → a ∈ before → False := by
        intro before bound way member
        obtain ⟨start, hstart, shorter, -⟩ := way.to_passed member
        exact again start (by omega) hstart
      rcases toA passed way with ⟨rfl, second⟩ | member
      · rcases toB passed way with ⟨-, first⟩ | member
        · exact apart ⟨first, second⟩
        · exact loop passed (by omega) way member
      · obtain ⟨before, wayB, shorter, -⟩ := way.to_passed member
        rcases toB before wayB with ⟨rfl, -⟩ | member
        · exact again before (by omega) wayB
        · exact loop before (by omega) wayB member

end Function

namespace DefSite

theorem Dominates.mono {f : Function} {site : DefSite} {block : BlockId} {i j : Nat}
    (h : site.Dominates f block i) (le : i ≤ j) : site.Dominates f block j := by
  intro d k place passed way
  rcases h d k place passed way with ⟨same, before⟩ | member
  · exact .inl ⟨same, Nat.le_trans before le⟩
  · exact .inr member

/-- What dominates a statement dominates whatever the statement dominates. -/
theorem Dominates.trans {f : Function} {site : DefSite} {d block : BlockId} {i index : Nat}
    (outer : (DefSite.stmt d i).Dominates f block index) (inner : site.Dominates f d i) :
    site.Dominates f block index := by
  intro d' k' place passed way
  rcases outer d (i + 1) rfl passed way with ⟨rfl, before⟩ | member
  · rcases inner d' k' place passed way with ⟨same, le⟩ | member
    · exact .inl ⟨same, by omega⟩
    · exact .inr member
  · obtain ⟨before, shorter, -, sub⟩ := way.to_passed member
    rcases inner d' k' place before shorter with ⟨rfl, -⟩ | earlier
    · exact .inr member
    · exact .inr (sub d' earlier)

/-- A point behind a statement is dominated by what dominates the point in front of it, and by the
    statement. -/
theorem Dominates.before_stmt {f : Function} {site : DefSite} {block : BlockId} {index : Nat}
    (h : site.Dominates f block (index + 1)) (other : site ≠ .stmt block index) :
    site.Dominates f block index := by
  intro d k place passed way
  rcases h d k place passed way with ⟨rfl, le⟩ | member
  · refine .inl ⟨rfl, ?_⟩
    have differs : k ≠ index + 1 := by
      rintro rfl
      cases site with
      | default => cases place
      | phi block _ => cases place
      | stmt block i =>
          cases place
          exact other rfl
    omega
  · exact .inr member

/-- The head of a block is dominated by what dominates the end of a predecessor, and by the merges
    of the block. -/
theorem Dominates.before_edge {f : Function} {site : DefSite} {block target : BlockId}
    {b : Block} (h : site.Dominates f target 0) (hb : f.block? block = some b)
    (ht : target ∈ b.terminator.targets ++ b.abnormal)
    (other : ∀ d k, site.place? = some (d, k) → d = target → k ≠ 0)
    (bound : ∀ k, site.place? = some (block, k) → k ≤ b.stmts.length) :
    site.Dominates f block b.stmts.length := by
  intro d k place passed way
  rcases h d k place (block :: passed) (way.step hb ht) with ⟨same, le⟩ | member
  · exact absurd (Nat.le_zero.mp le) (other d k place same)
  · rcases List.mem_cons.mp member with rfl | member
    · exact .inl ⟨rfl, bound k place⟩
    · exact .inr member

end DefSite

namespace Function

theorem Dominated.mono {f : Function} {n : NameId} {block : BlockId} {i j : Nat}
    (h : f.Dominated n block i) (le : i ≤ j) : f.Dominated n block j := by
  obtain ⟨site, hsite, dominates⟩ := h
  exact ⟨site, hsite, dominates.mono le⟩

/-- A name read by the definition of a name that is set is set too. -/
theorem UsesDominated.read_of_def {f : Function} (uses : f.UsesDominated) {m : NameId}
    {d block : BlockId} {i index : Nat} {stmt : Stmt} (hstmt : f.stmtAt? d i = some stmt)
    (dominates : (DefSite.stmt d i).Dominates f block index) (read : m ∈ stmt.usedNames) :
    f.Dominated m block index := by
  obtain ⟨site, hsite, inner⟩ := uses.stmt d i stmt m hstmt read
  exact ⟨site, hsite, dominates.trans inner⟩

/-- Where a name is set, no name that is computed from it is set already. -/
theorem UsesDominated.not_read {f : Function} (uses : f.UsesDominated) {m : NameId}
    {site : DefSite} {block d : BlockId} {index k i : Nat} {stmt : Stmt} {passed : List BlockId}
    (way : f.Path block passed) (hm : f.defSite? m = some site)
    (place : site.place? = some (block, k)) (hstmt : f.stmtAt? d i = some stmt)
    (dominates : (DefSite.stmt d i).Dominates f block index) (new : k ≤ i → index ≤ i) :
    m ∉ stmt.usedNames := by
  intro read
  obtain ⟨site', hsite, inner⟩ := uses.stmt d i stmt m hstmt read
  rw [hm] at hsite
  cases hsite
  refine Path.not_both_before (a := block) (b := d) (inner block k place)
    (dominates d (i + 1) rfl) ?_ way
  omega

/-- A statement does not read the name it sets. -/
theorem UsesDominated.dest_not_read {f : Function} (uses : f.UsesDominated) {m : NameId}
    {block : BlockId} {index : Nat} {stmt : Stmt} {passed : List BlockId}
    (way : f.Path block passed) (hm : f.defSite? m = some (.stmt block index))
    (hstmt : f.stmtAt? block index = some stmt) : m ∉ stmt.usedNames := by
  have after : (DefSite.stmt block index).Dominates f block (index + 1) := by
    intro d k place passed way
    cases place
    exact .inl ⟨rfl, Nat.le_refl _⟩
  exact uses.not_read way hm rfl hstmt after (by omega)

section Lists

variable {f : Function} {above : List (List BlockId)}

/-- Per block the list has blocks that every way to it has passed. This is seen edge by edge. -/
def Above (f : Function) (above : List (List BlockId)) : Prop :=
  above.getD f.entry [] = [] ∧ ∀ p ∈ f.blocks.zipIdx,
    ∀ target ∈ p.1.terminator.targets ++ p.1.abnormal,
      ∀ d ∈ above.getD target [], d = p.2 ∨ d ∈ above.getD p.2 []

instance : Decidable (f.Above above) := inferInstanceAs (Decidable (_ ∧ _))

theorem Above.mem_passed (h : f.Above above) {block : BlockId} {passed : List BlockId}
    (way : f.Path block passed) : ∀ d ∈ above.getD block [], d ∈ passed := by
  induction way with
  | entry =>
      rw [h.1]
      exact fun d hd => hd
  | step way hb ht ih =>
      intro d hd
      rcases h.2 _ (mem_zipIdx_of_block? hb) _ ht d hd with rfl | earlier
      · exact List.mem_cons_self ..
      · exact List.mem_cons_of_mem _ (ih d earlier)

/-- As far as the list tells, the name is set at the point in front of a statement. -/
def SetAbove (f : Function) (above : List (List BlockId)) (name : NameId) (block : BlockId)
    (index : Nat) : Prop :=
  ∃ site ∈ f.defSite? name, ∀ place ∈ site.place?,
    (place.1 = block ∧ place.2 ≤ index) ∨ place.1 ∈ above.getD block []

instance (name : NameId) (block : BlockId) (index : Nat) :
    Decidable (f.SetAbove above name block index) :=
  inferInstanceAs (Decidable (∃ site ∈ f.defSite? name, _))

theorem SetAbove.dominated {name : NameId} {block : BlockId} {index : Nat}
    (set : f.SetAbove above name block index) (h : f.Above above) :
    f.Dominated name block index := by
  obtain ⟨site, hsite, before⟩ := set
  refine ⟨site, hsite, fun d k place passed way => ?_⟩
  exact (before (d, k) place).imp id (h.mem_passed way d)

/-- Domination of all uses can be read off such a list. -/
theorem usesDominated_of_above (above : List (List BlockId)) (h : f.Above above)
    (uses : ∀ p ∈ f.blocks.zipIdx,
      (∀ q ∈ p.1.stmts.zipIdx, ∀ n ∈ q.1.usedNames, f.SetAbove above n p.2 q.2) ∧
      (∀ n ∈ p.1.terminator.usedNames, f.SetAbove above n p.2 p.1.stmts.length) ∧
      ∀ phi ∈ p.1.phis, ∀ o ∈ phi.operands, ∀ n ∈ o.value.name?, ∀ b ∈ f.block? o.predecessor,
        f.SetAbove above n o.predecessor b.stmts.length) : f.UsesDominated := by
  refine ⟨?_, ?_, ?_⟩
  · intro block index stmt n hstmt hn
    obtain ⟨b, hb, hi⟩ := stmtAt?_eq_some.mp hstmt
    have member : (stmt, index) ∈ b.stmts.zipIdx := List.mem_zipIdx_iff_getElem?.mpr hi
    exact ((uses _ (mem_zipIdx_of_block? hb)).1 _ member n hn).dominated h
  · intro block b n hb hn
    exact ((uses _ (mem_zipIdx_of_block? hb)).2.1 n hn).dominated h
  · intro block index phi o n p hphi ho hn hp
    obtain ⟨b, hb, hi⟩ := phiAt?_eq_some.mp hphi
    have operand := (uses _ (mem_zipIdx_of_block? hb)).2.2 phi (List.mem_of_getElem? hi) o ho
    exact (operand n (by rw [hn]; rfl) p hp).dominated h

end Lists

end Function

end RangeFlow
