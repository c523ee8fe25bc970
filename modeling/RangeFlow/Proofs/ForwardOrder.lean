import RangeFlow.Proofs.Loops

/-! # The order of definitions

In a reducible function the blocks have ranks that rise along all edges except those that lead back
to a dominator of their source. A dominator has a lower rank than what it dominates. The ranks order
the places where names are set: what is set on every way to a place comes before the place.
-/

namespace RangeFlow.Function

variable {f : Function} {rank : BlockId → Nat} {b d p t : BlockId} {m n k : NameId} {i j : Nat}

/-- Every edge leads back to a block that lies on every path to its source, or to a block of a
    higher rank. -/
def RankedBy (f : Function) (rank : BlockId → Nat) : Prop :=
  ∀ p t, f.Reachable p → f.Feeds p t → f.OnEveryPath t p ∨ rank p < rank t

/-- Without the edges that lead back to dominators the function has no cycles. -/
def Reducible (f : Function) : Prop := ∃ rank, f.RankedBy rank

/-- Ranks can be checked edge by edge with a list of blocks that every way has passed. -/
theorem rankedBy_of_above {above : List (List BlockId)} (h : f.Above above)
    (edges : ∀ q ∈ f.blocks.zipIdx, ∀ t ∈ q.1.terminator.targets ++ q.1.abnormal,
      t = q.2 ∨ t ∈ above.getD q.2 [] ∨ rank q.2 < rank t) : f.RankedBy rank := by
  rintro p t - ⟨b, hb, ht⟩
  rcases edges _ (mem_zipIdx_of_block? hb) t ht with rfl | earlier | rises
  · exact .inl fun _ _ => .inl rfl
  · exact .inl fun passed way => .inr (h.mem_passed way t earlier)
  · exact .inr rises

/-- A block on every path to another one has a lower rank. -/
theorem RankedBy.rank_lt (ranked : f.RankedBy rank) (reached : f.Reachable b)
    (h : f.OnEveryPath d b) (other : d ≠ b) : rank d < rank b := by
  obtain ⟨passed, way⟩ := reached
  induction length : passed.length using Nat.strongRecOn generalizing passed b with
  | _ count ih =>
      rcases way.cases_feeds with ⟨rfl, rfl⟩ | ⟨p, before, rfl, shorter, feeds⟩
      · exact absurd ((h [] .entry).resolve_right List.not_mem_nil) other
      · rw [List.length_cons] at length
        rcases ranked p b ⟨before, shorter⟩ feeds with back | rises
        · -- the path has come to the block before
          rcases back before shorter with rfl | member
          · exact ih before.length (by omega) h other before shorter rfl
          · obtain ⟨start, way, less, -⟩ := shorter.to_passed member
            exact ih start.length (by omega) h other start way rfl
        · by_cases source : d = p
          · rw [source]
            exact rises
          · have above : f.OnEveryPath d p := by
              intro passed way
              rcases h (p :: passed) (way.step_feeds feeds) with same | member
              · exact absurd same other
              · exact List.mem_cons.mp member
            exact Nat.lt_trans (ih before.length (by omega) above source before shorter rfl) rises

/-- The block that sets a name, with the number of its statements that have run then. A name with a
    value before the entry block has no place. -/
def place? (f : Function) (n : NameId) : Option (BlockId × Nat) :=
  (f.defSite? n).bind DefSite.place?

theorem Valid.place?_stmt (hf : f.Valid) {stmt : Stmt} (h : f.stmtAt? b i = some stmt)
    (hn : stmt.dest? = some n) : f.place? n = some (b, i + 1) := by
  rw [place?, hf.defSite?_stmt h hn]
  rfl

theorem Valid.place?_phi (hf : f.Valid) {phi : Phi} (h : f.phiAt? b i = some phi) :
    f.place? phi.dest = some (b, 0) := by
  rw [place?, hf.defSite?_phi h]
  rfl

/-- A name that dominates the point has its place in a block above, or in the block before the
    point. -/
theorem RankedBy.place_of_dominated (ranked : f.RankedBy rank) (reached : f.Reachable b)
    (h : f.Dominated n b i) {q : BlockId × Nat} (place : f.place? n = some q) :
    rank q.1 < rank b ∨ q.1 = b ∧ q.2 ≤ i := by
  obtain ⟨site, found, dominates⟩ := h
  have before := dominates q.1 q.2 (by simpa [place?, found] using place)
  by_cases same : q.1 = b
  · obtain ⟨passed, way, simple⟩ := reached.simple
    rcases before passed way with inside | member
    · exact .inr inside
    · exact absurd (same ▸ member) simple
  · refine .inl (ranked.rank_lt reached (fun passed way => ?_) same)
    exact (before passed way).imp And.left id

/-- What is set on every way past a statement, but not by it, is set in front of it. -/
theorem dominated_before_stmt {stmt : Stmt} (hstmt : f.stmtAt? b i = some stmt)
    (other : stmt.dest? ≠ some n) (h : f.Dominated n b (i + 1)) : f.Dominated n b i := by
  obtain ⟨site, found, dominates⟩ := h
  refine ⟨site, found, dominates.before_stmt ?_⟩
  rintro rfl
  have inner := (mem_innerDefs_of_defSite? found).resolve_left nofun
  obtain ⟨stmt', hstmt', sets⟩ := mem_innerDefs_stmt.mp inner
  cases hstmt.symm.trans hstmt'
  exact other sets

/-- What is set on every way to a block, but not by its merges, is set at the end of each
    predecessor. -/
theorem dominated_before_edge {block : Block} (hb : f.block? b = some block)
    (ht : t ∈ block.terminator.targets ++ block.abnormal)
    (other : ∀ i phi, f.phiAt? t i = some phi → phi.dest ≠ n) (h : f.Dominated n t 0) :
    f.Dominated n b block.stmts.length := by
  obtain ⟨site, found, dominates⟩ := h
  refine ⟨site, found, dominates.before_edge hb ht ?_ ?_⟩
  · rintro d k place rfl
    cases site with
    | default => cases place
    | phi d i =>
        cases place
        obtain ⟨phi, hphi, sets⟩ := mem_innerDefs_phi.mp
          ((mem_innerDefs_of_defSite? found).resolve_left nofun)
        exact absurd sets (other i phi hphi)
    | stmt d i =>
        cases place
        exact Nat.succ_ne_zero i
  · intro k place
    cases site with
    | default => cases place
    | phi d i =>
        cases place
        exact Nat.zero_le _
    | stmt d i =>
        cases place
        obtain ⟨stmt, hstmt, -⟩ := mem_innerDefs_stmt.mp
          ((mem_innerDefs_of_defSite? found).resolve_left nofun)
        obtain ⟨block', hb', atIndex⟩ := stmtAt?_eq_some.mp hstmt
        cases hb.symm.trans hb'
        exact (List.getElem?_eq_some_iff.mp atIndex).1

/-- Both names have places, and the first has its place above that of the second, or before it in
    the same block; or the first has none. -/
def Precedes (f : Function) (rank : BlockId → Nat) (m n : NameId) : Prop :=
  ∀ p, f.place? m = some p →
    ∃ q, f.place? n = some q ∧ (rank p.1 < rank q.1 ∨ p.1 = q.1 ∧ p.2 < q.2)

theorem Precedes.trans (first : f.Precedes rank m n) (second : f.Precedes rank n k) :
    f.Precedes rank m k := by
  intro p hp
  obtain ⟨q, hq, lower⟩ := first p hp
  obtain ⟨r, hr, lower'⟩ := second q hq
  refine ⟨r, hr, ?_⟩
  rcases lower with lower | ⟨same, lower⟩
  · exact .inl (lower'.elim (Nat.lt_trans lower) fun h => h.1 ▸ lower)
  · rw [same]
    exact lower'.imp id fun h => ⟨h.1, Nat.lt_trans lower h.2⟩

/-- Names that are set at the same place do not precede each other. -/
theorem not_precedes {q : BlockId × Nat} (hm : f.place? m = some q) (hn : f.place? n = some q) :
    ¬ f.Precedes rank m n := by
  intro h
  obtain ⟨r, hr, lower⟩ := h q hm
  cases hn.symm.trans hr
  omega

/-- A name that is set on every way to a point precedes the names that are set from there on. -/
theorem RankedBy.precedes (ranked : f.RankedBy rank) (reached : f.Reachable b)
    (h : f.Dominated m b i) (hn : f.place? n = some (t, j))
    (later : b = t ∧ i < j ∨ rank b < rank t) : f.Precedes rank m n := by
  intro q hq
  refine ⟨_, hn, ?_⟩
  rcases ranked.place_of_dominated reached h hq with above | ⟨same, before⟩
  · rcases later with ⟨rfl, -⟩ | rises
    · exact .inl above
    · exact .inl (Nat.lt_trans above rises)
  · rcases later with ⟨rfl, less⟩ | rises
    · exact .inr ⟨same, Nat.lt_of_le_of_lt before less⟩
    · exact .inl (same ▸ rises)

/-- A name that is set on every way to a point is not preceded by what is set there. -/
theorem RankedBy.not_precedes (ranked : f.RankedBy rank) (reached : f.Reachable b)
    (h : f.Dominated n b i) (hm : f.place? m = some (b, j)) (le : i ≤ j) :
    ¬ f.Precedes rank m n := by
  intro precedes
  obtain ⟨q, hq, lower⟩ := precedes _ hm
  have place := ranked.place_of_dominated reached h hq
  dsimp only at lower
  rcases place with above | ⟨same, before⟩
  · rcases lower with lower | ⟨same, -⟩
    · omega
    · rw [same] at above
      omega
  · rw [same] at lower
    omega

end RangeFlow.Function
