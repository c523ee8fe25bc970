import RangeFlow.Proofs.Materialization

/-! # The nearest assertion

Of the assertions about a name that dominate a point, the nearest one is dominated by all others.
The name that is read at a point in place of a name is the result of that assertion. It has the type
of the name.
-/

namespace RangeFlow.Function

section Nearer

variable {g : Graph} {entry : Nat}

theorem nearer_some (t : DominatorTree) (best next : AssertionRecord × Point) :
    nearer t (some best) next = some best ∨ nearer t (some best) next = some next := by
  unfold nearer
  dsimp only
  split
  · exact .inl rfl
  · exact .inr rfl

/-- Of two points that dominate a third one, the nearer is the one that the other dominates. -/
theorem nearer_of_dominates {best next : AssertionRecord × Point} {point : Point}
    (hbest : best.2.strictlyDominates (.ofGraph g entry) point = true)
    (hnext : next.2.strictlyDominates (.ofGraph g entry) point = true)
    (distinct : best.2 = next.2 → best = next) :
    nearer (.ofGraph g entry) (some best) next = some best ∧
        (next = best ∨ next.2.strictlyDominates (.ofGraph g entry) best.2 = true) ∨
      nearer (.ofGraph g entry) (some best) next = some next ∧
        (best = next ∨ best.2.strictlyDominates (.ofGraph g entry) next.2 = true) := by
  have depth : ∀ p q : Point, p.strictlyDominates (.ofGraph g entry) q = true →
      (DominatorTree.ofGraph g entry).depth p.block < (DominatorTree.ofGraph g entry).depth q.block ∨
        p.block = q.block ∧ p.position.lt q.position = true := by
    intro p q h
    rcases Point.strictlyDominates_iff.mp h with here | above
    · exact .inr here
    · exact .inl (DominatorTree.depth_lt above)
  by_cases same : best.2 = next.2
  · cases distinct same
    exact .inl ⟨(nearer_some _ best best).elim id id, .inl rfl⟩
  · rcases Point.strictlyDominates_linear hbest hnext same with first | second
    · refine .inr ⟨?_, .inr first⟩
      refine if_neg fun closer => ?_
      rcases depth _ _ first with above | ⟨here, earlier⟩ <;> rcases closer with deeper | ⟨level, later⟩
      · omega
      · omega
      · rw [here] at deeper
        omega
      · have both := Position.lt_trans earlier later
        rw [Position.lt_irrefl] at both
        cases both
    · refine .inl ⟨?_, .inr second⟩
      refine if_pos ?_
      rcases depth _ _ second with above | ⟨here, earlier⟩
      · exact .inl above
      · exact .inr ⟨by rw [here], earlier⟩

/-- The nearest of several points that dominate one point is dominated by all others. -/
theorem foldl_nearer {points : List (AssertionRecord × Point)} {point : Point}
    (before : ∀ x ∈ points, x.2.strictlyDominates (.ofGraph g entry) point = true)
    (distinct : ∀ x ∈ points, ∀ y ∈ points, x.2 = y.2 → x = y) (nonempty : points ≠ []) :
    ∃ best ∈ points, points.foldl (nearer (.ofGraph g entry)) none = some best ∧
      ∀ x ∈ points, x = best ∨ x.2.strictlyDominates (.ofGraph g entry) best.2 = true := by
  induction points using List.reverseRecOn with
  | nil => exact absurd rfl nonempty
  | append_singleton points next ih =>
      rw [List.foldl_append, List.foldl_cons, List.foldl_nil]
      by_cases empty : points = []
      · subst empty
        exact ⟨next, by simp, rfl, by simp⟩
      · obtain ⟨best, hbest, fold, nearest⟩ := ih
          (fun x hx => before x (List.mem_append_left _ hx))
          (fun x hx y hy => distinct x (List.mem_append_left _ hx) y (List.mem_append_left _ hy)) empty
        have hbest' : best ∈ points ++ [next] := List.mem_append_left _ hbest
        have hnext : next ∈ points ++ [next] := List.mem_append_right _ (List.mem_singleton.mpr rfl)
        rw [fold]
        rcases nearer_of_dominates (before best hbest') (before next hnext)
            (distinct best hbest' next hnext) with ⟨chosen, other⟩ | ⟨chosen, other⟩
        · refine ⟨best, hbest', chosen, fun x hx => ?_⟩
          rcases List.mem_append.mp hx with old | new
          · exact nearest x old
          · rw [List.mem_singleton.mp new]
            exact other
        · refine ⟨next, hnext, chosen, fun x hx => ?_⟩
          rcases List.mem_append.mp hx with old | new
          · rcases nearest x old with rfl | above
            · exact other
            · rcases other with rfl | above'
              · exact .inr above
              · exact .inr (Point.strictlyDominates_trans above above')
          · exact .inl (List.mem_singleton.mp new)

/-- A name is read as itself, or as the result of an assertion about it that dominates the point. -/
theorem nameAt_cases {t : DominatorTree} {points : List (AssertionRecord × Point)} {point : Point}
    {n : NameId} : nameAt t points point n = n ∨ ∃ x ∈ points, x.1.subject = n ∧
      x.2.strictlyDominates t point = true ∧ nameAt t points point n = x.1.derived := by
  have keeps : ∀ (l : List (AssertionRecord × Point)) (best : Option (AssertionRecord × Point)) x,
      l.foldl (nearer t) best = some x → x ∈ l ∨ best = some x := by
    intro l
    induction l with
    | nil => exact fun best x h => .inr h
    | cons next l ih =>
        intro best x h
        rcases ih _ x h with member | chosen
        · exact .inl (List.mem_cons_of_mem _ member)
        · cases best with
          | none =>
              cases chosen
              exact .inl (List.mem_cons_self ..)
          | some best =>
              rcases nearer_some t best next with old | new
              · exact .inr (old.symm.trans chosen)
              · cases new.symm.trans chosen
                exact .inl (List.mem_cons_self ..)
  cases fold : (points.filter fun x => x.1.subject == n && x.2.strictlyDominates t point).foldl
      (nearer t) none with
  | none =>
      left
      unfold nameAt
      dsimp only
      rw [fold]
  | some x =>
      right
      have member := (keeps _ _ x fold).resolve_right (by simp)
      obtain ⟨hx, test⟩ := List.mem_filter.mp member
      simp only [Bool.and_eq_true, beq_iff_eq] at test
      refine ⟨x, hx, test.1, test.2, ?_⟩
      unfold nameAt
      dsimp only
      rw [fold]

/-- If assertions about the name dominate the point, the nearest of them is read. -/
theorem nameAt_nearest {points : List (AssertionRecord × Point)} {point : Point} {n : NameId}
    (distinct : ∀ x ∈ points, ∀ y ∈ points, x.2 = y.2 → x = y) {x : AssertionRecord × Point}
    (hx : x ∈ points) (subject : x.1.subject = n)
    (above : x.2.strictlyDominates (.ofGraph g entry) point = true) :
    ∃ best ∈ points, best.1.subject = n ∧
      best.2.strictlyDominates (.ofGraph g entry) point = true ∧
      nameAt (.ofGraph g entry) points point n = best.1.derived ∧
      ∀ y ∈ points, y.1.subject = n → y.2.strictlyDominates (.ofGraph g entry) point = true →
        y = best ∨ y.2.strictlyDominates (.ofGraph g entry) best.2 = true := by
  have member : ∀ y, y ∈ points.filter (fun y => y.1.subject == n &&
      y.2.strictlyDominates (.ofGraph g entry) point) ↔ y ∈ points ∧ y.1.subject = n ∧
        y.2.strictlyDominates (.ofGraph g entry) point = true := by
    intro y
    rw [List.mem_filter, Bool.and_eq_true, beq_iff_eq]
  obtain ⟨best, hbest, fold, nearest⟩ := foldl_nearer
    (fun y hy => ((member y).mp hy).2.2)
    (fun y hy z hz => distinct y ((member y).mp hy).1 z ((member z).mp hz).1)
    (List.ne_nil_of_mem ((member x).mpr ⟨hx, subject, above⟩))
  obtain ⟨hbest, subject', above'⟩ := (member best).mp hbest
  refine ⟨best, hbest, subject', above', ?_, fun y hy same dominates =>
    nearest y ((member y).mpr ⟨hy, same, dominates⟩)⟩
  unfold nameAt
  dsimp only
  rw [fold]

end Nearer

theorem renameBlock_id (id : BlockId) (b : Block) : renameBlock (fun _ n => n) id b = b := by
  have phis : b.phis.map (Phi.rename fun _ n => n) = b.phis :=
    (List.map_congr_left fun phi _ => Phi.rename_eq_self fun _ _ _ _ => rfl).trans (List.map_id _)
  have stmts : (b.stmts.zipIdx.map fun p => p.1.rename fun n => n) = b.stmts :=
    calc (b.stmts.zipIdx.map fun p => p.1.rename fun n => n)
        = b.stmts.zipIdx.map Prod.fst :=
          List.map_congr_left fun p _ => Stmt.rename_eq_self fun _ _ => rfl
      _ = b.stmts := List.zipIdx_map_fst ..
  have terminator : b.terminator.rename (fun n => n) = b.terminator :=
    Terminator.rename_eq_self fun _ _ => rfl
  rw [renameBlock_eq, phis, stmts, terminator]

theorem renameUses_id (f : Function) : f.renameUses (fun _ n => n) = f := by
  have blocks : (f.blocks.zipIdx.map fun p => renameBlock (fun _ n => n) p.2 p.1) = f.blocks :=
    calc (f.blocks.zipIdx.map fun p => renameBlock (fun _ n => n) p.2 p.1)
        = f.blocks.zipIdx.map Prod.fst := List.map_congr_left fun p _ => renameBlock_id p.2 p.1
      _ = f.blocks := List.zipIdx_map_fst ..
  exact congrArg (fun blocks => { f with blocks }) blocks

theorem materialize_nil (f : Function) : f.materialize [] = (f, []) := by
  have blocks : (f.blocks.zipIdx.map fun p => { p.1 with stmts := insertStmts [] p.2 p.1.stmts }) =
      f.blocks := by
    simp only [insertStmts_nil]
    exact List.zipIdx_map_fst ..
  have unchanged : f.insertAll [] [] = f := by
    unfold insertAll
    rw [blocks, List.append_nil]
  change ((f.insertAll [] []).renameUses (fun _ n => n), _) = _
  rw [unchanged, renameUses_id]
  rfl

theorem insertAssertions_eq (f : Function) (config : Config) :
    f.insertAssertions config = f.materialize (f.findAssertions config) := by
  unfold insertAssertions
  split
  · next none => rw [none, materialize_nil]
  · rfl

/-- Inserting can be done in stages: the facts, the function with an assertion for each of them, its
    dominators, and the names to read. -/
theorem insertAssertions_of_stages {f : Function} {config : Config} {loci : List AssertLocus}
    {t : DominatorTree} (valid : f.validate = .ok ()) (found : f.findAssertions config = loci)
    (dominators : (f.withAssertions loci).dominators = t) :
    f.insertAssertions config = ((f.withAssertions loci).renameUses
      (nameAt t ((f.withAssertions loci).assertionPoints (f.recordsFor loci))),
        f.recordsFor loci) := by
  subst found dominators
  have hf := valid_of_validate valid
  rw [insertAssertions_eq, materialize_eq (fun _ hl => hf.readsHave_lt.registered hl) hf]

section Points

variable {f : Function} {loci : List AssertLocus}

/-- The new name of a fact is assigned by the assertion of the fact. -/
theorem stmt_of_dest (hf : f.Valid) {block : BlockId} {index i : Nat} {stmt : Stmt}
    {l : AssertLocus} {place : BlockId × Slot}
    (hstmt : (f.withAssertions loci).stmtAt? block index = some stmt)
    (dest : stmt.dest? = some (f.nameCount + i)) (placed : (f.placements loci)[i]? = some (l, place)) :
    place.1 = block ∧ stmt = .assign (f.nameCount + i) (.assert l.name l.predicate) := by
  rcases of_stmtAt?_withAssertions hstmt with ⟨k, old, -⟩ | ⟨j, l', slot, placed', rfl, -⟩
  · have bound := hf.def_lt (mem_innerDefs_stmt.mpr ⟨stmt, old, dest⟩)
    exact absurd bound (Nat.not_lt.mpr (Nat.le_add_right _ _))
  · have same : j = i := Nat.add_left_cancel (Option.some.inj dest)
    subst same
    rw [placed] at placed'
    cases placed'
    exact ⟨rfl, rfl⟩

/-- Every fact has its assertion. -/
theorem exists_assertion {P : BlockId → Nat → NameId → Prop}
    (found : ∀ l ∈ loci, f.Registered P l) {i : Nat} {l : AssertLocus} {place : BlockId × Slot}
    (placed : (f.placements loci)[i]? = some (l, place)) : ∃ block index,
      (f.withAssertions loci).stmtAt? block index =
        some (.assign (f.nameCount + i) (.assert l.name l.predicate)) := by
  have member : (Stmt.assign (f.nameCount + i) (.assert l.name l.predicate)) ∈
      (f.withAssertions loci).blocks.flatMap Block.stmts := by
    refine (stmts_withAssertions_perm found).mem_iff.mpr (List.mem_append_right _ ?_)
    exact List.mem_map.mpr ⟨_, mem_insertionsFor.mpr ⟨i, l, place.1, place.2, placed, rfl⟩, rfl⟩
  obtain ⟨b, hb, hstmt⟩ := List.mem_flatMap.mp member
  obtain ⟨block, hblock⟩ := List.mem_iff_getElem?.mp hb
  obtain ⟨index, hindex⟩ := List.mem_iff_getElem?.mp hstmt
  exact ⟨block, index, stmtAt?_eq_some.mpr ⟨b, hblock, hindex⟩⟩

variable (hf : f.Valid) (found : ∀ l ∈ loci, f.Registered (fun _ _ n => n < f.nameCount) l)

include hf found

theorem withAssertions_valid : (f.withAssertions loci).Valid := by
  have valid := valid_withAssertions (r := fun _ n => n) found hf fun _ => renames_renameUses
  rwa [renameUses_id] at valid

/-- The point of an assertion is where its statement stands. -/
theorem mem_assertionPoints {x : AssertionRecord × Point} :
    x ∈ (f.withAssertions loci).assertionPoints (f.recordsFor loci) ↔
      ∃ i l block slot index, (f.placements loci)[i]? = some (l, block, slot) ∧
        x = (⟨l.name, f.nameCount + i, block, l.predicate⟩, ⟨block, .before index⟩) ∧
        (f.withAssertions loci).stmtAt? block index =
          some (.assign (f.nameCount + i) (.assert l.name l.predicate)) := by
  simp only [assertionPoints, List.mem_filterMap]
  constructor
  · rintro ⟨r, hr, point⟩
    obtain ⟨i, hi⟩ := List.mem_iff_getElem?.mp hr
    obtain ⟨l, block, slot, placed, rfl⟩ := getElem?_recordsFor.mp hi
    split at point
    · next at_ index site =>
        cases point
        have inner := (mem_innerDefs_of_defSite? site).resolve_left (by simp)
        obtain ⟨stmt, hstmt, dest⟩ := mem_innerDefs_stmt.mp inner
        obtain ⟨rfl, rfl⟩ := stmt_of_dest hf hstmt dest placed
        exact ⟨i, l, block, slot, index, placed, rfl, hstmt⟩
    · cases point
  · rintro ⟨i, l, block, slot, index, placed, rfl, hstmt⟩
    refine ⟨_, List.mem_of_getElem? (getElem?_recordsFor.mpr ⟨l, block, slot, placed, rfl⟩), ?_⟩
    have site := (withAssertions_valid hf found).defSite?_stmt hstmt rfl
    simp only [site]

/-- Assertions at one point are the same. -/
theorem assertionPoints_distinct {x y : AssertionRecord × Point}
    (hx : x ∈ (f.withAssertions loci).assertionPoints (f.recordsFor loci))
    (hy : y ∈ (f.withAssertions loci).assertionPoints (f.recordsFor loci)) (same : x.2 = y.2) :
    x = y := by
  obtain ⟨i, l, block, slot, index, placed, rfl, hstmt⟩ := (mem_assertionPoints hf found).mp hx
  obtain ⟨j, l', block', slot', index', placed', rfl, hstmt'⟩ :=
    (mem_assertionPoints hf found).mp hy
  cases same
  rw [hstmt] at hstmt'
  have names : f.nameCount + i = f.nameCount + j :=
    congrArg Stmt.dest? (Option.some.inj hstmt') |> Option.some.inj
  have index : i = j := Nat.add_left_cancel names
  subst index
  rw [placed] at placed'
  cases placed'
  rfl

/-- What is read in place of a name has its type. -/
theorem renames_nameAt (t : DominatorTree) (point : Point) :
    Renames f (f.withAssertions loci) (nameAt t
      ((f.withAssertions loci).assertionPoints (f.recordsFor loci)) point) := by
  have each : ∀ n, n < f.nameCount →
      nameAt t ((f.withAssertions loci).assertionPoints (f.recordsFor loci)) point n <
          (f.withAssertions loci).nameCount ∧
        (f.withAssertions loci).typeOf
          (nameAt t ((f.withAssertions loci).assertionPoints (f.recordsFor loci)) point n) =
            f.typeOf n := by
    intro n hn
    rcases @nameAt_cases t ((f.withAssertions loci).assertionPoints (f.recordsFor loci)) point n with
      same | ⟨x, hx, subject, -, derived⟩
    · rw [same]
      exact ⟨renames_withAssertions.lt n hn, typeOf_withAssertions_old hn⟩
    · obtain ⟨i, l, block, slot, _, placed, rfl, -⟩ := (mem_assertionPoints hf found).mp hx
      rw [derived, typeOf_withAssertions_new placed, nameCount_withAssertions]
      cases subject
      exact ⟨Nat.add_lt_add_left (List.getElem?_eq_some_iff.mp placed).1 _, rfl⟩
  exact ⟨fun n hn => (each n hn).1, fun n hn => (each n hn).2⟩

end Points

end RangeFlow.Function
