import RangeFlow.Proofs.AssertedUses
import RangeFlow.Proofs.ForwardOrder
import RangeFlow.Proofs.RenamedSteps
import RangeFlow.Proofs.RhsResults

/-! # What assertions keep of a function

Validation does not look at the limits of assertions, but those of the assertions that are found
always are values, or names, of the type of the name they are about. So a function whose operands
all have the types of their places keeps this property when assertions are inserted. New blocks on
edges rank between the ends of their edges, so the function with assertions has no cycles that the
old one did not have, and old names are set where they were set.
-/

namespace RangeFlow

/-- The limits of the fact have the type of its name. -/
def AssertLocus.Typed (f : Function) (a : AssertLocus) : Prop :=
  f.LimitsTypedIn (f.typeOf a.name) (.assert a.name a.predicate)

/-- A limit with which the name is compared has the type of the name. -/
def Fact.Typed (f : Function) : Fact → Prop
  | .compare n _ limit => f.Typed (f.typeOf n) limit
  | .truth _ _ => True

namespace Function

section Facts

variable {f : Function} {live : Liveness} {edge : EdgeId} {n : NameId} {op : CmpOp} {value : Int}
  {fact : Fact} {a : AssertLocus}

theorem conversionFacts_typed (ha : a ∈ f.conversionFacts live edge n op value) : a.Typed f := by
  unfold conversionFacts at ha
  split at ha
  · dsimp only at ha
    split at ha
    · next conditions =>
        simp only [Bool.and_eq_true] at conditions
        rw [mem_onEdge ha]
        exact fun _ => conditions.2
    · cases ha
  · cases ha

/-- The ends of an interval are wrapped to the type of the name that is tested. -/
theorem rangeTestFacts_typed (ha : a ∈ f.rangeTestFacts live edge n op value) : a.Typed f := by
  unfold rangeTestFacts at ha
  dsimp only at ha
  split at ha
  · split at ha
    · next conditions =>
        simp only [isUnsignedOf, Bool.and_eq_true, Bool.not_eq_true', beq_iff_eq] at conditions
        obtain ⟨⟨⟨-, unsigned⟩, -⟩, ⟨-, baseUnsigned⟩, basePrecision⟩ := conditions
        rcases List.mem_append.mp ha with direct | converted
        · split at direct
          · cases direct
          · rw [mem_onEdge direct]
            have size : (f.typeOf (f.offsetBase n).1).size = (f.typeOf n).size := by
              rw [ScalarType.size, ScalarType.size, basePrecision]
            have fits : ∀ x, (f.typeOf (f.offsetBase n).1).fits ((f.typeOf n).wrap x) = true := by
              intro x
              have inside := (f.typeOf n).wrap_fits x
              have ends := ScalarType.ends_of_unsigned unsigned
              have baseEnds := ScalarType.ends_of_unsigned baseUnsigned
              rw [ScalarType.fits_iff] at inside ⊢
              omega
            exact fun _ => ⟨fits _, fits _⟩
        · split at converted
          · split at converted
            · rw [mem_onEdge converted]
              exact fun _ => ⟨ScalarType.wrap_fits _ _, ScalarType.wrap_fits _ _⟩
            · cases converted
          · cases converted
    · cases ha
  · cases ha

theorem assertionsOf_typed (typed : fact.Typed f) (ha : a ∈ f.assertionsOf live edge fact) :
    a.Typed f := by
  cases fact with
  | compare n op limit =>
      simp only [assertionsOf] at ha
      split at ha
      · rcases List.mem_append.mp ha with own | derived
        · rw [mem_onEdge own]
          exact typed
        · cases limit with
          | name m => cases derived
          | const value =>
              rcases List.mem_append.mp derived with source | summand
              · exact conversionFacts_typed source
              · exact rangeTestFacts_typed summand
      · cases ha
  | truth n nonzero =>
      simp only [assertionsOf] at ha
      split at ha
      · rw [mem_onEdge ha]
        exact fun _ => ScalarType.fits_zero _
      · cases ha

variable (hf : f.Valid)

include hf

theorem truthFacts_typed {nonzero : Bool} (h : fact ∈ f.truthFacts n nonzero) : fact.Typed f := by
  cases fact with
  | truth m nonzero => trivial
  | compare m told limit =>
      -- only the definition of a comparison tells comparisons
      unfold truthFacts at h
      dsimp only at h
      split at h
      · split at h
        · obtain ⟨_, -, same⟩ := List.mem_map.mp h
          cases same
        · cases h
      · split at h
        · cases h
        · obtain ⟨_, -, same⟩ := List.mem_map.mp h
          cases same
      · next op lhs rhs hdef =>
          split at h
          · obtain ⟨_, _, -, hstmt⟩ := stmtAt?_of_defRhs? hdef
            obtain ⟨_, -, check⟩ := bind_eq_ok.mp (hf.checkRhs hstmt)
            exact (comparisonFacts_typed check h).2
          · cases h
      · split at h
        · cases List.mem_singleton.mp h
        · cases h
      · cases List.mem_singleton.mp h
      · split at h
        · cases List.mem_singleton.mp h
        · cases h
      · cases h

theorem impliedFacts_typed {told : Fact} (h : told ∈ f.impliedFacts fact) : told.Typed f := by
  cases fact with
  | compare n op limit =>
      cases limit with
      | name m => cases h
      | const value =>
          simp only [impliedFacts] at h
          split at h
          · split at h
            · exact truthFacts_typed hf h
            · cases h
          · cases h
  | truth n nonzero =>
      simp only [impliedFacts] at h
      split at h
      · exact truthFacts_typed hf h
      · cases h

theorem assertionsWithin_typed {depth : Nat} (typed : fact.Typed f)
    (ha : a ∈ f.assertionsWithin live edge depth fact) : a.Typed f := by
  induction depth generalizing fact with
  | zero => cases ha
  | succ depth ih =>
      rcases List.mem_append.mp ha with own | told
      · exact assertionsOf_typed typed own
      · obtain ⟨implied, himplied, told⟩ := List.mem_flatMap.mp told
        exact ih (impliedFacts_typed hf himplied) told

end Facts

section Places

variable {f : Function} {live : Liveness} {block : BlockId} {a : AssertLocus} (hf : f.Valid)

include hf

theorem branchAssertions_typed {b : Block} {cond : Condition} {onTrue onFalse : BlockId}
    (hb : f.block? block = some b) (ht : b.terminator = .branch cond onTrue onFalse)
    (ha : a ∈ f.branchAssertions live block cond) : a.Typed f := by
  have check : f.checkComparison cond.lhs cond.rhs = .ok () := by
    have checked := hf.terminators block b hb
    rw [ht] at checked
    exact checked
  unfold branchAssertions at ha
  split at ha
  · cases ha
  · obtain ⟨⟨e, id⟩, -, ha⟩ := List.mem_flatMap.mp ha
    dsimp only at ha
    split at ha
    · split at ha
      · next holds hon =>
          obtain ⟨fact, hfact, ha⟩ := List.mem_flatMap.mp ha
          obtain ⟨left, right⟩ := conditionOn?_sides hon
          rw [left, right] at hfact
          have typed : fact.Typed f := by
            cases fact with
            | compare m told limit => exact (comparisonFacts_typed check hfact).2
            | truth m nonzero => trivial
          exact assertionsWithin_typed hf typed ha
      · cases ha
    · cases ha

theorem switchAssertions_typed {b : Block} {n : NameId} {cases : List SwitchCase}
    {default : BlockId} (hb : f.block? block = some b)
    (ht : b.terminator = .switch (.name n) cases default)
    (ha : a ∈ f.switchAssertions live block n cases default) : a.Typed f := by
  have fits : ∀ case ∈ cases,
      (f.typeOf n).fits case.low = true ∧ (f.typeOf n).fits case.high = true := by
    have checked := hf.terminators block b hb
    rw [ht] at checked
    obtain ⟨_, -, checked⟩ := bind_eq_ok.mp checked
    exact checkCases_fits checked
  unfold switchAssertions at ha
  split at ha
  · obtain ⟨⟨target, low, high⟩, hhull, ha⟩ := List.mem_flatMap.mp ha
    have hullFits := hulls_fit (fun case hcase => fits case (List.mem_filter.mp hcase).1) _ hhull
    dsimp only at ha
    split at ha
    · split at ha
      · cases ha
      · obtain ⟨fact, hfact, ha⟩ := List.mem_flatMap.mp ha
        refine assertionsWithin_typed hf ?_ ha
        unfold hullFacts at hfact
        split at hfact
        · rw [List.mem_singleton.mp hfact]
          exact fun _ => hullFits.1
        · rcases List.mem_cons.mp hfact with rfl | hfact
          · exact fun _ => hullFits.1
          · rw [List.mem_singleton.mp hfact]
            exact fun _ => hullFits.2
    · cases ha
  · cases ha

omit hf in
theorem dereferenceAssertions_typed {index : Nat} {pointer : NameId}
    (ha : a ∈ f.dereferenceAssertions live block index pointer) : a.Typed f := by
  unfold dereferenceAssertions at ha
  split at ha
  · split at ha
    · obtain ⟨name, -, rfl⟩ := List.mem_map.mp ha
      exact fun _ => ScalarType.fits_zero _
    · cases ha
  · cases ha

/-- The limits of every assertion that is found have the type of its name. -/
theorem typed_of_mem_findAssertions {config : Config} (ha : a ∈ f.findAssertions config) :
    a.Typed f := by
  obtain ⟨block, -, ha⟩ := List.mem_flatMap.mp (mem_requested_of_mem_findAssertions ha)
  unfold blockAssertions at ha
  split at ha
  · cases ha
  · next b hb =>
      rcases List.mem_append.mp ha with access | control
      · split at access
        · obtain ⟨⟨stmt, index⟩, -, access⟩ := List.mem_flatMap.mp access
          dsimp only at access
          split at access
          · exact dereferenceAssertions_typed access
          · cases access
        · cases access
      · split at control
        · next ht => exact branchAssertions_typed hf hb ht control
        · next ht => exact switchAssertions_typed hf hb ht control
        · cases control

end Places

section Renamed

variable {f g : Function} {r : NameId → NameId} {ty : ScalarType} {rhs : Rhs}

/-- Operands that are read by other names of their types keep their types. -/
theorem Renames.limitsTypedIn (renames : Renames f g r) (typed : f.LimitsTypedIn ty rhs) :
    g.LimitsTypedIn ty (rhs.rename r) := by
  cases rhs with
  | unary op x =>
      cases op with
      | abs => exact renames.typed typed
      | negate | bitNot | truthNot | convert | floatToInt | intToFloat => trivial
  | assert subject predicate =>
      cases predicate with
      | compare op limit => exact renames.typed typed
      | within low high negated => exact typed
  | copy | binary | compare | select | addressOf | load | call => trivial

theorem Renames.unaryTypedIn (renames : Renames f g r) (typed : f.UnaryTypedIn ty rhs) :
    g.UnaryTypedIn ty (rhs.rename r) := by
  cases rhs with
  | unary op x =>
      obtain ⟨operand, kept⟩ := typed
      have same : g.operandType ty (x.rename r) = f.operandType ty x := by
        refine renames.operandType fun n named => ?_
        rw [Operand.name?_eq_some.mp named] at operand
        exact operand.1
      refine ⟨?_, fun closed => ?_⟩
      · rw [same]
        exact renames.typed operand
      · rw [same]
        exact kept closed
  | copy | binary | compare | select | assert | addressOf | load | call => trivial

end Renamed

section Asserted

variable {f : Function} {loci : List AssertLocus} {r : Point → NameId → NameId}

/-- What old right-hand sides and assertions of the facts have for their types, and other names
    keep, all right-hand sides of the function with assertions have. -/
theorem forall_rhs_asserted {was is : ScalarType → Rhs → Prop} (hf : f.Valid)
    (keeps : ∀ p ty rhs, was ty rhs → is ty (rhs.rename (r p)))
    (old : ∀ block i dest rhs, f.stmtAt? block i = some (.assign dest rhs) →
      was (f.typeOf dest) rhs)
    (new : ∀ l ∈ loci, was (f.typeOf l.name) (.assert l.name l.predicate)) :
    ∀ b ∈ ((f.withAssertions loci).renameUses r).blocks, ∀ dest rhs, .assign dest rhs ∈ b.stmts →
      is (((f.withAssertions loci).renameUses r).typeOf dest) rhs := by
  intro b hb dest rhs hstmt
  obtain ⟨block, hb⟩ := List.mem_iff_getElem?.mp hb
  obtain ⟨index, hi⟩ := List.mem_iff_getElem?.mp hstmt
  have here : ((f.withAssertions loci).renameUses r).stmtAt? block index =
      some (.assign dest rhs) := stmtAt?_eq_some.mpr ⟨b, hb, hi⟩
  rw [stmtAt?_renameUses] at here
  obtain ⟨stmt, hstmt, renamed⟩ := Option.map_eq_some_iff.mp here
  rw [typeOf_renameUses]
  rcases of_stmtAt?_withAssertions hstmt with ⟨i, before, -⟩ | ⟨i, l, slot, placed, rfl, -⟩
  · cases stmt with
    | assign dest rhs =>
        cases renamed
        rw [typeOf_withAssertions_old (hf.dest_lt before)]
        exact keeps _ _ _ (old _ i dest rhs before)
    | store | nop => cases renamed
  · cases renamed
    rw [typeOf_withAssertions_new placed]
    exact keeps _ _ _ (new l (of_mem_placements (List.mem_of_getElem? placed)).1)

theorem integral_asserted (found : ∀ l ∈ loci, f.Registered (fun _ _ n => n < f.nameCount) l)
    (integral : f.Integral) : ((f.withAssertions loci).renameUses r).Integral := by
  intro n known
  rw [typeOf_renameUses]
  by_cases old : n < f.nameCount
  · rw [typeOf_withAssertions_old old]
    exact integral n old
  · obtain ⟨i, rfl⟩ := Nat.exists_eq_add_of_le (Nat.le_of_not_lt old)
    rw [nameCount_renameUses, nameCount_withAssertions] at known
    have placed := List.getElem?_eq_getElem (Nat.lt_of_add_lt_add_left known)
    rw [typeOf_withAssertions_new placed]
    have hl := (of_mem_placements (List.mem_of_getElem? placed)).1
    exact integral _ ((found _ hl).reads _ (List.mem_cons_self ..))

variable (hf : f.Valid) (renames : ∀ p, Renames f ((f.withAssertions loci).renameUses r) (r p))

include hf renames

theorem limitsTyped_asserted (typed : ∀ l ∈ loci, l.Typed f) (limits : f.LimitsTyped) :
    ((f.withAssertions loci).renameUses r).LimitsTyped :=
  forall_rhs_asserted hf (fun p _ _ => (renames p).limitsTypedIn)
    (fun _ _ _ _ before => limits.stmtAt? before) typed

theorem unaryTyped_asserted (unary : f.UnaryTyped) :
    ((f.withAssertions loci).renameUses r).UnaryTyped :=
  forall_rhs_asserted hf (fun p _ _ => (renames p).unaryTypedIn)
    (fun _ _ _ _ before => unary.stmtAt? before) fun _ _ => trivial

end Asserted

section Ranks

variable {f g : Function} {loci : List AssertLocus} {P : BlockId → Nat → NameId → Prop}
  (found : ∀ l ∈ loci, f.Registered P l)
  (outline : g.blocks.map Block.outline =
    (f.splitAll (f.edgesToSplit loci)).blocks.map Block.outline)

/-- The rank of an old block is doubled, which makes room for a block behind it. -/
def splitRank (f : Function) (splits : List (BlockId × BlockId)) (rank : BlockId → Nat)
    (b : BlockId) : Nat :=
  if b < f.blockCount then 2 * rank b
  else 2 * rank ((splits[b - f.blockCount]?).elim 0 Prod.fst) + 1

theorem splitRank_old {splits : List (BlockId × BlockId)} {rank : BlockId → Nat} {b : BlockId}
    (old : b < f.blockCount) : f.splitRank splits rank b = 2 * rank b :=
  if_pos old

theorem splitRank_new {splits : List (BlockId × BlockId)} {rank : BlockId → Nat} {i : Nat}
    {src dst : BlockId} (hi : splits[i]? = some (src, dst)) :
    f.splitRank splits rank (f.blockCount + i) = 2 * rank src + 1 := by
  simp [splitRank, hi]

include found outline

theorem rankedBy_asserted (hf : f.Valid) {rank : BlockId → Nat} (ranked : f.RankedBy rank) :
    g.RankedBy (f.splitRank (f.edgesToSplit loci) rank) := by
  have ok := splittable_edgesToSplit found
  rintro p t ⟨passed, way⟩ fed
  have old := ok.path_old hf (path_of_outline outline way)
  rcases (ok.feeds_iff hf).mp (feeds_of_outline outline fed) with
    ⟨fed, -⟩ | ⟨i, dst, hi, rfl⟩ | ⟨i, src, hi, rfl⟩
  · obtain ⟨hp, ht⟩ := hf.feeds_lt fed
    rw [splitRank_old hp, splitRank_old ht]
    refine (ranked p t ⟨_, old.1 hp⟩ fed).imp (fun above passed way => ?_) fun rises => by omega
    have way := (ok.path_old hf (path_of_outline outline way)).1 hp
    exact (above _ way).imp_right List.mem_of_mem_filter
  · right
    rw [splitRank_old (hf.feeds_lt (ok.feeds (List.mem_of_getElem? hi))).1, splitRank_new hi]
    omega
  · have fed := ok.feeds (List.mem_of_getElem? hi)
    obtain ⟨before, -, path⟩ := old.2 i src t hi rfl
    rw [splitRank_new hi, splitRank_old (hf.feeds_lt fed).2]
    refine (ranked src t ⟨_, path⟩ fed).imp (fun above passed way => ?_) fun rises => by omega
    -- the way to the new block comes from the source of its edge
    obtain ⟨before, rfl, path⟩ :=
      (ok.path_old hf (path_of_outline outline way)).2 i src t hi rfl
    rcases above _ path with rfl | member
    · exact .inr (List.mem_cons_self ..)
    · exact .inr (List.mem_cons_of_mem _ (List.mem_of_mem_filter member))

theorem reducible_asserted (hf : f.Valid) (reducible : f.Reducible) : g.Reducible := by
  obtain ⟨rank, ranked⟩ := reducible
  exact ⟨_, rankedBy_asserted found outline hf ranked⟩

end Ranks

end Function

end RangeFlow
