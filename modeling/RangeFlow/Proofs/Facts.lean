import RangeFlow.Proofs.Conversion
import RangeFlow.Proofs.Edges
import RangeFlow.Proofs.SingleAssignment

/-! # Facts hold where they are registered

A fact about a name tells facts about the names it was computed from, because these still have the
values from which it was computed. So every fact that follows from the condition of a branch, the
cases of a switch or an access through a pointer is true whenever an execution passes its place.
-/

namespace RangeFlow

/-- The value satisfies the predicate; a limit has its current value. -/
def Predicate.Holds (env : Env) (value : Int) : Predicate → Prop
  | .compare op limit => ∃ l, env.operand limit = some l ∧ op.eval value l = true
  | .within low high negated => Between low high value ↔ negated = false

/-- The name has a value, and it satisfies the predicate. -/
def AssertLocus.Holds (a : AssertLocus) (env : Env) : Prop :=
  ∃ v, env a.name = some v ∧ a.predicate.Holds env v

/-- The fact is true, and it is about a name that is set on every way to the point. Nothing is said
    about values that are not followed. -/
def Fact.Holds (f : Function) (block : BlockId) (index : Nat) (env : Env) : Fact → Prop
  | .compare n op limit => f.Dominated n block index ∧ f.Typed (f.typeOf n) limit ∧
      ((f.typeOf n).isTracked = true →
        ∃ v l, env n = some v ∧ env.operand limit = some l ∧ op.eval v l = true)
  | .truth n nonzero => f.Dominated n block index ∧
      ((f.typeOf n).isTracked = true → ∃ v, env n = some v ∧ (v ≠ 0 ↔ nonzero = true))

namespace Function

section Point

variable {f : Function} {config : Config} {block : BlockId} {index : Nat} {env : Env}

theorem operandType_name {place : ScalarType} {n : NameId} (h : n < f.nameCount) :
    f.operandType place (.name n) = f.typeOf n := by
  simp [operandType, Operand.name?, typeOf?_eq_some h]

theorem mem_onEdge {live : Liveness} {edge : EdgeId} {n : NameId} {predicate : Predicate}
    {a : AssertLocus} (h : a ∈ f.onEdge live edge n predicate) :
    a = ⟨n, predicate, .edge edge⟩ := by
  unfold onEdge at h
  split at h
  · exact List.mem_singleton.mp h
  · cases h

theorem locus_of_mem_conversionFacts {live : Liveness} {edge : EdgeId} {n : NameId} {op : CmpOp}
    {value : Int} {a : AssertLocus} (h : a ∈ f.conversionFacts live edge n op value) :
    a.locus = .edge edge := by
  unfold conversionFacts at h
  split at h
  · dsimp only at h
    split at h
    · rw [mem_onEdge h]
    · cases h
  · cases h

theorem locus_of_mem_rangeTestFacts {live : Liveness} {edge : EdgeId} {n : NameId} {op : CmpOp}
    {value : Int} {a : AssertLocus} (h : a ∈ f.rangeTestFacts live edge n op value) :
    a.locus = .edge edge := by
  unfold rangeTestFacts at h
  dsimp only at h
  split at h
  · split at h
    · rcases List.mem_append.mp h with direct | converted
      · split at direct
        · cases direct
        · rw [mem_onEdge direct]
      · split at converted
        · split at converted
          · rw [mem_onEdge converted]
          · cases converted
        · cases converted
    · cases h
  · cases h

/-- All that a fact on an edge asks for is asked for on that edge. -/
theorem locus_of_mem_assertionsWithin {live : Liveness} {edge : EdgeId} {depth : Nat} {fact : Fact}
    {a : AssertLocus} (h : a ∈ f.assertionsWithin live edge depth fact) : a.locus = .edge edge := by
  induction depth generalizing fact with
  | zero => cases h
  | succ depth ih =>
      rcases List.mem_append.mp h with own | told
      · cases fact with
        | compare n op limit =>
            simp only [assertionsOf] at own
            split at own
            · rcases List.mem_append.mp own with direct | derived
              · rw [mem_onEdge direct]
              · cases limit with
                | name m => cases derived
                | const value =>
                    rcases List.mem_append.mp derived with source | summand
                    · exact locus_of_mem_conversionFacts source
                    · exact locus_of_mem_rangeTestFacts summand
            · cases own
        | truth n nonzero =>
            simp only [assertionsOf] at own
            split at own
            · rw [mem_onEdge own]
            · cases own
      · obtain ⟨implied, -, told⟩ := List.mem_flatMap.mp told
        exact ih told

/-- What a comparison tells is about a name of the compared type and a limit of that type. -/
theorem comparisonFacts_typed {op told : CmpOp} {lhs rhs limit : Operand} {n : NameId}
    (check : f.checkComparison lhs rhs = .ok ())
    (h : .compare n told limit ∈ comparisonFacts op lhs rhs) :
    f.comparisonType? lhs rhs = some (f.typeOf n) ∧ f.Typed (f.typeOf n) limit := by
  rcases List.mem_append.mp h with left | right
  · cases lhs with
    | const c => cases left
    | name m =>
        cases List.mem_singleton.mp left
        have type : f.comparisonType? (.name n) rhs = some (f.typeOf n) :=
          comparisonType?_name_left (checkComparison_names check (.inl rfl))
        exact ⟨type, (checkComparison_typed check type).2⟩
  · cases rhs with
    | const c => cases right
    | name m =>
        cases List.mem_singleton.mp right
        have exists_ := checkComparison_names check (.inr rfl)
        cases lhs with
        | const c =>
            have type := comparisonType?_name_right (c := c) exists_
            exact ⟨type, (checkComparison_typed check type).1⟩
        | name m =>
            have exists_m := checkComparison_names check (.inl rfl)
            have type : f.comparisonType? (.name m) (.name n) = some (f.typeOf m) :=
              comparisonType?_name_left exists_m
            have same := (checkComparison_typed check type).2.2
            rw [same]
            exact ⟨type, exists_m, rfl⟩

/-- A comparison that holds tells how each operand that is a name compares to the other. -/
theorem comparisonFacts_hold {op : CmpOp} {lhs rhs : Operand} {a b : Int}
    (check : f.checkComparison lhs rhs = .ok ())
    (dominated : ∀ m, lhs = .name m ∨ rhs = .name m → f.Dominated m block index)
    (ha : env.operand lhs = some a) (hb : env.operand rhs = some b)
    (h : (f.comparisonType? lhs rhs).all ScalarType.isTracked = true → op.eval a b = true) :
    ∀ fact ∈ comparisonFacts op lhs rhs, fact.Holds f block index env := by
  intro fact hfact
  rcases List.mem_append.mp hfact with left | right
  · cases lhs with
    | const c => cases left
    | name n =>
        cases List.mem_singleton.mp left
        obtain ⟨type, typed⟩ := comparisonFacts_typed check hfact
        refine ⟨dominated n (.inl rfl), typed, fun tracked => ?_⟩
        exact ⟨a, b, ha, hb, h (by rw [type]; exact tracked)⟩
  · cases rhs with
    | const c => cases right
    | name n =>
        cases List.mem_singleton.mp right
        obtain ⟨type, typed⟩ := comparisonFacts_typed check hfact
        refine ⟨dominated n (.inr rfl), typed, fun tracked => ⟨b, a, hb, ha, ?_⟩⟩
        rw [CmpOp.eval_swap]
        exact h (by rw [type]; exact tracked)

/-- Both sides of an operator are, or are not, zero. -/
theorem truth_of_sides {x y : Operand} {a b : Int} {nonzero : Bool} {op : BinaryOp}
    (ha : env.operand x = some a) (hb : env.operand y = some b)
    (left : a ≠ 0 ↔ nonzero = true) (right : b ≠ 0 ↔ nonzero = true)
    (read : ∀ m ∈ (Rhs.binary op x y).usedNames, f.Dominated m block index) {fact : Fact}
    (h : fact ∈ ([x, y].filterMap Operand.name?).map (Fact.truth · nonzero)) :
    fact.Holds f block index env := by
  obtain ⟨m, hm, rfl⟩ := List.mem_map.mp h
  refine ⟨read m hm, fun _ => ?_⟩
  obtain ⟨o, ho, hname⟩ := List.mem_filterMap.mp hm
  have named : o = .name m := by
    cases o with
    | name k => exact congrArg _ (Option.some.inj hname)
    | const c => cases hname
  subst named
  rcases List.mem_cons.mp ho with rfl | ho
  · exact ⟨a, ha, left⟩
  · cases List.mem_singleton.mp ho
    exact ⟨b, hb, right⟩

/-- A comparison that says whether a name is zero says the truth. -/
theorem truthOf?_spec {n : NameId} {op : CmpOp} {value v : Int} {nonzero : Bool}
    (h : f.truthOf? n op value = some nonzero) (fits : (f.typeOf n).fits value = true)
    (hv : (f.typeOf n).fits v = true) (compared : op.eval v value = true) :
    v ≠ 0 ↔ nonzero = true := by
  -- one is a value of a type of one bit only if the type has no negative values
  have oneBit : value = 1 → (f.typeOf n).precision = 1 → v = 0 ∨ v = 1 := by
    rintro rfl precision
    rw [ScalarType.fits_iff] at fits hv
    cases sign : (f.typeOf n).signed with
    | false =>
        have ends := ScalarType.ends_of_unsigned sign
        have size : (f.typeOf n).size = 2 := by rw [ScalarType.size, precision]; rfl
        omega
    | true =>
        have ends := ScalarType.ends_of_signed sign
        have half : twoPow ((f.typeOf n).precision - 1) = 1 := by rw [precision]; rfl
        omega
  simp only [truthOf?, beq_iff_eq] at h
  split at h
  · next conditions =>
      obtain ⟨rfl, rfl⟩ := conditions
      cases h
      simpa [CmpOp.eval] using compared
  · split at h
    · next conditions =>
        obtain ⟨rfl, rfl⟩ := conditions
        cases h
        simpa [CmpOp.eval] using compared
    · split at h
      · next conditions =>
          obtain ⟨rfl, rfl, precision⟩ := conditions
          cases h
          simp only [CmpOp.eval, decide_eq_true_eq] at compared
          simp [compared]
      · split at h
        · next conditions =>
            obtain ⟨rfl, rfl, precision⟩ := conditions
            cases h
            simp only [CmpOp.eval, decide_eq_true_eq] at compared
            have values := oneBit rfl precision
            simp only [reduceCtorEq, iff_false]
            omega
        · cases h

variable (hf : f.Valid) (uses : f.UsesDominated)
  (consistent : f.Consistent config block index env)

include hf uses consistent

/-- A name that is set has the value of its right-hand side, and the names read there are set. -/
theorem Consistent.of_defRhs? {n : NameId} {rhs : Rhs} (h : f.defRhs? n = some rhs)
    (dominated : f.Dominated n block index) :
    ∃ v, env n = some v ∧ f.Evaluates config env n v rhs ∧
      f.checkRhs (f.typeOf n) rhs = .ok () ∧ ∀ m ∈ rhs.usedNames, f.Dominated m block index := by
  obtain ⟨d, i, hsite, hstmt⟩ := stmtAt?_of_defRhs? h
  obtain ⟨site, hsite', dominates⟩ := dominated
  rw [hsite] at hsite'
  cases hsite'
  obtain ⟨v, hv, evaluates⟩ := consistent.defined n d i rhs hstmt dominates
  refine ⟨v, hv, evaluates, hf.checkRhs hstmt, ?_⟩
  intro m hm
  exact uses.read_of_def hstmt dominates hm

/-- A name that is a conversion of a followed value has that value, wrapped to its type. -/
theorem Consistent.of_conversion {n source : NameId}
    (h : f.defRhs? n = some (.unary .convert (.name source)))
    (dominated : f.Dominated n block index) (htarget : (f.typeOf n).isTracked = true)
    (hsource : (f.typeOf source).isTracked = true) :
    f.Dominated source block index ∧ ∃ x, env source = some x ∧
      (f.typeOf source).fits x = true ∧ env n = some ((f.typeOf n).wrap x) := by
  obtain ⟨v, hv, ⟨x, hx, value⟩, check, read⟩ := consistent.of_defRhs? hf uses h dominated
  have member : source ∈ (Rhs.unary .convert (.name source)).usedNames := by
    simp [Rhs.usedNames, Rhs.operands, Operand.name?]
  refine ⟨read source member, x, hx, consistent.typed source x hx hsource, ?_⟩
  rw [operandType_name (checkRhs_usedNames_lt check member)] at value
  simp only [runType, effectiveType_isTracked, htarget, hsource, UnaryOp.isFloating] at value
  cases value
  rw [hv, effectiveType_wrap]

/-- The source of a conversion compares to a constant as the converted value does. -/
theorem Consistent.conversionFacts {live : Liveness} {edge : EdgeId}
    {n : NameId} {op : CmpOp} {value v : Int} (dominated : f.Dominated n block index)
    (fits : (f.typeOf n).fits value = true) (hv : env n = some v) (h : op.eval v value = true) :
    ∀ a ∈ f.conversionFacts live edge n op value, a.Holds env := by
  intro a ha
  unfold Function.conversionFacts at ha
  split at ha
  · next source hdef =>
      dsimp only at ha
      split at ha
      · next conditions =>
          simp only [Bool.and_eq_true] at conditions
          obtain ⟨⟨⟨hsource, htarget⟩, keeps⟩, inSource⟩ := conditions
          rw [mem_onEdge ha]
          obtain ⟨-, x, hx, hfits, hn⟩ := consistent.of_conversion hf uses hdef dominated
            (ScalarType.isTracked_of_isIntegral htarget)
            (ScalarType.isTracked_of_isIntegral hsource)
          rw [hv] at hn
          cases hn
          exact ⟨x, hx, value, rfl, eval_of_conversionKeeps keeps hfits inSource fits h⟩
      · cases ha
  · cases ha

/-- A name is the sum of its base and its offset, up to a multiple of the size of its type. -/
theorem Consistent.offsetBase {n : NameId} {v : Int}
    (dominated : f.Dominated n block index) (tracked : (f.typeOf n).isTracked = true)
    (hv : env n = some v) :
    f.Dominated (f.offsetBase n).1 block index ∧ ∃ x, env (f.offsetBase n).1 = some x ∧
      v % (f.typeOf n).size = (x + (f.offsetBase n).2) % (f.typeOf n).size := by
  unfold Function.offsetBase
  split
  · next base c hdef =>
      obtain ⟨w, hw, ⟨x, b, hx, hb, fold⟩, -, read⟩ := consistent.of_defRhs? hf uses hdef dominated
      rw [hv] at hw
      cases hw
      cases hb
      obtain ⟨exact, hexact, rfl⟩ := BinaryOp.fold_eq_some (fold (by simpa [runType] using tracked))
      refine ⟨read base (by simp [Rhs.usedNames, Rhs.operands, Operand.name?]), x, hx, ?_⟩
      rw [Wide.eq_of_check hexact, runType, effectiveType_wrap, ScalarType.wrap_emod]
  · next base c hdef =>
      obtain ⟨w, hw, ⟨x, b, hx, hb, fold⟩, -, read⟩ := consistent.of_defRhs? hf uses hdef dominated
      rw [hv] at hw
      cases hw
      cases hb
      obtain ⟨exact, hexact, rfl⟩ := BinaryOp.fold_eq_some (fold (by simpa [runType] using tracked))
      refine ⟨read base (by simp [Rhs.usedNames, Rhs.operands, Operand.name?]), x, hx, ?_⟩
      rw [Wide.eq_of_check hexact, runType, effectiveType_wrap, ScalarType.wrap_emod,
        Int.sub_eq_add_neg]
  · exact ⟨dominated, v, hv, by simp⟩

/-- An unsigned comparison of a name with a constant, as a test of the sum that the name is. -/
theorem Consistent.rangeTest {n : NameId} {op : CmpOp} {value limit v : Int} {negated : Bool}
    (dominated : f.Dominated n block index) (integral : (f.typeOf n).isIntegral = true)
    (unsigned : (f.typeOf n).signed = false) (fits : (f.typeOf n).fits value = true)
    (hv : env n = some v) (h : op.eval v value = true)
    (htest : rangeTest? op value = some (negated, limit)) :
    f.Dominated (f.offsetBase n).1 block index ∧ 0 ≤ limit ∧ limit < (f.typeOf n).size ∧
      ∃ x, env (f.offsetBase n).1 = some x ∧
        ((x + (f.offsetBase n).2) % (f.typeOf n).size ≤ limit ↔ negated = false) := by
  have tracked := ScalarType.isTracked_of_isIntegral integral
  obtain ⟨baseDominated, x, hx, sum⟩ := consistent.offsetBase hf uses dominated tracked hv
  have ends := ScalarType.ends_of_unsigned unsigned
  have valueFits := ScalarType.fits_iff.mp fits
  have vFits := ScalarType.fits_iff.mp (consistent.typed n v hv tracked)
  obtain ⟨nonneg, le, tested⟩ := rangeTest?_spec (by omega) htest
  refine ⟨baseDominated, nonneg, by omega, x, hx, ?_⟩
  rw [← sum, Int.emod_eq_of_lt (by omega) (by omega)]
  exact tested v h

/-- An unsigned comparison of a sum tells in which interval the other summand lies, and the value
    it was converted from. -/
theorem Consistent.rangeTestFacts {live : Liveness} {edge : EdgeId} {n : NameId} {op : CmpOp}
    {value v : Int} (dominated : f.Dominated n block index)
    (fits : (f.typeOf n).fits value = true) (hv : env n = some v) (h : op.eval v value = true) :
    ∀ a ∈ f.rangeTestFacts live edge n op value, a.Holds env := by
  intro a ha
  unfold Function.rangeTestFacts at ha
  dsimp only at ha
  split at ha
  · next negated limit htest =>
      split at ha
      · next conditions =>
          simp only [isUnsignedOf, Bool.and_eq_true, Bool.not_eq_true', beq_iff_eq] at conditions
          obtain ⟨⟨⟨integral, unsigned⟩, -⟩, ⟨baseIntegral, baseUnsigned⟩, basePrecision⟩ :=
            conditions
          obtain ⟨baseDominated, nonneg, below, x, hx, compared⟩ :=
            consistent.rangeTest hf uses dominated integral unsigned fits hv h htest
          have baseTracked := ScalarType.isTracked_of_isIntegral baseIntegral
          have baseSize : (f.typeOf (f.offsetBase n).1).size = (f.typeOf n).size := by
            rw [ScalarType.size, ScalarType.size, basePrecision]
          rcases List.mem_append.mp ha with direct | converted
          · split at direct
            · cases direct
            · rw [mem_onEdge direct]
              have xFits : (f.typeOf n).fits x = true := by
                have baseFits := consistent.typed _ x hx baseTracked
                have baseEnds := ScalarType.ends_of_unsigned baseUnsigned
                have ends := ScalarType.ends_of_unsigned unsigned
                rw [ScalarType.fits_iff] at baseFits ⊢
                omega
              refine ⟨x, hx, ?_⟩
              exact (between_wrap_iff xFits rfl rfl nonneg below).trans compared
          · split at converted
            · next source hdef =>
                split at converted
                · next originConditions =>
                    simp only [Bool.and_eq_true, beq_iff_eq] at originConditions
                    obtain ⟨⟨originIntegral, -⟩, originPrecision⟩ := originConditions
                    rw [mem_onEdge converted]
                    obtain ⟨-, y, hy, yFits, wrapped⟩ := consistent.of_conversion hf uses hdef
                      baseDominated baseTracked (ScalarType.isTracked_of_isIntegral originIntegral)
                    have size : (f.typeOf source).size = (f.typeOf n).size := by
                      rw [ScalarType.size, ScalarType.size, originPrecision]
                    have sameSum : (y + (f.offsetBase n).2) % (f.typeOf n).size =
                        (x + (f.offsetBase n).2) % (f.typeOf n).size := by
                      rw [hx] at wrapped
                      have residue := ScalarType.wrap_emod (f.typeOf (f.offsetBase n).1) y
                      rw [← Option.some.inj wrapped, baseSize] at residue
                      rw [Int.add_emod, ← residue, ← Int.add_emod]
                    rw [← sameSum, ← size] at compared
                    refine ⟨y, hy, ?_⟩
                    refine (between_wrap_iff yFits ?_ ?_ nonneg (by omega)).trans compared
                    · rw [size, ScalarType.wrap_emod]
                    · rw [size, ScalarType.wrap_emod]
                · cases converted
            · cases converted
      · cases ha
  · cases ha

/-- The operands of an `or` that is zero are zero. -/
theorem Consistent.truth_of_or {n : NameId} {x y : Operand}
    (hdef : f.defRhs? n = some (.binary .bitOr x y)) (dominated : f.Dominated n block index)
    (tracked : (f.typeOf n).isTracked = true) (zero : env n = some 0) :
    ∀ fact ∈ ([x, y].filterMap Operand.name?).map (Fact.truth · false),
      fact.Holds f block index env := by
  intro fact hfact
  obtain ⟨v, hv, ⟨a, b, ha, hb, fold⟩, check, read⟩ := consistent.of_defRhs? hf uses hdef dominated
  cases zero.symm.trans hv
  obtain ⟨_, -, check⟩ := bind_eq_ok.mp check
  obtain ⟨_, hx, hy⟩ := bind_eq_ok.mp check
  have fitsX := consistent.typed.operand (checkOperand_eq_ok.mp hx) ha tracked
  have fitsY := consistent.typed.operand (checkOperand_eq_ok.mp hy) hb tracked
  obtain ⟨left, right⟩ := BinaryOp.eq_zero_of_bitOr (fold (by simpa [runType] using tracked))
    (by simpa [runType] using fitsX) (by simpa [runType] using fitsY)
  exact truth_of_sides ha hb (by simpa using left) (by simpa using right) read hfact

/-- The truth value of a comparison tells the comparison, or its opposite. -/
theorem Consistent.truth_of_compare {n : NameId} {op : CmpOp} {x y : Operand} {v : Int}
    {nonzero : Bool} (hdef : f.defRhs? n = some (.compare op x y))
    (dominated : f.Dominated n block index) (tracked : (f.typeOf n).isTracked = true)
    (hv : env n = some v) (h : v ≠ 0 ↔ nonzero = true) :
    ∀ fact ∈ comparisonFacts (if nonzero then op else op.invert) x y,
      fact.Holds f block index env := by
  obtain ⟨w, hw, ⟨truth, ⟨a, b, ha, hb, compared⟩, wrapped⟩, check, read⟩ :=
    consistent.of_defRhs? hf uses hdef dominated
  cases hv.symm.trans hw
  rw [wrapped (by simpa [runType] using tracked), wrap_truth_ne_zero, Bool.eq_iff_iff.symm] at h
  obtain ⟨_, -, check⟩ := bind_eq_ok.mp check
  have dominatedSides : ∀ m, x = .name m ∨ y = .name m → f.Dominated m block index := by
    rintro m (rfl | rfl)
    · exact read m (by simp [Rhs.usedNames, Rhs.operands, Operand.name?])
    · exact read m (by simp [Rhs.usedNames, Rhs.operands, Operand.name?])
  refine comparisonFacts_hold check dominatedSides ha hb fun exact => ?_
  have truthIs := compared exact
  cases nonzero with
  | true =>
      rw [if_pos rfl, ← truthIs, h]
  | false =>
      rw [if_neg (by decide), CmpOp.eval_invert, ← truthIs, h]
      rfl

/-- A name that is, or is not, zero tells the same of names that its right-hand side reads. -/
theorem Consistent.truthFacts {n : NameId} {v : Int} {nonzero : Bool}
    (dominated : f.Dominated n block index) (tracked : (f.typeOf n).isTracked = true)
    (hv : env n = some v) (h : v ≠ 0 ↔ nonzero = true) :
    ∀ fact ∈ f.truthFacts n nonzero, fact.Holds f block index env := by
  intro fact hfact
  have runTracked : (f.runType config n).isTracked = true := by simpa [runType] using tracked
  unfold Function.truthFacts at hfact
  dsimp only at hfact
  split at hfact
  · next x y hdef =>
      obtain ⟨w, hw, ⟨a, b, ha, hb, fold⟩, -, read⟩ := consistent.of_defRhs? hf uses hdef dominated
      cases hv.symm.trans hw
      split at hfact
      · next isNonzero =>
          obtain ⟨left, right⟩ := BinaryOp.ne_zero_of_bitAnd (fold runTracked) (h.mpr isNonzero)
          exact truth_of_sides ha hb (by simpa using left) (by simpa using right) read hfact
      · cases hfact
  · next x y hdef =>
      split at hfact
      · cases hfact
      · next isZero =>
          have zero : v = 0 := Classical.byContradiction fun ne => isZero (h.mp ne)
          rw [zero] at hv
          exact consistent.truth_of_or hf uses hdef dominated tracked hv fact hfact
  · next op x y hdef =>
      split at hfact
      · exact consistent.truth_of_compare hf uses hdef dominated tracked hv h fact hfact
      · cases hfact
  · next source hdef =>
      obtain ⟨w, hw, ⟨a, ha, value⟩, check, read⟩ := consistent.of_defRhs? hf uses hdef dominated
      cases hv.symm.trans hw
      split at hfact
      · cases List.mem_singleton.mp hfact
        have member : source ∈ (Rhs.unary .truthNot (.name source)).usedNames := by
          simp [Rhs.usedNames, Rhs.operands, Operand.name?]
        refine ⟨read source member, fun sourceTracked => ⟨a, ha, ?_⟩⟩
        rw [operandType_name (checkRhs_usedNames_lt check member)] at value
        simp only [runType, effectiveType_isTracked, tracked, sourceTracked,
          UnaryOp.isFloating] at value
        rw [UnaryOp.truthNot_ne_zero value] at h
        cases nonzero <;> simp_all
      · cases hfact
  · next source hdef =>
      obtain ⟨w, hw, value, check, read⟩ := consistent.of_defRhs? hf uses hdef dominated
      cases hv.symm.trans hw
      cases List.mem_singleton.mp hfact
      refine ⟨read source (by simp [Rhs.usedNames, Rhs.operands, Operand.name?]), fun _ => ?_⟩
      exact ⟨v, value, h⟩
  · next source hdef =>
      split at hfact
      · next conditions =>
          simp only [Bool.and_eq_true, decide_eq_true_eq] at conditions
          cases List.mem_singleton.mp hfact
          have sourceTracked := ScalarType.isTracked_of_isIntegral conditions.1
          obtain ⟨sourceDominated, x, hx, fits, wrapped⟩ :=
            consistent.of_conversion hf uses hdef dominated tracked sourceTracked
          cases hv.symm.trans wrapped
          have bound := ScalarType.abs_lt_size fits
          have size := ScalarType.size_le_of_precision_le conditions.2
          rw [ne_eq, ScalarType.wrap_eq_zero_iff (by omega) (by omega)] at h
          exact ⟨sourceDominated, fun _ => ⟨x, hx, h⟩⟩
      · cases hfact
  · cases hfact

/-- What a fact about a name tells about the names it is computed from is true. -/
theorem Consistent.impliedFacts {fact : Fact} (h : fact.Holds f block index env) :
    ∀ implied ∈ f.impliedFacts fact, implied.Holds f block index env := by
  intro implied himplied
  cases fact with
  | compare n op limit =>
      obtain ⟨dominated, typed, holds⟩ := h
      cases limit with
      | name m => cases himplied
      | const value =>
          simp only [Function.impliedFacts] at himplied
          split at himplied
          · next follows =>
              have tracked : (f.typeOf n).isTracked = true := by
                simp only [followsComparison, Bool.and_eq_true] at follows
                exact follows.1
              split at himplied
              · next nonzero htruth =>
                  obtain ⟨v, l, hv, hl, compared⟩ := holds tracked
                  cases hl
                  have truth := truthOf?_spec htruth (typed tracked)
                    (consistent.typed n v hv tracked) compared
                  exact consistent.truthFacts hf uses dominated tracked hv truth implied himplied
              · cases himplied
          · cases himplied
  | truth n nonzero =>
      obtain ⟨dominated, holds⟩ := h
      simp only [Function.impliedFacts] at himplied
      split at himplied
      · next integral =>
          have tracked := ScalarType.isTracked_of_isIntegral integral
          obtain ⟨v, hv, truth⟩ := holds tracked
          exact consistent.truthFacts hf uses dominated tracked hv truth implied himplied
      · cases himplied

/-- The assertions that a true fact asks for by itself are true. -/
theorem Consistent.assertionsOf {live : Liveness} {edge : EdgeId} {fact : Fact}
    (h : fact.Holds f block index env) :
    ∀ a ∈ f.assertionsOf live edge fact, a.Holds env := by
  intro a ha
  cases fact with
  | compare n op limit =>
      obtain ⟨dominated, typed, holds⟩ := h
      simp only [Function.assertionsOf] at ha
      split at ha
      · next follows =>
          have tracked : (f.typeOf n).isTracked = true := by
            simp only [followsComparison, Bool.and_eq_true] at follows
            exact follows.1
          obtain ⟨v, l, hv, hl, compared⟩ := holds tracked
          rcases List.mem_append.mp ha with own | derived
          · rw [mem_onEdge own]
            exact ⟨v, hv, l, hl, compared⟩
          · cases limit with
            | name m => cases derived
            | const value =>
                cases hl
                rcases List.mem_append.mp derived with source | summand
                · exact consistent.conversionFacts hf uses dominated (typed tracked) hv compared
                    a source
                · exact consistent.rangeTestFacts hf uses dominated (typed tracked) hv compared
                    a summand
      · cases ha
  | truth n nonzero =>
      obtain ⟨dominated, holds⟩ := h
      simp only [Function.assertionsOf] at ha
      split at ha
      · next integral =>
          obtain ⟨v, hv, truth⟩ := holds (ScalarType.isTracked_of_isIntegral integral)
          rw [mem_onEdge ha]
          refine ⟨v, hv, 0, rfl, ?_⟩
          cases nonzero with
          | true => simpa [CmpOp.eval] using truth
          | false => simpa [CmpOp.eval] using truth
      · cases ha

/-- The assertions that a true fact and all facts it tells ask for are true. -/
theorem Consistent.assertionsWithin {live : Liveness} {edge : EdgeId} {depth : Nat} {fact : Fact}
    (h : fact.Holds f block index env) :
    ∀ a ∈ f.assertionsWithin live edge depth fact, a.Holds env := by
  induction depth generalizing fact with
  | zero =>
      intro a ha
      cases ha
  | succ depth ih =>
      intro a ha
      rcases List.mem_append.mp ha with own | told
      · exact consistent.assertionsOf hf uses h a own
      · obtain ⟨implied, himplied, ha⟩ := List.mem_flatMap.mp told
        exact ih (consistent.impliedFacts hf uses h implied himplied) a ha

end Point

end Function

end RangeFlow
