import RangeFlow.Proofs.Assertions

/-! # What assertions read

An assertion is about names that were read where its fact was found, or from which such names were
computed. So a property that passes from a name to the names it is computed from, and that all names
have where they are read, holds of every name of every assertion at its place.
-/

namespace RangeFlow

/-- The names an assertion of the fact reads. -/
def AssertLocus.reads (a : AssertLocus) : List NameId := (Rhs.assert a.name a.predicate).usedNames

namespace Function

/-- Every name has the property where it is read, in front of a statement or behind all of them,
    and names from which such a name is computed have it there too. -/
structure ReadsHave (f : Function) (P : BlockId → Nat → NameId → Prop) : Prop where
  stmt : ∀ block index stmt n, f.stmtAt? block index = some stmt → n ∈ stmt.usedNames →
    P block index n
  terminator : ∀ block b n, f.block? block = some b → n ∈ b.terminator.usedNames →
    P block b.stmts.length n
  mono : ∀ block i j n, P block i n → i ≤ j → P block j n
  computed : ∀ block index n rhs m, P block index n → f.defRhs? n = some rhs → m ∈ rhs.usedNames →
    P block index m

theorem Valid.readsHave_lt {f : Function} (hf : f.Valid) :
    f.ReadsHave fun _ _ n => n < f.nameCount where
  stmt _ _ _ _ hstmt hn := hf.stmt_usedNames_lt hstmt hn
  terminator _ _ _ hb hn := hf.terminator_usedNames_lt hb hn
  mono _ _ _ _ h _ := h
  computed _ _ _ _ _ _ hrhs hm := by
    obtain ⟨_, _, -, hstmt⟩ := stmtAt?_of_defRhs? hrhs
    exact hf.stmt_usedNames_lt hstmt hm

theorem UsesDominated.readsHave {f : Function} (uses : f.UsesDominated) :
    f.ReadsHave fun block index n => f.Dominated n block index where
  stmt := uses.stmt
  terminator := uses.terminator
  mono _ _ _ _ h le := h.mono le
  computed block index n rhs m h hrhs hm := by
    obtain ⟨d, i, hsite, hstmt⟩ := stmtAt?_of_defRhs? hrhs
    obtain ⟨site, hsite', dominates⟩ := h
    rw [hsite] at hsite'
    cases hsite'
    exact uses.read_of_def hstmt dominates hm

/-- The place of the fact exists, and the names of the fact have the property there. On an edge,
    which no exception takes, this is the end of its source. -/
def Registered (f : Function) (P : BlockId → Nat → NameId → Prop) (a : AssertLocus) : Prop :=
  match a.locus with
  | .edge id => ∃ e b, f.edge? id = some e ∧ e.isAbnormal = false ∧ f.block? e.src = some b ∧
      ∀ n ∈ a.reads, P e.src b.stmts.length n
  | .after block index => (∃ stmt, f.stmtAt? block index = some stmt) ∧ ∀ n ∈ a.reads, P block index n

/-- A property that does not depend on the place holds of all names of the fact. -/
theorem Registered.reads {f : Function} {Q : NameId → Prop} {a : AssertLocus}
    (h : f.Registered (fun _ _ n => Q n) a) : ∀ n ∈ a.reads, Q n := by
  unfold Registered at h
  split at h
  · obtain ⟨_, _, -, -, -, names⟩ := h
    exact names
  · exact h.2

section Facts

variable {f : Function} {live : Liveness} {edge : EdgeId} {Q : NameId → Prop}
  (computed : ∀ n rhs m, Q n → f.defRhs? n = some rhs → m ∈ rhs.usedNames → Q m)

theorem reads_of_mem_onEdge {n : NameId} {predicate : Predicate} {a : AssertLocus}
    (h : a ∈ f.onEdge live edge n predicate) (name : Q n)
    (limit : ∀ op m, predicate = .compare op (.name m) → Q m) : ∀ m ∈ a.reads, Q m := by
  rw [mem_onEdge h]
  intro m hm
  rcases List.mem_cons.mp hm with rfl | hm
  · exact name
  · cases predicate with
    | within low high negated => cases hm
    | compare op o =>
        cases o with
        | const c => cases hm
        | name k =>
            rw [List.mem_singleton.mp hm]
            exact limit op k rfl

include computed

theorem reads_of_mem_conversionFacts {n : NameId} {op : CmpOp} {value : Int} {a : AssertLocus}
    (h : a ∈ f.conversionFacts live edge n op value) (name : Q n) : ∀ m ∈ a.reads, Q m := by
  unfold conversionFacts at h
  split at h
  · next source hdef =>
      dsimp only at h
      split at h
      · refine reads_of_mem_onEdge h ?_ (by simp)
        exact computed n _ source name hdef (by simp [Rhs.usedNames, Rhs.operands, Operand.name?])
      · cases h
  · cases h

theorem offsetBase_has {n : NameId} (name : Q n) : Q (f.offsetBase n).1 := by
  unfold offsetBase
  split
  · next hdef => exact computed n _ _ name hdef (by simp [Rhs.usedNames, Rhs.operands, Operand.name?])
  · next hdef => exact computed n _ _ name hdef (by simp [Rhs.usedNames, Rhs.operands, Operand.name?])
  · exact name

theorem reads_of_mem_rangeTestFacts {n : NameId} {op : CmpOp} {value : Int} {a : AssertLocus}
    (h : a ∈ f.rangeTestFacts live edge n op value) (name : Q n) : ∀ m ∈ a.reads, Q m := by
  have base : Q (f.offsetBase n).1 := offsetBase_has computed name
  unfold rangeTestFacts at h
  dsimp only at h
  split at h
  · split at h
    · rcases List.mem_append.mp h with direct | converted
      · split at direct
        · cases direct
        · exact reads_of_mem_onEdge direct base (by simp)
      · split at converted
        · next source hdef =>
            split at converted
            · refine reads_of_mem_onEdge converted ?_ (by simp)
              exact computed _ _ source base hdef
                (by simp [Rhs.usedNames, Rhs.operands, Operand.name?])
            · cases converted
        · cases converted
    · cases h
  · cases h

end Facts

end Function

/-- The name that a fact is about. -/
def Fact.name : Fact → NameId
  | .compare n _ _ => n
  | .truth n _ => n

/-- The names of a fact have a property. -/
def Fact.Names (Q : NameId → Prop) : Fact → Prop
  | .compare n _ limit => Q n ∧ ∀ m, limit = .name m → Q m
  | .truth n _ => Q n

theorem Fact.Names.name {Q : NameId → Prop} {fact : Fact} (names : fact.Names Q) : Q fact.name := by
  cases fact with
  | compare n op limit => exact names.1
  | truth n nonzero => exact names

theorem Fact.Names.imp {Q R : NameId → Prop} {fact : Fact} (names : fact.Names Q)
    (weaker : ∀ n, Q n → R n) : fact.Names R := by
  cases fact with
  | compare n op limit => exact ⟨weaker n names.1, fun m hm => weaker m (names.2 m hm)⟩
  | truth n nonzero => exact weaker n names

namespace Function

section Facts

variable {f : Function} {live : Liveness} {edge : EdgeId} {Q : NameId → Prop}
  (computed : ∀ n rhs m, Q n → f.defRhs? n = some rhs → m ∈ rhs.usedNames → Q m)

theorem comparisonFacts_names {op : CmpOp} {lhs rhs : Operand}
    (left : ∀ m, lhs = .name m → Q m) (right : ∀ m, rhs = .name m → Q m) :
    ∀ fact ∈ comparisonFacts op lhs rhs, fact.Names Q := by
  intro fact hfact
  rcases List.mem_append.mp hfact with first | second
  · cases lhs with
    | const c => cases first
    | name n =>
        cases List.mem_singleton.mp first
        exact ⟨left n rfl, right⟩
  · cases rhs with
    | const c => cases second
    | name n =>
        cases List.mem_singleton.mp second
        exact ⟨right n rfl, left⟩

/-- What a name tells is about names that its definition reads. -/
theorem truthFacts_read {n : NameId} {nonzero : Bool} {fact : Fact}
    (hfact : fact ∈ f.truthFacts n nonzero) :
    ∃ rhs, f.defRhs? n = some rhs ∧ fact.Names (· ∈ rhs.usedNames) := by
  unfold truthFacts at hfact
  dsimp only at hfact
  split at hfact
  · next lhs rhs hdef =>
      split at hfact
      · obtain ⟨m, hm, rfl⟩ := List.mem_map.mp hfact
        exact ⟨_, hdef, hm⟩
      · cases hfact
  · next lhs rhs hdef =>
      split at hfact
      · cases hfact
      · obtain ⟨m, hm, rfl⟩ := List.mem_map.mp hfact
        exact ⟨_, hdef, hm⟩
  · next op lhs rhs hdef =>
      split at hfact
      · refine ⟨_, hdef, comparisonFacts_names ?_ ?_ fact hfact⟩
        · rintro m rfl
          simp [Rhs.usedNames, Rhs.operands, Operand.name?]
        · rintro m rfl
          cases lhs <;> simp [Rhs.usedNames, Rhs.operands, Operand.name?]
      · cases hfact
  · next source hdef =>
      split at hfact
      · cases List.mem_singleton.mp hfact
        exact ⟨_, hdef, by simp [Fact.Names, Rhs.usedNames, Rhs.operands, Operand.name?]⟩
      · cases hfact
  · next source hdef =>
      cases List.mem_singleton.mp hfact
      exact ⟨_, hdef, by simp [Fact.Names, Rhs.usedNames, Rhs.operands, Operand.name?]⟩
  · next source hdef =>
      split at hfact
      · cases List.mem_singleton.mp hfact
        exact ⟨_, hdef, by simp [Fact.Names, Rhs.usedNames, Rhs.operands, Operand.name?]⟩
      · cases hfact
  · cases hfact

theorem impliedFacts_read {fact told : Fact} (htold : told ∈ f.impliedFacts fact) :
    ∃ rhs, f.defRhs? fact.name = some rhs ∧ told.Names (· ∈ rhs.usedNames) := by
  cases fact with
  | compare n op limit =>
      cases limit with
      | name m => cases htold
      | const value =>
          simp only [impliedFacts] at htold
          split at htold
          · split at htold
            · exact truthFacts_read htold
            · cases htold
          · cases htold
  | truth n nonzero =>
      simp only [impliedFacts] at htold
      split at htold
      · exact truthFacts_read htold
      · cases htold

theorem castSource?_read {n source : NameId} (hcast : f.castSource? n = some source) :
    ∃ rhs, f.defRhs? n = some rhs ∧ source ∈ rhs.usedNames := by
  unfold castSource? at hcast
  split at hcast
  · next hdef =>
      split at hcast
      · cases hcast
        exact ⟨_, hdef, by simp [Rhs.usedNames, Rhs.operands, Operand.name?]⟩
      · cases hcast
  · cases hcast

include computed

theorem impliedFacts_names {fact : Fact} (names : fact.Names Q) :
    ∀ told ∈ f.impliedFacts fact, told.Names Q := by
  intro told htold
  obtain ⟨rhs, hdef, read⟩ := impliedFacts_read htold
  exact read.imp fun m hm => computed fact.name rhs m names.name hdef hm

theorem reads_of_mem_assertionsOf {fact : Fact} {a : AssertLocus}
    (h : a ∈ f.assertionsOf live edge fact) (names : fact.Names Q) : ∀ m ∈ a.reads, Q m := by
  cases fact with
  | compare n op limit =>
      simp only [assertionsOf] at h
      split at h
      · rcases List.mem_append.mp h with direct | derived
        · refine reads_of_mem_onEdge direct names.1 ?_
          rintro op' m same
          cases same
          exact names.2 m rfl
        · cases limit with
          | name m => cases derived
          | const value =>
              rcases List.mem_append.mp derived with source | summand
              · exact reads_of_mem_conversionFacts computed source names.1
              · exact reads_of_mem_rangeTestFacts computed summand names.1
      · cases h
  | truth n nonzero =>
      simp only [assertionsOf] at h
      split at h
      · exact reads_of_mem_onEdge h names (by simp)
      · cases h

theorem reads_of_mem_assertionsWithin {depth : Nat} {fact : Fact} {a : AssertLocus}
    (h : a ∈ f.assertionsWithin live edge depth fact) (names : fact.Names Q) :
    ∀ m ∈ a.reads, Q m := by
  induction depth generalizing fact with
  | zero => cases h
  | succ depth ih =>
      rcases List.mem_append.mp h with own | told
      · exact reads_of_mem_assertionsOf computed own names
      · obtain ⟨implied, himplied, told⟩ := List.mem_flatMap.mp told
        exact ih told (impliedFacts_names computed names implied himplied)

theorem castSources_have {fuel : Nat} {pointer : NameId} (name : Q pointer) :
    ∀ source ∈ chain f.castSource? fuel pointer, Q source := by
  induction fuel generalizing pointer with
  | zero => simp [chain]
  | succ fuel ih =>
      intro source hsource
      rw [chain] at hsource
      split at hsource
      · next following hcast =>
          obtain ⟨rhs, hdef, read⟩ := castSource?_read hcast
          have next_ : Q following := computed pointer rhs following name hdef read
          rcases List.mem_cons.mp hsource with rfl | hsource
          · exact next_
          · exact ih next_ source hsource
      · cases hsource

end Facts

theorem conditionOn?_sides {cond holds : Condition} {flags : EdgeFlags}
    (h : conditionOn? cond flags = some holds) : holds.lhs = cond.lhs ∧ holds.rhs = cond.rhs := by
  unfold conditionOn? at h
  split at h <;> cases h <;> exact ⟨rfl, rfl⟩

section Places

variable {f : Function} {P : BlockId → Nat → NameId → Prop} {live : Liveness} {block : BlockId}
  {a : AssertLocus} (reads : f.ReadsHave P)

include reads

theorem edgeAssertions_registered {id : EdgeId} {e : Edge} {b : Block} {fact : Fact}
    (he : f.edge? id = some e) (src : e.src = block) (normal : e.isAbnormal = false)
    (hb : f.block? block = some b) (names : fact.Names (P block b.stmts.length))
    (ha : a ∈ f.edgeAssertions live id fact) : f.Registered P a := by
  subst src
  unfold Registered
  rw [locus_of_mem_assertionsWithin ha]
  exact ⟨e, b, he, normal, hb,
    reads_of_mem_assertionsWithin (reads.computed e.src b.stmts.length) ha names⟩

theorem branchAssertions_registered {b : Block} {cond : Condition} {onTrue onFalse : BlockId}
    (hb : f.block? block = some b) (ht : b.terminator = .branch cond onTrue onFalse)
    (ha : a ∈ f.branchAssertions live block cond) : f.Registered P a := by
  have read : ∀ o, o = cond.lhs ∨ o = cond.rhs → ∀ m, o = .name m → P block b.stmts.length m := by
    rintro o side m rfl
    refine reads.terminator block b m hb ?_
    rw [ht]
    refine List.mem_filterMap.mpr ⟨.name m, ?_, rfl⟩
    rcases side with h | h <;> simp [Terminator.operands, h]
  unfold branchAssertions at ha
  split at ha
  · cases ha
  · obtain ⟨⟨e, id⟩, he, ha⟩ := List.mem_flatMap.mp ha
    dsimp only at ha
    split at ha
    · next conditions =>
        obtain ⟨src, normal, -⟩ := conditions
        split at ha
        · next holds hon =>
            obtain ⟨fact, hfact, ha⟩ := List.mem_flatMap.mp ha
            have sides := conditionOn?_sides hon
            refine edgeAssertions_registered reads (edge?_of_mem_zipIdx he) src
              (by simpa using normal) hb ?_ ha
            refine comparisonFacts_names ?_ ?_ fact hfact
            · exact read _ (.inl sides.1)
            · exact read _ (.inr sides.2)
        · cases ha
    · cases ha

theorem switchAssertions_registered {b : Block} {n : NameId} {cases : List SwitchCase}
    {default : BlockId} (hb : f.block? block = some b)
    (ht : b.terminator = .switch (.name n) cases default)
    (ha : a ∈ f.switchAssertions live block n cases default) : f.Registered P a := by
  have read : P block b.stmts.length n := by
    refine reads.terminator block b n hb ?_
    simp [ht, Terminator.usedNames, Terminator.operands, Operand.name?]
  unfold switchAssertions at ha
  split at ha
  · obtain ⟨⟨target, low, high⟩, -, ha⟩ := List.mem_flatMap.mp ha
    dsimp only at ha
    split at ha
    · next id hid =>
        obtain ⟨e, he, src, -⟩ := findEdge?_eq_some hid
        split at ha
        · cases ha
        · next normal =>
            obtain ⟨fact, hfact, ha⟩ := List.mem_flatMap.mp ha
            refine edgeAssertions_registered reads he src (by simpa [he] using normal) hb ?_ ha
            unfold hullFacts at hfact
            split at hfact
            · rw [List.mem_singleton.mp hfact]
              exact ⟨read, by simp⟩
            · rcases List.mem_cons.mp hfact with rfl | hfact
              · exact ⟨read, by simp⟩
              · rw [List.mem_singleton.mp hfact]
                exact ⟨read, by simp⟩
    · cases ha
  · cases ha

theorem dereferenceAssertions_registered {index : Nat} {stmt : Stmt} {pointer : NameId}
    (hstmt : f.stmtAt? block index = some stmt) (hderef : stmt.dereferenced? = some pointer)
    (ha : a ∈ f.dereferenceAssertions live block index pointer) : f.Registered P a := by
  have read : P block index pointer :=
    reads.stmt block index stmt pointer hstmt (mem_usedNames_of_dereferenced? hderef)
  unfold dereferenceAssertions at ha
  split at ha
  · split at ha
    · next locus hlocus =>
        obtain ⟨name, hname, rfl⟩ := List.mem_map.mp ha
        have read' : P block index name := by
          rcases List.mem_cons.mp hname with rfl | hname
          · exact read
          · exact castSources_have (reads.computed block index) read name
              (List.mem_filter.mp hname).1
        have only : ∀ m ∈ (⟨name, .compare .ne (.const 0), locus⟩ : AssertLocus).reads, m = name := by
          simp [AssertLocus.reads, Rhs.usedNames, Rhs.operands, Operand.name?]
        obtain ⟨b, hb, hi⟩ := stmtAt?_eq_some.mp hstmt
        simp only [locusAfter?, hb, Option.bind_some] at hlocus
        split at hlocus
        · cases hlocus
          exact ⟨⟨stmt, hstmt⟩, fun m hm => only m hm ▸ read'⟩
        · split at hlocus
          · next edge hedges =>
              cases hlocus
              have member : edge ∈ f.edgesWhere fun e => e.src == block && !e.isAbnormal := by
                rw [hedges]
                exact List.mem_singleton.mpr rfl
              obtain ⟨e, he, test⟩ := mem_edgesWhere.mp member
              simp only [Bool.and_eq_true, beq_iff_eq, Bool.not_eq_true'] at test
              obtain ⟨rfl, normal⟩ := test
              have inside : index ≤ b.stmts.length :=
                Nat.le_of_lt (List.getElem?_eq_some_iff.mp hi).1
              exact ⟨e, b, he, normal, hb, fun m hm =>
                only m hm ▸ reads.mono _ _ _ _ read' inside⟩
          · cases hlocus
    · cases ha
  · cases ha

/-- Every assertion that is found has a place, and its names have the property there. -/
theorem ReadsHave.registered {config : Config} (ha : a ∈ f.findAssertions config) :
    f.Registered P a := by
  obtain ⟨block, -, ha⟩ := List.mem_flatMap.mp (mem_requested_of_mem_findAssertions ha)
  unfold blockAssertions at ha
  split at ha
  · cases ha
  · next b hb =>
      rcases List.mem_append.mp ha with access | control
      · split at access
        · obtain ⟨⟨stmt, index⟩, hstmt, access⟩ := List.mem_flatMap.mp access
          dsimp only at access
          split at access
          · next pointer hderef =>
              have place : f.stmtAt? block index = some stmt :=
                stmtAt?_eq_some.mpr ⟨b, hb, by simpa using List.mem_zipIdx_iff_getElem?.mp hstmt⟩
              exact dereferenceAssertions_registered reads place hderef access
          · cases access
        · cases access
      · split at control
        · next ht => exact branchAssertions_registered reads hb ht control
        · next ht => exact switchAssertions_registered reads hb ht control
        · cases control

end Places

end Function

end RangeFlow
