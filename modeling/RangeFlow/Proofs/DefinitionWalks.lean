import Mathlib.Data.Finset.Card
import Mathlib.Logic.Relation
import RangeFlow.Proofs.Stripping

/-! # Walks along definitions end

Three walks go from a name to names that its definition reads: from a pointer to the pointer it is
converted from, from a fact about a name to facts about its operands, and from an assertion to its
subject. Where every use is dominated by its definition no name is computed from itself, so that a
walk never comes back to a name and is no longer than there are names. Validation does not ask for
dominated uses. A name that reads itself passes it, and the walks from it do not end.
-/

namespace RangeFlow

/-- Every walk from a place ends, after at most so many places. -/
def EndsWithin {α : Type} (next : α → List α) : Nat → α → Prop
  | 0, _ => False
  | depth + 1, a => ∀ b ∈ next a, EndsWithin next depth b

instance {α : Type} (next : α → List α) : ∀ depth a, Decidable (EndsWithin next depth a)
  | 0, _ => .isFalse id
  | depth + 1, a =>
      have : ∀ b, Decidable (EndsWithin next depth b) := instDecidableEndsWithin next depth
      inferInstanceAs (Decidable (∀ b ∈ next a, EndsWithin next depth b))

section Walks

variable {α : Type} {next : α → List α} {P : α → Prop} {depth : Nat} {a : α}

/-- A walk along which a number decreases ends when the number is used up. -/
theorem endsWithin_of_measure {measure : α → Nat}
    (step : ∀ a, P a → ∀ b ∈ next a, P b ∧ measure b < measure a) (h : P a)
    (less : measure a < depth) : EndsWithin next depth a := by
  induction depth generalizing a with
  | zero => omega
  | succ depth ih =>
      intro b hb
      obtain ⟨hP, smaller⟩ := step a h b hb
      exact ih hP (by omega)

theorem EndsWithin.mono {more : Nat} (ends : EndsWithin next depth a) (enough : depth ≤ more) :
    EndsWithin next more a := by
  induction depth generalizing a more with
  | zero => exact ends.elim
  | succ depth ih =>
      cases more with
      | zero => omega
      | succ more => exact fun b hb => ih (ends b hb) (by omega)

theorem not_endsWithin_of_loop (loop : a ∈ next a) : ¬ EndsWithin next depth a := by
  induction depth with
  | zero => exact id
  | succ depth ih => exact fun ends => ih (ends a loop)

/-- A chain that ends is not cut short by the number of names it may meet. -/
theorem chain_eq_of_endsWithin {next : NameId → Option NameId} {fuel more : Nat} {n : NameId}
    (ends : EndsWithin (fun m => (next m).toList) (fuel + 1) n) (enough : fuel ≤ more) :
    chain next more n = chain next fuel n := by
  induction fuel generalizing n more with
  | zero =>
      cases more with
      | zero => rfl
      | succ more =>
          simp only [chain]
          split
          · next m found => exact (ends m (by simp [found])).elim
          · rfl
  | succ fuel ih =>
      cases more with
      | zero => omega
      | succ more =>
          simp only [chain]
          split
          · next m found => rw [ih (ends m (by simp [found])) (by omega)]
          · rfl

end Walks

namespace Function

variable {f : Function} {n m : NameId} {block : BlockId} {index : Nat}

/-- Facts whose walk ends are followed to the end at every greater depth. -/
theorem assertionsWithin_eq_of_endsWithin {live : Liveness} {edge : EdgeId} {fact : Fact}
    {depth more : Nat} (ends : EndsWithin f.impliedFacts depth fact) (enough : depth ≤ more) :
    f.assertionsWithin live edge more fact = f.assertionsWithin live edge depth fact := by
  induction depth generalizing fact more with
  | zero => exact ends.elim
  | succ depth ih =>
      cases more with
      | zero => omega
      | succ more =>
          have same : ∀ told ∈ f.impliedFacts fact, f.assertionsWithin live edge more told =
              f.assertionsWithin live edge depth told :=
            fun told htold => ih (ends told htold) (by omega)
          rw [assertionsWithin, assertionsWithin, List.flatMap_congr same]

/-- The definition of the first name reads the second. -/
def ReadFor (f : Function) (n m : NameId) : Prop :=
  ∃ rhs, f.defRhs? n = some rhs ∧ m ∈ rhs.usedNames

/-- The name is set somewhere that can be reached. -/
def SetInReach (f : Function) (n : NameId) : Prop :=
  ∃ block index, f.Reachable block ∧ f.Dominated n block index

open Relation (TransGen)

theorem UsesDominated.dominated_of_transGen (uses : f.UsesDominated)
    (set : f.Dominated n block index) (computed : TransGen f.ReadFor n m) :
    f.Dominated m block index := by
  induction computed with
  | single read =>
      obtain ⟨rhs, hdef, hm⟩ := read
      exact uses.readsHave.computed block index n rhs _ set hdef hm
  | tail _ read ih =>
      obtain ⟨rhs, hdef, hm⟩ := read
      exact uses.readsHave.computed block index _ rhs _ ih hdef hm

theorem UsesDominated.setInReach (uses : f.UsesDominated) (set : f.SetInReach n)
    (read : f.ReadFor n m) : f.SetInReach m := by
  obtain ⟨block, index, reachable, dominated⟩ := set
  exact ⟨block, index, reachable, uses.dominated_of_transGen dominated (.single read)⟩

/-- A name that is set somewhere in reach is not computed from itself: on the way to its definition
    the definition would have been passed before. -/
theorem UsesDominated.acyclic (uses : f.UsesDominated) (set : f.SetInReach n) :
    ¬ TransGen f.ReadFor n n := by
  intro computed
  obtain ⟨first, ⟨rhs, hdef, read⟩, rest⟩ := TransGen.head'_iff.mp computed
  obtain ⟨d, i, hsite, hstmt⟩ := stmtAt?_of_defRhs? hdef
  -- the name would have to be set in front of the statement that sets it
  have before : f.Dominated n d i := by
    have operand : f.Dominated first d i := uses.stmt d i _ first hstmt read
    rcases Relation.reflTransGen_iff_eq_or_transGen.mp rest with rfl | further
    · exact operand
    · exact uses.dominated_of_transGen operand further
  have reachable : f.Reachable d := by
    obtain ⟨block, index, ⟨passed, way⟩, site, hsite', dominates⟩ := set
    cases hsite.symm.trans hsite'
    rcases dominates d (i + 1) rfl passed way with ⟨rfl, -⟩ | member
    · exact ⟨passed, way⟩
    · obtain ⟨earlier, shorter, -⟩ := way.to_passed member
      exact ⟨earlier, shorter⟩
  obtain ⟨passed, way, simple⟩ := reachable.simple
  obtain ⟨site, hsite', dominates⟩ := before
  cases hsite.symm.trans hsite'
  rcases dominates d (i + 1) rfl passed way with ⟨-, late⟩ | member
  · omega
  · exact simple member

open Classical in
/-- How many of the given names a name is computed from. -/
noncomputable def sourcesAmong (f : Function) (names : Finset NameId) (n : NameId) : Nat :=
  (names.filter (TransGen f.ReadFor n)).card

theorem sourcesAmong_lt {names : Finset NameId} (acyclic : ¬ TransGen f.ReadFor m m)
    (read : f.ReadFor n m) (hm : m ∈ names) : f.sourcesAmong names m < f.sourcesAmong names n := by
  classical
  refine Finset.card_lt_card (Finset.ssubset_iff_of_subset ?_ |>.mpr ⟨m, ?_, ?_⟩)
  · exact Finset.monotone_filter_right _ fun _ _ computed => .head read computed
  · exact Finset.mem_filter.mpr ⟨hm, .single read⟩
  · exact fun member => acyclic (Finset.mem_filter.mp member).2

theorem sourcesAmong_lt_card {names : Finset NameId} (acyclic : ¬ TransGen f.ReadFor n n)
    (hn : n ∈ names) : f.sourcesAmong names n < names.card := by
  classical
  exact Finset.card_lt_card (Finset.filter_ssubset.mpr ⟨n, hn, acyclic⟩)

section Named

variable {α : Type} {next : α → List α} {key : α → NameId} {a : α}
  (reads : ∀ a, ∀ b ∈ next a, f.ReadFor (key a) (key b))

include reads

/-- A walk that goes from names to names they read is no longer than there are names. -/
theorem Valid.endsWithin_nameCount (hf : f.Valid) (uses : f.UsesDominated)
    (set : f.SetInReach (key a)) (known : key a < f.nameCount) :
    EndsWithin next f.nameCount a := by
  refine @endsWithin_of_measure α next (fun a => f.SetInReach (key a)) _ _
    (fun a => f.sourcesAmong (Finset.range f.nameCount) (key a)) ?_ set ?_
  · intro a set b hb
    have read := reads a b hb
    have inReach := uses.setInReach set read
    obtain ⟨rhs, hdef, hm⟩ := read
    obtain ⟨_, _, -, hstmt⟩ := stmtAt?_of_defRhs? hdef
    have exists_ : key b < f.nameCount := hf.stmt_usedNames_lt hstmt hm
    exact ⟨inReach, sourcesAmong_lt (uses.acyclic inReach) (reads a b hb)
      (Finset.mem_range.mpr exists_)⟩
  · have fewer := sourcesAmong_lt_card (uses.acyclic set) (Finset.mem_range.mpr known)
    rwa [Finset.card_range] at fewer

/-- It takes no more steps than there are names from which it goes on. -/
theorem UsesDominated.endsWithin_card (uses : f.UsesDominated) {names : Finset NameId}
    (inside : ∀ a, ∀ b ∈ next a, key a ∈ names) (set : f.SetInReach (key a)) :
    EndsWithin next (names.card + 1) a := by
  classical
  refine @endsWithin_of_measure α next (fun a => f.SetInReach (key a)) _ _
    (fun a => if key a ∈ names then f.sourcesAmong names (key a) + 1 else 0) ?_ set ?_
  · intro a set b hb
    have inReach := uses.setInReach set (reads a b hb)
    refine ⟨inReach, ?_⟩
    rw [if_pos (inside a b hb)]
    split
    · next hb' =>
        have fewer := sourcesAmong_lt (uses.acyclic inReach) (reads a b hb) hb'
        omega
    · omega
  · split
    · next ha =>
        have fewer := sourcesAmong_lt_card (uses.acyclic set) ha
        omega
    · omega

end Named

/-- The blocks that are visited are those that can be reached. -/
theorem Valid.mem_reversePostorder (hf : f.Valid) :
    block ∈ f.reversePostorder ↔ f.Reachable block := by
  rw [← hf.way_nil_iff, ← Graph.mem_postorder]
  exact List.mem_reverse

/-- A statement that is reached sets its name. -/
theorem Valid.setInReach_dest (hf : f.Valid) {stmt : Stmt} (reachable : f.Reachable block)
    (hstmt : f.stmtAt? block index = some stmt) (hn : stmt.dest? = some n) : f.SetInReach n := by
  refine ⟨block, index + 1, reachable, _, hf.defSite?_stmt hstmt hn, ?_⟩
  intro d k place passed way
  cases place
  exact .inl ⟨rfl, Nat.le_refl _⟩

/-- An assertion that is looked up is the definition of its name. -/
theorem Valid.defRhs?_of_lookup (hf : f.Valid) (h : f.assertionSubjects.lookup n = some m) :
    ∃ block index predicate, f.stmtAt? block index = some (.assign n (.assert m predicate)) ∧
      f.defRhs? n = some (.assert m predicate) := by
  obtain ⟨before, after, listed, -⟩ := List.lookup_eq_some_iff.mp h
  have member : (n, m) ∈ f.assertionSubjects := by
    rw [listed]
    exact List.mem_append_right _ (List.mem_cons_self ..)
  obtain ⟨block, index, predicate, hstmt⟩ := mem_assertionSubjects.mp member
  refine ⟨block, index, predicate, hstmt, ?_⟩
  rw [defRhs?, defStmt?, hf.defSite?_stmt hstmt rfl]
  exact congrArg (Option.bind · Stmt.rhs?) hstmt

theorem Valid.readFor_of_lookup (hf : f.Valid) (h : f.assertionSubjects.lookup n = some m) :
    f.ReadFor n m := by
  obtain ⟨_, _, predicate, -, hdef⟩ := hf.defRhs?_of_lookup h
  exact ⟨_, hdef, List.mem_cons_self ..⟩

section Walks

variable (hf : f.Valid) (uses : f.UsesDominated)

include hf uses

theorem castSources_end {stmt : Stmt} {pointer : NameId} (reachable : f.Reachable block)
    (hstmt : f.stmtAt? block index = some stmt) (hpointer : stmt.dereferenced? = some pointer) :
    EndsWithin (fun n => (f.castSource? n).toList) f.nameCount pointer := by
  have used := mem_usedNames_of_dereferenced? hpointer
  have set : f.SetInReach pointer :=
    ⟨block, index, reachable, uses.stmt block index stmt pointer hstmt used⟩
  refine @Valid.endsWithin_nameCount f _ _ id _ ?_ hf uses set (hf.stmt_usedNames_lt hstmt used)
  exact fun n m hm => castSource?_read (Option.mem_toList.mp hm)

theorem impliedFacts_end {b : Block} {fact : Fact} (reachable : f.Reachable block)
    (hb : f.block? block = some b) (hfact : fact.name ∈ b.terminator.usedNames) :
    EndsWithin f.impliedFacts f.nameCount fact := by
  have set : f.SetInReach fact.name :=
    ⟨block, _, reachable, uses.terminator block b fact.name hb hfact⟩
  refine hf.endsWithin_nameCount ?_ uses set (hf.terminator_usedNames_lt hb hfact)
  intro fact told htold
  obtain ⟨rhs, hdef, read⟩ := impliedFacts_read htold
  exact ⟨rhs, hdef, read.name⟩

/-- Subjects are followed through as many assertions as there are at most. -/
theorem assertionSubjects_end (asserted : ∀ block index dest subject predicate,
      f.stmtAt? block index = some (.assign dest (.assert subject predicate)) → f.Reachable block)
    (known : n < f.nameCount) :
    EndsWithin (fun m => (f.assertionSubjects.lookup m).toList) f.nameCount n ∧
      EndsWithin (fun m => (f.assertionSubjects.lookup m).toList)
        (f.assertionSubjects.length + 1) n := by
  cases subject : f.assertionSubjects.lookup n with
  | none =>
      have stops : EndsWithin (fun m => (f.assertionSubjects.lookup m).toList) 1 n := by
        intro m hm
        simp [subject] at hm
      exact ⟨stops.mono (Nat.zero_lt_of_lt known), stops.mono (Nat.succ_pos _)⟩
  | some m =>
      obtain ⟨block, index, predicate, hstmt, -⟩ := hf.defRhs?_of_lookup subject
      have set := hf.setInReach_dest (asserted _ _ _ _ _ hstmt) hstmt rfl
      have reads : ∀ n, ∀ m ∈ (f.assertionSubjects.lookup n).toList, f.ReadFor (id n) (id m) :=
        fun n m hm => hf.readFor_of_lookup (Option.mem_toList.mp hm)
      have inside : ∀ n, ∀ m ∈ (f.assertionSubjects.lookup n).toList,
          id n ∈ (f.assertionSubjects.map Prod.fst).toFinset := by
        intro n m hm
        obtain ⟨before, after, listed, -⟩ := List.lookup_eq_some_iff.mp (Option.mem_toList.mp hm)
        rw [listed]
        simp
      have few : (f.assertionSubjects.map Prod.fst).toFinset.card ≤ f.assertionSubjects.length := by
        simpa using List.toFinset_card_le (f.assertionSubjects.map Prod.fst)
      exact ⟨hf.endsWithin_nameCount reads uses set known,
        (uses.endsWithin_card reads inside set).mono (Nat.succ_le_succ few)⟩

end Walks

/-- The walks along definitions of a function with dominated uses end, each after at most as many
    names as there are: from a pointer that is read or written through, from a fact about a name
    that a branch or switch reads, and from any name through assertions in blocks that are visited.
    None of them is cut short. -/
theorem definition_walks_end {f : Function} (valid : f.validate = .ok ()) (uses : f.UsesDominated) :
    (∀ block ∈ f.reversePostorder, ∀ index stmt pointer, f.stmtAt? block index = some stmt →
      stmt.dereferenced? = some pointer →
        EndsWithin (fun n => (f.castSource? n).toList) f.nameCount pointer ∧
        ∀ more, f.nameCount ≤ more → chain f.castSource? more pointer = f.castSources pointer) ∧
    (∀ block ∈ f.reversePostorder, ∀ b, f.block? block = some b →
      ∀ fact : Fact, fact.name ∈ b.terminator.usedNames →
        EndsWithin f.impliedFacts f.nameCount fact ∧
        ∀ live edge more, f.nameCount ≤ more →
          f.assertionsWithin live edge more fact = f.edgeAssertions live edge fact) ∧
    ((∀ block index dest subject predicate,
        f.stmtAt? block index = some (.assign dest (.assert subject predicate)) →
          block ∈ f.reversePostorder) →
      ∀ n < f.nameCount,
        EndsWithin (fun m => (f.assertionSubjects.lookup m).toList) f.nameCount n ∧
        ∀ more, f.assertionSubjects.length ≤ more →
          chainEnd (f.assertionSubjects.lookup ·) more n =
            assertionRoot f.assertionSubjects n) := by
  have hf := valid_of_validate valid
  refine ⟨?_, ?_, ?_⟩
  · intro block visited index stmt pointer hstmt hpointer
    have ends := castSources_end hf uses (hf.mem_reversePostorder.mp visited) hstmt hpointer
    exact ⟨ends, fun more enough => chain_eq_of_endsWithin (ends.mono (Nat.le_succ _)) enough⟩
  · intro block visited b hb fact hfact
    have ends := impliedFacts_end hf uses (hf.mem_reversePostorder.mp visited) hb hfact
    have deep : f.nameCount ≤ f.factDepth := by
      unfold factDepth
      omega
    refine ⟨ends, fun live edge more enough => ?_⟩
    rw [edgeAssertions, assertionsWithin_eq_of_endsWithin ends enough,
      assertionsWithin_eq_of_endsWithin ends deep]
  · intro asserted n known
    obtain ⟨ends, within⟩ := assertionSubjects_end hf uses
      (fun _ _ _ _ _ hstmt => hf.mem_reversePostorder.mp (asserted _ _ _ _ _ hstmt)) known
    refine ⟨ends, fun more enough => ?_⟩
    rw [assertionRoot, chainEnd, chainEnd, chain_eq_of_endsWithin within enough]

end Function

/-- Reads through a converted pointer, and asserts what it has read where its negation is true. -/
def guardedLoad : Function where
  name := "guarded"
  names :=
    [ ⟨.ptr, .param 0 false⟩, ⟨.ptr, .defined⟩, ⟨.bool, .defined⟩, ⟨.bool, .defined⟩,
      ⟨.bool, .defined⟩ ]
  blocks :=
    [ ⟨[], [.assign 1 (.unary .convert (.name 0)), .assign 2 (.load (.name 1)),
        .assign 3 (.unary .truthNot (.name 2))], .branch ⟨.ne, .name 3, .const 0⟩ 1 2, [], false⟩,
      ⟨[], [.assign 4 (.assert 2 (.compare .eq (.const 0)))], .return (some (.name 4)), [], false⟩,
      .ofTerminator (.return none) ]

theorem guardedLoad_usesDominated : guardedLoad.UsesDominated :=
  Function.usesDominated_of_above [[], [0], [0]] (by decide) (by decide)

/-- With any number of further steps the pointer is converted from `_0`, and the assertion is about
    `_2`. -/
theorem Function.definition_walks_end_guardedLoad :
    (∀ more, 5 ≤ more → chain guardedLoad.castSource? more 1 = [0]) ∧
    EndsWithin guardedLoad.impliedFacts 5 (.compare 3 .ne (.const 0)) ∧
    ∀ more, 1 ≤ more → chainEnd (guardedLoad.assertionSubjects.lookup ·) more 4 = 2 := by
  have valid : guardedLoad.validate = .ok () := rfl
  have visited : ∀ {block}, guardedLoad.Reachable block → block ∈ guardedLoad.reversePostorder :=
    (valid_of_validate valid).mem_reversePostorder.mpr
  have entry : guardedLoad.Reachable 0 := ⟨[], .entry⟩
  have low : guardedLoad.Reachable 1 := ⟨[0], .step .entry rfl (by decide)⟩
  obtain ⟨pointer, facts, subjects⟩ := definition_walks_end valid guardedLoad_usesDominated
  refine ⟨?_, ?_, ?_⟩
  · exact (pointer 0 (visited entry) 1 _ 1 rfl rfl).2
  · exact (facts 0 (visited entry) _ rfl (.compare 3 .ne (.const 0)) (by decide)).1
  · refine (subjects ?_ 4 (by decide)).2
    intro block index dest subject predicate hstmt
    match block with
    | 0 => exact visited entry
    | 1 => exact visited low
    | 2 => simp [stmtAt?, guardedLoad, block?, Block.ofTerminator] at hstmt
    | block + 3 => simp [stmtAt?, guardedLoad, block?] at hstmt

/-- Two truth values that are computed from each other. -/
def mutualTruths : Function where
  name := "mutual"
  names := [⟨.bool, .defined⟩, ⟨.bool, .defined⟩]
  blocks :=
    [ ⟨[], [.assign 0 (.unary .truthNot (.name 1)),
        .assign 1 (.binary .bitAnd (.name 0) (.name 0))], .branch ⟨.eq, .name 0, .const 0⟩ 1 2, [],
        false⟩,
      .ofTerminator (.branch ⟨.eq, .name 0, .name 1⟩ 2 3),
      .ofTerminator (.return none),
      .ofTerminator (.return none) ]

/-- A pointer, a truth value and an assertion that each read themselves. -/
def selfReading : Function where
  name := "self"
  names := [⟨.ptr, .defined⟩, ⟨.bool, .defined⟩, ⟨.bool, .defined⟩]
  blocks :=
    [ ⟨[], [.assign 0 (.unary .convert (.name 0)), .assign 1 (.copy (.name 1)),
        .assign 2 (.assert 2 (.compare .ne (.const 0))), .store (.name 0) (.const 0),
        .store (.name 0) (.const 1)], .branch ⟨.ne, .name 1, .const 0⟩ 1 2, [], false⟩,
      .ofTerminator (.return (some (.name 2))),
      .ofTerminator (.return none) ]

/-- Without dominated uses the walks are not bounded. That `_0` is zero is followed through four
    facts where there are two names, and to the contrary fact. Names that read themselves are
    followed without end. -/
theorem Function.definition_walks_unbounded :
    (mutualTruths.validate = .ok () ∧ 0 ∈ mutualTruths.reversePostorder ∧
      mutualTruths.nameCount = 2 ∧
      EndsWithin mutualTruths.impliedFacts 4 (.compare 0 .eq (.const 0)) ∧
      ¬ EndsWithin mutualTruths.impliedFacts mutualTruths.nameCount (.compare 0 .eq (.const 0))) ∧
    selfReading.validate = .ok () ∧ 0 ∈ selfReading.reversePostorder ∧
      selfReading.wantsNonnull selfReading.liveness 0 3 0 = true ∧
      (∀ depth, ¬ EndsWithin (fun n => (selfReading.castSource? n).toList) depth 0) ∧
      (∀ depth, ¬ EndsWithin selfReading.impliedFacts depth (.compare 1 .ne (.const 0))) ∧
      ∀ depth, ¬ EndsWithin (fun n => (selfReading.assertionSubjects.lookup n).toList) depth 2 := by
  have visited : ∀ {f : Function}, f.validate = .ok () → f.entry = 0 → 0 ∈ f.reversePostorder := by
    intro f valid entry
    exact (valid_of_validate valid).mem_reversePostorder.mpr ⟨[], entry ▸ .entry⟩
  refine ⟨⟨rfl, visited rfl rfl, rfl, by decide, by decide⟩, rfl, visited rfl rfl, by decide, ?_, ?_,
    ?_⟩
  · exact fun depth => not_endsWithin_of_loop (by decide)
  · intro depth ends
    have told : .truth 1 true ∈ selfReading.impliedFacts (.compare 1 .ne (.const 0)) := by decide
    have loop : .truth 1 true ∈ selfReading.impliedFacts (.truth 1 true) := by decide
    cases depth with
    | zero => exact ends
    | succ depth => exact not_endsWithin_of_loop loop (ends _ told)
  · exact fun depth => not_endsWithin_of_loop (by decide)

end RangeFlow
