import Mathlib.Data.List.Forall2
import RangeFlow.Program.Validate

/-! # What validation guarantees

`Function.validate` runs its checks one after the other and stops at the first fault. A function
that passes has the properties collected in `Function.Valid`: its targets exist, every name is
defined in one place, and every merge, statement and terminator passes its own check.
-/

namespace RangeFlow

/-- A sequence of checks passes exactly if both parts do. -/
theorem bind_eq_ok {α β : Type} {first : Except Error α} {next : α → Except Error β} {b : β} :
    (first >>= next) = .ok b ↔ ∃ a, first = .ok a ∧ next a = .ok b := by
  cases first with
  | error e => simp [bind, Except.bind]
  | ok a => simp [bind, Except.bind]

/-- A check on all members of a list passes exactly if it passes on each of them. -/
theorem forM_eq_ok {α : Type} {check : α → Except Error Unit} {l : List α} :
    l.forM check = .ok () ↔ ∀ x ∈ l, check x = .ok () := by
  induction l with
  | nil => simp [List.forM, pure, Except.pure]
  | cons a l ih =>
      have split : (a :: l).forM check = .ok () ↔ check a = .ok () ∧ l.forM check = .ok () := by
        rw [show (a :: l).forM check = (check a >>= fun _ => l.forM check) from rfl, bind_eq_ok]
        exact ⟨fun ⟨(), ha, hl⟩ => ⟨ha, hl⟩, fun ⟨ha, hl⟩ => ⟨(), ha, hl⟩⟩
      rw [split, ih, List.forall_mem_cons]

/-- A computation on all members of a list gives a result if it gives one for each of them. -/
theorem exists_mapM {α β : Type} {f : α → Option β} {P : α → β → Prop} {l : List α}
    (each : ∀ a ∈ l, ∃ b, f a = some b ∧ P a b) :
    ∃ bs, l.mapM f = some bs ∧ List.Forall₂ P l bs := by
  induction l with
  | nil => exact ⟨[], rfl, .nil⟩
  | cons a l ih =>
      obtain ⟨⟨b, found, hb⟩, later⟩ := List.forall_mem_cons.mp each
      obtain ⟨bs, run, hbs⟩ := ih later
      refine ⟨b :: bs, ?_, .cons hb hbs⟩
      rw [List.mapM_cons, found, run]
      rfl

/-- A check that raises a fault under a condition, and goes on otherwise, passes exactly if the
    condition fails and the rest passes. -/
theorem guard_bind_eq_ok {α : Type} {fault : Prop} [Decidable fault] {e : Error}
    {next : Unit → Except Error α} {a : α} :
    (if fault then (.error e >>= next) else next ()) = .ok a ↔ ¬ fault ∧ next () = .ok a := by
  by_cases h : fault <;> simp [h, bind, Except.bind]

/-- In a list of pairs with different first components, the first determines the second. -/
theorem eq_of_nodup_fst {α β : Type} {l : List (α × β)} (h : (l.map Prod.fst).Nodup) {a : α}
    {b c : β} (hb : (a, b) ∈ l) (hc : (a, c) ∈ l) : b = c := by
  induction l with
  | nil => cases hb
  | cons p l ih =>
      rw [List.map_cons, List.nodup_cons] at h
      rcases List.mem_cons.mp hb with rfl | hb'
      · rcases List.mem_cons.mp hc with hc' | hc'
        · exact (Prod.mk.inj hc').2.symm
        · exact absurd (List.mem_map_of_mem hc') h.1
      · rcases List.mem_cons.mp hc with rfl | hc'
        · exact absurd (List.mem_map_of_mem hb') h.1
        · exact ih h.2 hb' hc'

namespace Function

theorem mem_defaultNames {f : Function} {n : NameId} :
    n ∈ f.defaultNames ↔ ∃ info, f.names[n]? = some info ∧ info.origin.isDefault = true := by
  simp only [defaultNames, List.mem_filterMap, Prod.exists, List.mem_zipIdx_iff_getElem?,
    Option.ite_none_right_eq_some, Option.some.injEq]
  constructor
  · rintro ⟨info, m, found, isDefault, rfl⟩
    exact ⟨info, found, isDefault⟩
  · rintro ⟨info, found, isDefault⟩
    exact ⟨info, n, found, isDefault, rfl⟩

theorem lt_of_mem_defaultNames {f : Function} {n : NameId} (h : n ∈ f.defaultNames) :
    n < f.nameCount := by
  obtain ⟨info, found, -⟩ := mem_defaultNames.mp h
  exact (List.getElem?_eq_some_iff.mp found).1

/-- What holds of a function that validation accepts. -/
structure Valid (f : Function) : Prop where
  nonempty : f.blocks ≠ []
  targets : ∀ b ∈ f.blocks, ∀ t ∈ b.terminator.targets ++ b.abnormal, t < f.blockCount
  defsExist : ∀ n ∈ f.blocks.flatMap Block.defs, n < f.nameCount
  defsNodup : (f.blocks.flatMap Block.defs).Nodup
  /-- Names with a value before the entry block have no other definition. -/
  defsNew : ∀ n ∈ f.blocks.flatMap Block.defs, n ∉ f.defaultNames
  phis : ∀ id b, f.block? id = some b → ∀ phi ∈ b.phis, f.checkPhi id phi = .ok ()
  stmts : ∀ id b, f.block? id = some b → ∀ stmt ∈ b.stmts, f.checkStmt stmt = .ok ()
  terminators : ∀ id b, f.block? id = some b → f.checkTerminator b.terminator = .ok ()

/-- Collecting definitions succeeds only on names that exist, one definition each. -/
theorem foldlM_defineName {f : Function} {names start defined : List NameId}
    (h : names.foldlM f.defineName start = .ok defined) :
    (∀ n ∈ names, n < f.nameCount) ∧ names.Nodup ∧ ∀ n ∈ names, n ∉ start := by
  induction names generalizing start with
  | nil => simp
  | cons n names ih =>
      rw [List.foldlM_cons, bind_eq_ok] at h
      obtain ⟨next, hn, hrest⟩ := h
      unfold defineName at hn
      split at hn
      · cases hn
      · next hlt =>
          split at hn
          · cases hn
          · next hnew =>
              cases hn
              obtain ⟨exist, nodup, new⟩ := ih hrest
              refine ⟨?_, ?_, ?_⟩
              · intro m hm
                rcases List.mem_cons.mp hm with rfl | hm
                · exact Nat.lt_of_not_le hlt
                · exact exist m hm
              · exact List.nodup_cons.mpr ⟨fun hm => new n hm (by simp), nodup⟩
              · intro m hm hs
                rcases List.mem_cons.mp hm with rfl | hm
                · exact hnew (List.contains_iff_mem.mpr hs)
                · exact new m hm (List.mem_cons_of_mem _ hs)

/-- A member of a list with its position is found at that position. -/
theorem block?_of_mem_zipIdx {f : Function} {b : Block} {id : BlockId}
    (h : (b, id) ∈ f.blocks.zipIdx) : f.block? id = some b := by
  simpa [block?] using List.mem_zipIdx_iff_getElem?.mp h

/-- Every block is listed with its number. -/
theorem mem_zipIdx_of_block? {f : Function} {b : Block} {id : BlockId}
    (h : f.block? id = some b) : (b, id) ∈ f.blocks.zipIdx :=
  List.mem_zipIdx_iff_getElem?.mpr (by simpa [block?] using h)

/-- Validation accepts only functions that are well formed in every part. -/
theorem valid_of_validate {f : Function} (h : f.validate = .ok ()) : f.Valid := by
  unfold validate at h
  obtain ⟨hne, h⟩ := guard_bind_eq_ok.mp h
  obtain ⟨_, htargets, h⟩ := bind_eq_ok.mp h
  obtain ⟨defined, hdefs, h⟩ := bind_eq_ok.mp h
  obtain ⟨_, -, hblocks⟩ := bind_eq_ok.mp h
  obtain ⟨exist, nodup, new⟩ := foldlM_defineName hdefs
  have block : ∀ id b, f.block? id = some b → f.checkBlock id b = .ok () := by
    intro id b hb
    exact forM_eq_ok.mp hblocks (b, id) (mem_zipIdx_of_block? hb)
  refine ⟨fun he => hne (by simp [he]), ?_, exist, nodup, new, ?_, ?_, ?_⟩
  · intro b hb t ht
    have check := forM_eq_ok.mp (forM_eq_ok.mp htargets b hb) t ht
    split at check
    · assumption
    · cases check
  · intro id b hb phi hphi
    obtain ⟨_, hphis, -⟩ := bind_eq_ok.mp (block id b hb)
    exact forM_eq_ok.mp hphis phi hphi
  · intro id b hb stmt hstmt
    obtain ⟨_, -, hrest⟩ := bind_eq_ok.mp (block id b hb)
    obtain ⟨_, hstmts, -⟩ := bind_eq_ok.mp hrest
    exact forM_eq_ok.mp hstmts stmt hstmt
  · intro id b hb
    obtain ⟨_, -, hrest⟩ := bind_eq_ok.mp (block id b hb)
    obtain ⟨_, -, hterm⟩ := bind_eq_ok.mp hrest
    exact hterm

/-- Definitions of names that exist, one each, can be collected. -/
theorem foldlM_defineName_eq_ok {f : Function} {names start : List NameId}
    (exist : ∀ n ∈ names, n < f.nameCount) (nodup : names.Nodup) (new : ∀ n ∈ names, n ∉ start) :
    names.foldlM f.defineName start = .ok (names.reverse ++ start) := by
  induction names generalizing start with
  | nil => rfl
  | cons n names ih =>
      obtain ⟨fresh, nodup⟩ := List.nodup_cons.mp nodup
      have first : f.defineName start n = .ok (n :: start) := by
        rw [defineName, if_neg (Nat.not_le.mpr (exist n (List.mem_cons_self ..))), if_neg]
        exact fun known => new n (List.mem_cons_self ..) (List.contains_iff_mem.mp known)
      have rest : names.foldlM f.defineName (n :: start) = .ok (names.reverse ++ n :: start) := by
        refine ih (fun m hm => exist m (List.mem_cons_of_mem _ hm)) nodup fun m hm known => ?_
        rcases List.mem_cons.mp known with rfl | known
        · exact fresh hm
        · exact new m (List.mem_cons_of_mem _ hm) known
      rw [List.foldlM_cons, first, List.reverse_cons, List.append_assoc]
      exact rest

/-- A function that is well formed in every part passes validation, if every name that is read has a
    definition. -/
theorem Valid.validate_eq_ok {f : Function} (hf : f.Valid)
    (defined : ∀ n, f.uses n ≠ [] → n ∈ f.defaultNames ∨ n ∈ f.blocks.flatMap Block.defs) :
    f.validate = .ok () := by
  unfold validate
  refine guard_bind_eq_ok.mpr ⟨by simpa using hf.nonempty, bind_eq_ok.mpr ⟨(), ?_, ?_⟩⟩
  · refine forM_eq_ok.mpr fun b hb => forM_eq_ok.mpr fun t ht => ?_
    rw [if_pos (hf.targets b hb t ht)]
  · have collected := foldlM_defineName_eq_ok hf.defsExist hf.defsNodup hf.defsNew
    refine bind_eq_ok.mpr ⟨_, collected, bind_eq_ok.mpr ⟨(), forM_eq_ok.mpr fun n _ => ?_, ?_⟩⟩
    · split
      · rfl
      · next undefined =>
          refine absurd ?_ undefined
          by_cases unread : f.uses n = []
          · simp [unread]
          · have known := defined n unread
            simp only [Bool.or_eq_true, List.contains_iff_mem, List.mem_append, List.mem_reverse]
            exact .inr known.symm
    · refine forM_eq_ok.mpr fun p hp => ?_
      have hb := block?_of_mem_zipIdx hp
      refine bind_eq_ok.mpr ⟨(), forM_eq_ok.mpr (hf.phis p.2 p.1 hb), ?_⟩
      refine bind_eq_ok.mpr ⟨(), forM_eq_ok.mpr (hf.stmts p.2 p.1 hb), ?_⟩
      exact hf.terminators p.2 p.1 hb

end Function

end RangeFlow
