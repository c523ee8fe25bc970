import Mathlib.Data.Finset.Sort
import Mathlib.Logic.Function.Basic
import RangeFlow.BitSet
import RangeFlow.IdSet

/-! # Bit sets are finite sets

The bits of the words are the members. The lowest set bit of a word is its first member, and
without it the others are left, so the members are listed in ascending order, each once. Sets that
are put together by the same calls as finite sets have the same members and give the same answers,
and since no bit beyond the capacity is ever set, they are equal if their members are.
-/

namespace RangeFlow

namespace Word

variable {w : Word} {k : Nat}

/-- Up to its lowest set bit, a word that is not zero is a power of two. -/
theorem toNat_eq_ctz (h : w ≠ 0) :
    w.toNat = 2 ^ (w.ctz.toNat + 1) * (w.toNat / 2 ^ (w.ctz.toNat + 1)) + 2 ^ w.ctz.toNat := by
  have low : w.toNat % 2 ^ (w.ctz.toNat + 1) = 2 ^ w.ctz.toNat := by
    apply Nat.eq_of_testBit_eq
    intro j
    rw [Nat.testBit_mod_two_pow, Nat.testBit_two_pow]
    rcases Nat.lt_trichotomy j w.ctz.toNat with below | rfl | above
    · have clear : w.toNat.testBit j = false := BitVec.getLsbD_false_of_lt_ctz below
      simp [clear, Nat.ne_of_gt below]
    · have set : w.toNat.testBit w.ctz.toNat = true := BitVec.getLsbD_true_ctz_of_ne_zero h
      simp [set]
    · have outside : ¬ j < w.ctz.toNat + 1 := by omega
      simp [outside, Nat.ne_of_lt above]
  rw [← low]
  exact (Nat.div_add_mod ..).symm

/-- Taking one away and keeping the common bits clears the lowest set bit and no other. -/
theorem getLsbD_and_sub_one (h : w ≠ 0) :
    (w &&& (w - 1)).getLsbD k = (w.getLsbD k && decide (k ≠ w.ctz.toNat)) := by
  have positive : 0 < w.toNat := Nat.pos_of_ne_zero fun zero => h (BitVec.eq_of_toNat_eq zero)
  have one : (1 : Word) ≤ w := BitVec.le_def.mpr positive
  have parts := toNat_eq_ctz h
  generalize w.ctz.toNat = t at parts ⊢
  generalize w.toNat / 2 ^ (t + 1) = rest at parts
  have less : (w - 1).toNat = 2 ^ (t + 1) * rest + (2 ^ t - 1) := by
    have power := Nat.two_pow_pos t
    have sub : (w - 1).toNat = w.toNat - 1 := BitVec.toNat_sub_of_le one
    omega
  have wider : 2 ^ t < 2 ^ (t + 1) := Nat.pow_lt_pow_right (by decide) (Nat.lt_succ_self t)
  have bit : w.getLsbD k = if k < t + 1 then decide (t = k) else rest.testBit (k - (t + 1)) := by
    rw [BitVec.getLsbD, parts, Nat.testBit_two_pow_mul_add _ wider, Nat.testBit_two_pow]
  have bitLess : (w - 1).getLsbD k =
      if k < t + 1 then decide (k < t) else rest.testBit (k - (t + 1)) := by
    rw [BitVec.getLsbD, less, Nat.testBit_two_pow_mul_add _ (by omega), Nat.testBit_two_pow_sub_one]
  rw [BitVec.getLsbD_and, bit, bitLess]
  rcases Nat.lt_trichotomy k t with below | rfl | above
  · simp [below, Nat.lt_succ_of_lt below, Nat.ne_of_gt below]
  · simp
  · simp [Nat.not_lt.mpr above, Nat.ne_of_gt above]

theorem mem_ones : k ∈ w.ones ↔ w.getLsbD k = true := by
  fun_induction ones w with
  | case1 => simp
  | case2 w h ih =>
      rw [List.mem_cons, ih, getLsbD_and_sub_one h]
      by_cases lowest : k = w.ctz.toNat
      · simp [lowest, BitVec.getLsbD_true_ctz_of_ne_zero h]
      · simp [lowest]

theorem pairwise_ones (w : Word) : w.ones.Pairwise (· < ·) := by
  fun_induction ones w with
  | case1 => exact .nil
  | case2 w h ih =>
      refine List.pairwise_cons.mpr ⟨fun k member => ?_, ih⟩
      rw [mem_ones, getLsbD_and_sub_one h, Bool.and_eq_true, decide_eq_true_eq] at member
      refine Nat.lt_of_le_of_ne (Nat.le_of_not_lt fun below => ?_) member.2.symm
      rw [BitVec.getLsbD_false_of_lt_ctz below] at member
      exact absurd member.1 Bool.false_ne_true

theorem lt_of_mem_ones (h : k ∈ w.ones) : k < 64 := BitVec.lt_of_getLsbD (mem_ones.mp h)

/-- There are as many set bits as are listed. -/
theorem length_ones (w : Word) : w.ones.length = w.cpop.toNat := by
  have counted : ∀ n start, w.cpopNatRec n start =
      start + ((List.range n).filter w.getLsbD).length := by
    intro n
    induction n with
    | zero => simp
    | succ n ih =>
        intro start
        rw [BitVec.cpopNatRec_succ, ih, List.range_succ, List.filter_append, List.length_append]
        cases bit : w.getLsbD n <;> simp [bit, Nat.add_assoc, Nat.add_comm]
  have listed : w.ones = (List.range 64).filter w.getLsbD := by
    refine IdSet.list_eq_of_mem_iff (pairwise_ones w) (List.pairwise_lt_range.filter _) ?_
    intro k
    rw [mem_ones, List.mem_filter, List.mem_range]
    exact ⟨fun set => ⟨BitVec.lt_of_getLsbD set, set⟩, And.right⟩
  rw [listed, BitVec.toNat_cpop, counted, Nat.zero_add]

end Word

namespace BitSet

variable {s t : BitSet} {i j k : Nat}

theorem lt_capacity (h : s.contains i = true) : i < s.capacity := by
  rw [contains, Bool.and_eq_true] at h
  exact of_decide_eq_true h.1

theorem mem_toList : k ∈ s.toList ↔ s.contains k = true := by
  simp only [toList, List.mem_flatMap, List.mem_map, Prod.exists, List.mem_zipIdx_iff_getElem?,
    Word.mem_ones, Array.getElem?_toList, contains_eq_bitAt, bitAt, Array.getD_eq_getD_getElem?]
  constructor
  · rintro ⟨w, place, found, bit, set, rfl⟩
    have inside := BitVec.lt_of_getLsbD set
    have word : (place * 64 + bit) / 64 = place := by omega
    have rest : (place * 64 + bit) % 64 = bit := by omega
    rw [word, rest, found]
    exact set
  · intro set
    cases found : s.words[k / 64]? with
    | none => simp [found] at set
    | some w =>
        rw [found] at set
        exact ⟨w, k / 64, found, k % 64, set, by omega⟩

theorem pairwise_toList (s : BitSet) : s.toList.Pairwise (· < ·) := by
  rw [toList, List.pairwise_flatMap]
  constructor
  · rintro ⟨w, place⟩ -
    rw [List.pairwise_map]
    exact (Word.pairwise_ones w).imp fun less => Nat.add_lt_add_left less _
  · have places : s.words.toList.zipIdx.Pairwise fun p q => p.2 < q.2 := by
      have ascending : (s.words.toList.zipIdx.map Prod.snd).Pairwise (· < ·) := by
        rw [List.zipIdx_map_snd]
        exact List.pairwise_lt_range'
      exact List.pairwise_map.mp ascending
    refine places.imp ?_
    rintro ⟨v, p⟩ ⟨w, q⟩ less a ha b hb
    obtain ⟨x, hx, rfl⟩ := List.mem_map.mp ha
    obtain ⟨y, hy, rfl⟩ := List.mem_map.mp hb
    have := Word.lt_of_mem_ones hx
    simp only at less ⊢
    omega

/-- Counting word by word gives the number of the bits that are listed word by word. -/
theorem foldl_cpop (words : List Word) (total first : Nat) :
    words.foldl (fun total w => total + w.cpop.toNat) total = total +
      ((words.zipIdx first).flatMap fun pair => pair.1.ones.map (pair.2 * 64 + ·)).length := by
  induction words generalizing total first with
  | nil => exact (Nat.add_zero total).symm
  | cons w rest ih =>
      rw [List.foldl_cons, ih _ (first + 1), List.zipIdx_cons, List.flatMap_cons,
        List.length_append, List.length_map, Word.length_ones, Nat.add_assoc]

theorem count_eq_length (s : BitSet) : s.count = s.toList.length := by
  rw [count, toList, ← Array.foldl_toList, foldl_cpop _ 0 0, Nat.zero_add]

/-- Sets of one capacity with the same members are equal. -/
theorem eq_of_contains (capacity : s.capacity = t.capacity)
    (members : ∀ i, s.contains i = t.contains i) : s = t := by
  have size : s.words.size = t.words.size := by rw [s.sized, t.sized, capacity]
  have words : s.words = t.words := by
    refine Array.ext size fun k hs ht => BitVec.eq_of_getLsbD_eq fun b hb => ?_
    have same := members (k * 64 + b)
    have word : (k * 64 + b) / 64 = k := by omega
    have rest : (k * 64 + b) % 64 = b := by omega
    rw [contains_eq_bitAt, contains_eq_bitAt, bitAt, bitAt, word, rest] at same
    simpa [Array.getD, hs, ht] using same
  cases s
  cases t
  cases capacity
  cases words
  rfl

/-- The members as a finite set. -/
def members (s : BitSet) : Finset Nat := s.toList.toFinset

@[simp] theorem mem_members : i ∈ s.members ↔ s.contains i = true := by
  rw [members, List.mem_toFinset, mem_toList]

theorem members_inj (capacity : s.capacity = t.capacity) : s.members = t.members ↔ s = t := by
  refine ⟨fun same => eq_of_contains capacity fun i => ?_, fun same => same ▸ rfl⟩
  rw [Bool.eq_iff_iff, ← mem_members, ← mem_members, same]

/-- A set and a finite set cannot be told apart: they have the same members, as many, and list
    them in ascending order. -/
structure Shows (s : BitSet) (members : Finset Nat) : Prop where
  contains : ∀ i, s.contains i = decide (i ∈ members)
  count : s.count = members.card
  isEmpty : s.isEmpty = decide (members = ∅)
  toList : s.toList = members.sort (· ≤ ·)

theorem isEmpty_iff : s.isEmpty = true ↔ s.members = ∅ := by
  rw [isEmpty, Array.all_eq_true, Finset.eq_empty_iff_forall_notMem]
  simp only [mem_members, contains_eq_bitAt, beq_iff_eq, Bool.not_eq_true]
  constructor
  · intro zero i
    by_cases inside : i / 64 < s.words.size
    · simp [bitAt, Array.getD, inside, zero _ inside]
    · simp [bitAt, Array.getD, inside]
  · intro clear k hk
    refine BitVec.eq_of_getLsbD_eq fun b hb => ?_
    have bit := clear (k * 64 + b)
    have word : (k * 64 + b) / 64 = k := by omega
    have rest : (k * 64 + b) % 64 = b := by omega
    rw [bitAt, word, rest] at bit
    simpa [Array.getD, hk] using bit

theorem shows_members (s : BitSet) : s.Shows s.members where
  contains := fun i => by rw [Bool.eq_iff_iff, decide_eq_true_eq, mem_members]
  count := by
    rw [count_eq_length, members, List.toFinset_card_of_nodup]
    exact (pairwise_toList s).imp Nat.ne_of_lt
  isEmpty := by rw [Bool.eq_iff_iff, decide_eq_true_eq, isEmpty_iff]
  toList := by
    have ascending : (s.members.sort (· ≤ ·)).Pairwise (· < ·) := (Finset.sortedLT_sort _).pairwise
    refine IdSet.list_eq_of_mem_iff (pairwise_toList s) ascending fun k => ?_
    rw [Finset.mem_sort, mem_members, mem_toList]

@[simp] theorem members_empty {capacity : Nat} : (empty capacity).members = ∅ := by
  ext i
  have clear : bitAt (empty capacity).words i = false := bitAt_replicate
  simp [contains_eq_bitAt, clear]

@[simp] theorem members_clear : s.clear.members = ∅ := by
  ext i
  have clear : bitAt s.clear.words i = false := by
    unfold bitAt
    rw [Array.getD_eq_getD_getElem?, clear, Array.getElem?_map]
    cases s.words[i / 64]? <;> simp
  simp [contains_eq_bitAt, clear]

/-- A change of the word of a number concerns the number alone. -/
theorem contains_modify {change : Word → Word}
    {keeps : ∀ (w : Word) (k : Nat), k ≠ i % 64 → (change w).getLsbD k = w.getLsbD k}
    {h : i < s.capacity} : (s.modify i change keeps h).contains j =
      if j = i then (change (s.words.getD (i / 64) 0)).getLsbD (i % 64) else s.contains j := by
  rw [contains_eq_bitAt, contains_eq_bitAt, modify, bitAt_modify (div_lt_size h)]
  by_cases same : j = i
  · simp [same]
  · by_cases word : i / 64 = j / 64
    · rw [if_pos word, if_neg same, keeps _ _ (by omega), word]
      rfl
    · rw [if_neg word, if_neg same]

/-- Testing the word of a number with its mask tells whether it is a member. -/
theorem word_and_mask : (s.words.getD (i / 64) 0 &&& Word.mask i != 0) = decide (i ∈ s.members) := by
  rw [Word.and_mask_bne_zero, Bool.eq_iff_iff, decide_eq_true_eq, mem_members, contains_eq_bitAt,
    bitAt]

theorem insert?_eq (h : i < s.capacity) : ∃ t, s.insert? i = some (decide (i ∉ s.members), t) ∧
    t.capacity = s.capacity ∧ t.members = insert i s.members := by
  rw [insert?, dif_pos h]
  refine ⟨_, congrArg some (Prod.ext ?_ rfl), rfl, ?_⟩
  · rw [decide_not, ← word_and_mask, bne, Bool.not_not]
  · ext j
    rw [Finset.mem_insert, mem_members, mem_members, contains_modify, Word.getLsbD_or_mask]
    by_cases same : j = i <;> simp [same]

theorem remove?_eq (h : i < s.capacity) : ∃ t, s.remove? i = some (decide (i ∈ s.members), t) ∧
    t.capacity = s.capacity ∧ t.members = s.members.erase i := by
  rw [remove?, dif_pos h]
  refine ⟨_, congrArg some (Prod.ext word_and_mask rfl), rfl, ?_⟩
  ext j
  rw [Finset.mem_erase, mem_members, mem_members, contains_modify, Word.getLsbD_and_not_mask]
  by_cases same : j = i <;> simp [same]

/-- The words of two sets of one capacity differ exactly if their members do. -/
theorem words_bne (capacity : s.capacity = t.capacity) :
    (s.words != t.words) = decide (s.members ≠ t.members) := by
  rw [Bool.eq_iff_iff, bne_iff_ne, decide_eq_true_eq, ne_eq, ne_eq, members_inj capacity,
    BitSet.ext_iff]
  simp [capacity]

/-- Combining words bit by bit combines the sets, and a word changes exactly if the set does. -/
theorem combine?_eq {op : Word → Word → Word}
    {quiet : ∀ (v w : Word) (k : Nat), v.getLsbD k = false → w.getLsbD k = false →
      (op v w).getLsbD k = false} {f : Bool → Bool → Bool}
    (bits : ∀ (v w : Word) (k : Nat), k < 64 →
      (op v w).getLsbD k = f (v.getLsbD k) (w.getLsbD k))
    (h : t.capacity = s.capacity) :
    ∃ r, combine? op quiet s t = some (decide (r.members ≠ s.members), r) ∧
      r.capacity = s.capacity ∧ ∀ i, r.contains i = f (s.contains i) (t.contains i) := by
  refine ⟨combine op quiet s t h, ?_, rfl, fun i => ?_⟩
  · have changed := words_bne (s := combine op quiet s t h) (t := s) rfl
    rw [combine?, dif_pos h, ← changed]
  rw [contains_eq_bitAt, contains_eq_bitAt, contains_eq_bitAt, combine]
  have size : t.words.size = s.words.size := by rw [t.sized, s.sized, h]
  by_cases inside : i / 64 < s.words.size
  · rw [bitAt, getD_zipWith size inside]
    exact bits _ _ _ (Nat.mod_lt i (by decide))
  · have none : f false false = false := by
      have zero := bits 0 0 0 (by decide)
      rw [quiet 0 0 0 (by decide) (by decide)] at zero
      exact zero.symm
    simp [bitAt, Array.getD, size, inside, none]

theorem union?_eq (h : t.capacity = s.capacity) :
    ∃ r, s.union? t = some (decide (r.members ≠ s.members), r) ∧ r.capacity = s.capacity ∧
      r.members = s.members ∪ t.members := by
  obtain ⟨r, found, capacity, contains⟩ :=
    combine?_eq (f := or) (fun _ _ _ _ => BitVec.getLsbD_or) h
  exact ⟨r, found, capacity, by ext i; simp [contains]⟩

theorem inter?_eq (h : t.capacity = s.capacity) :
    ∃ r, s.inter? t = some (decide (r.members ≠ s.members), r) ∧ r.capacity = s.capacity ∧
      r.members = s.members ∩ t.members := by
  obtain ⟨r, found, capacity, contains⟩ :=
    combine?_eq (f := and) (fun _ _ _ _ => BitVec.getLsbD_and) h
  exact ⟨r, found, capacity, by ext i; simp [contains]⟩

theorem diff?_eq (h : t.capacity = s.capacity) :
    ∃ r, s.diff? t = some (decide (r.members ≠ s.members), r) ∧ r.capacity = s.capacity ∧
      r.members = s.members \ t.members := by
  have bits : ∀ (v w : Word) (k : Nat), k < 64 →
      (v &&& ~~~w).getLsbD k = (v.getLsbD k && !w.getLsbD k) := by
    intro v w k inside
    simp [inside]
  obtain ⟨r, found, capacity, contains⟩ := combine?_eq (f := fun a b => a && !b) bits h
  exact ⟨r, found, capacity, by ext i; simp [contains]⟩

/-- A call that changes one of several sets. -/
inductive Call where
  | insert (target i : Nat)
  | remove (target i : Nat)
  | clear (target : Nat)
  | union (target other : Nat)
  | inter (target other : Nat)
  | diff (target other : Nat)
  deriving Repr, DecidableEq

namespace Call

/-- The set that the call changes. -/
def target : Call → Nat
  | insert target _ | remove target _ | clear target => target
  | union target _ | inter target _ | diff target _ => target

/-- The number that is put in or taken out is below the capacity. -/
def InRange (capacity : Nat) : Call → Prop
  | insert _ i | remove _ i => i < capacity
  | clear _ | union _ _ | inter _ _ | diff _ _ => True

instance (capacity : Nat) (call : Call) : Decidable (call.InRange capacity) := by
  cases call <;> unfold InRange <;> infer_instance

/-- What becomes of the changed set, and the answer, unless the call is refused. Clearing gives no
    answer. -/
def perform (sets : Nat → BitSet) : Call → Option (Option Bool × BitSet)
  | insert target i => ((sets target).insert? i).map (Prod.map some id)
  | remove target i => ((sets target).remove? i).map (Prod.map some id)
  | clear target => some (none, (sets target).clear)
  | union target other => ((sets target).union? (sets other)).map (Prod.map some id)
  | inter target other => ((sets target).inter? (sets other)).map (Prod.map some id)
  | diff target other => ((sets target).diff? (sets other)).map (Prod.map some id)

/-- What becomes of the changed set if the sets are finite sets. -/
def result (sets : Nat → Finset Nat) : Call → Finset Nat
  | insert target i => Insert.insert i (sets target)
  | remove target i => (sets target).erase i
  | clear _ => ∅
  | union target other => sets target ∪ sets other
  | inter target other => sets target ∩ sets other
  | diff target other => sets target \ sets other

/-- The answer if the sets are finite sets: whether the set changes. -/
def answer (sets : Nat → Finset Nat) (call : Call) : Option Bool :=
  match call with
  | clear _ => none
  | _ => some (decide (call.result sets ≠ sets call.target))

/-- A call gives the answer, and the changed set the members, that it gives to finite sets. -/
theorem perform_eq {capacity : Nat} {sets : Nat → BitSet} {call : Call}
    (capacities : ∀ r, (sets r).capacity = capacity) (inRange : call.InRange capacity) :
    ∃ t, call.perform sets = some (call.answer fun r => (sets r).members, t) ∧
      t.capacity = capacity ∧ t.members = call.result fun r => (sets r).members := by
  have equal (r q : Nat) : (sets q).capacity = (sets r).capacity := by
    rw [capacities, capacities]
  cases call with
  | insert target i =>
      obtain ⟨t, found, same, members⟩ := insert?_eq (s := sets target) (capacities _ ▸ inRange)
      refine ⟨t, ?_, same.trans (capacities _), members⟩
      simp [perform, found, answer, result, Call.target]
  | remove target i =>
      obtain ⟨t, found, same, members⟩ := remove?_eq (s := sets target) (capacities _ ▸ inRange)
      refine ⟨t, ?_, same.trans (capacities _), members⟩
      simp [perform, found, answer, result, Call.target]
  | clear target => exact ⟨_, rfl, capacities target, members_clear⟩
  | union target other =>
      obtain ⟨t, found, same, members⟩ := union?_eq (equal target other)
      refine ⟨t, ?_, same.trans (capacities _), members⟩
      simp only [perform, found, members]
      rfl
  | inter target other =>
      obtain ⟨t, found, same, members⟩ := inter?_eq (equal target other)
      refine ⟨t, ?_, same.trans (capacities _), members⟩
      simp only [perform, found, members]
      rfl
  | diff target other =>
      obtain ⟨t, found, same, members⟩ := diff?_eq (equal target other)
      refine ⟨t, ?_, same.trans (capacities _), members⟩
      simp only [perform, found, members]
      rfl

end Call

/-- The sets after a sequence of calls, and the answers, unless a call is refused. -/
def perform (sets : Nat → BitSet) : List Call → Option (List (Option Bool) × (Nat → BitSet))
  | [] => some ([], sets)
  | call :: rest => do
      let (answer, changed) ← call.perform sets
      let (answers, final) ← perform (Function.update sets call.target changed) rest
      return (answer :: answers, final)

/-- Finite sets after a sequence of calls. -/
def results (sets : Nat → Finset Nat) (calls : List Call) : Nat → Finset Nat :=
  calls.foldl (fun sets call => Function.update sets call.target (call.result sets)) sets

/-- The answers that a sequence of calls gets from finite sets. -/
def answers (sets : Nat → Finset Nat) : List Call → List (Option Bool)
  | [] => []
  | call :: rest =>
      call.answer sets :: answers (Function.update sets call.target (call.result sets)) rest

/-- A sequence of calls that are in range gives the answers and the members that it gives to finite
    sets. -/
theorem perform_eq {capacity : Nat} {calls : List Call} {sets : Nat → BitSet}
    (capacities : ∀ r, (sets r).capacity = capacity)
    (inRange : ∀ call ∈ calls, call.InRange capacity) :
    ∃ final, perform sets calls = some (answers (fun r => (sets r).members) calls, final) ∧
      (∀ r, (final r).capacity = capacity) ∧
      ∀ r, (final r).members = results (fun r => (sets r).members) calls r := by
  induction calls generalizing sets with
  | nil => exact ⟨sets, rfl, capacities, fun _ => rfl⟩
  | cons call rest ih =>
      obtain ⟨here, later⟩ := List.forall_mem_cons.mp inRange
      obtain ⟨t, found, capacity', members⟩ := Call.perform_eq capacities here
      have capacities' : ∀ r, (Function.update sets call.target t r).capacity = capacity := by
        intro r
        by_cases same : r = call.target
        · rw [same, Function.update_self, capacity']
        · rw [Function.update_of_ne same, capacities]
      obtain ⟨final, run, capacities'', members''⟩ := ih capacities' later
      have shown : (fun r => (Function.update sets call.target t r).members) =
          Function.update (fun r => (sets r).members) call.target
            (call.result fun r => (sets r).members) := by
        funext r
        by_cases same : r = call.target
        · rw [same, Function.update_self, Function.update_self, members]
        · rw [Function.update_of_ne same, Function.update_of_ne same]
      rw [shown] at run members''
      refine ⟨final, ?_, capacities'', members''⟩
      rw [perform, found]
      simp only [Option.bind_eq_bind, Option.bind_some, run]
      rfl

/-- Sets of one capacity that start without members and are changed by any sequence of calls in
    range cannot be told apart from the finite sets that the same calls build: the calls give the
    same answers, and the sets show the same members. No bit at or beyond the capacity is set, and
    two of the sets are equal exactly if the finite sets are. -/
theorem perform_shows {capacity : Nat} {calls : List Call}
    (inRange : ∀ call ∈ calls, call.InRange capacity) :
    ∃ sets, perform (fun _ => empty capacity) calls = some (answers (fun _ => ∅) calls, sets) ∧
      (∀ r, (sets r).capacity = capacity ∧ (sets r).Shows (results (fun _ => ∅) calls r)) ∧
      (∀ r i, capacity ≤ i → bitAt (sets r).words i = false) ∧
      ∀ r q, sets r = sets q ↔ results (fun _ => ∅) calls r = results (fun _ => ∅) calls q := by
  have start : (fun _ : Nat => (empty capacity).members) = fun _ => ∅ := by simp
  obtain ⟨sets, run, capacities, members⟩ :=
    @perform_eq capacity calls (fun _ => empty capacity) (fun _ => rfl) inRange
  rw [start] at run members
  refine ⟨sets, run, fun r => ⟨capacities r, members r ▸ shows_members _⟩, ?_, fun r q => ?_⟩
  · exact fun r i beyond => (sets r).bounded i (capacities r ▸ beyond)
  · rw [← members, ← members, members_inj ((capacities r).trans (capacities q).symm)]

/-- Seven calls on two sets around the border of the first word. -/
theorem perform_shows_borders :
    ∃ sets, perform (fun _ => empty 70)
        [.insert 0 63, .insert 0 64, .insert 1 64, .insert 0 69, .inter 1 0, .diff 0 1,
          .remove 0 64] =
          some ([some true, some true, some true, some true, some false, some true, some false],
            sets) ∧
      (sets 0).contains 63 = true ∧ (sets 0).contains 64 = false ∧ (sets 0).count = 2 ∧
      sets 0 ≠ sets 1 := by
  obtain ⟨sets, run, shows, -, equal⟩ := @perform_shows 70
    [.insert 0 63, .insert 0 64, .insert 1 64, .insert 0 69, .inter 1 0, .diff 0 1, .remove 0 64]
    (by decide)
  refine ⟨sets, run.trans (congrArg (fun answers => some (answers, sets)) (by decide)), ?_, ?_, ?_,
    ?_⟩
  · rw [(shows 0).2.contains]
    decide
  · rw [(shows 0).2.contains]
    decide
  · rw [(shows 0).2.count]
    decide
  · rw [ne_eq, equal]
    decide

end BitSet

end RangeFlow
