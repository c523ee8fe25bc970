/-! # Bit sets

Sets of numbers below a fixed capacity, kept as the bits of 64-bit words.
-/

namespace RangeFlow

/-- Sixty-four bits that tell which of as many numbers in a row are members. -/
abbrev Word := BitVec 64

namespace Word

/-- The word in which the place of a number is set: its remainder by 64. -/
def mask (i : Nat) : Word := 1 <<< (i % 64)

/-- Testing a word with a mask reads one bit. -/
theorem and_mask_bne_zero {w : Word} {i : Nat} :
    (w &&& mask i != 0) = w.getLsbD (i % 64) := by
  have inside : i % 64 < 64 := Nat.mod_lt i (by decide)
  have set : BitVec.twoPow 64 (i % 64) ≠ 0#64 := by
    intro zero
    have bit := congrArg (·.getLsbD (i % 64)) zero
    simp [inside] at bit
  have power : mask i = BitVec.twoPow 64 (i % 64) := (BitVec.twoPow_eq ..).symm
  rw [power, BitVec.and_twoPow]
  cases w.getLsbD (i % 64) <;> simp [set]

/-- A mask has one bit. -/
theorem getLsbD_mask {i j : Nat} : (mask i).getLsbD j = decide (j = i % 64) := by
  have inside : i % 64 < 64 := Nat.mod_lt i (by decide)
  have power : mask i = BitVec.twoPow 64 (i % 64) := (BitVec.twoPow_eq ..).symm
  rw [power, BitVec.getLsbD_twoPow]
  by_cases same : j = i % 64
  · simp [same, inside]
  · simp [same, Ne.symm same]

/-- Setting the bit of a mask leaves the other bits alone. -/
theorem getLsbD_or_mask {w : Word} {i j : Nat} :
    (w ||| mask i).getLsbD j = (w.getLsbD j || decide (j = i % 64)) := by
  rw [BitVec.getLsbD_or, getLsbD_mask]

/-- Clearing the bit of a mask leaves the other bits alone. -/
theorem getLsbD_and_not_mask {w : Word} {i j : Nat} :
    (w &&& ~~~mask i).getLsbD j = (w.getLsbD j && decide (j ≠ i % 64)) := by
  rw [BitVec.getLsbD_and, BitVec.getLsbD_not, getLsbD_mask]
  by_cases inside : j < 64
  · simp [inside]
  · simp [BitVec.getLsbD_of_ge w j (Nat.le_of_not_lt inside)]

/-- Taking one away and keeping the common bits makes a word smaller. -/
theorem and_sub_one_lt {w : Word} (h : w ≠ 0) : (w &&& (w - 1)).toNat < w.toNat := by
  have positive : 0 < w.toNat := Nat.pos_of_ne_zero fun zero => h (BitVec.eq_of_toNat_eq zero)
  have one : (1 : Word) ≤ w := BitVec.le_def.mpr positive
  have less : (w - 1).toNat = w.toNat - 1 := BitVec.toNat_sub_of_le one
  have le : (w &&& (w - 1)).toNat ≤ (w - 1).toNat := by
    rw [BitVec.toNat_and]
    exact Nat.and_le_right
  omega

/-- The places of the set bits, ascending: the lowest one first, then those of the word without
    it. -/
def ones (w : Word) : List Nat :=
  if w = 0 then [] else w.ctz.toNat :: ones (w &&& (w - 1))
termination_by w.toNat
decreasing_by
  next h => exact and_sub_one_lt h

end Word

/-- The bit of a number, in a row of words. -/
def bitAt (words : Array Word) (i : Nat) : Bool := (words.getD (i / 64) 0).getLsbD (i % 64)

/-- A set of numbers below `capacity`. -/
@[ext] structure BitSet where
  capacity : Nat
  /-- Number `i` is a member if bit `i % 64` of word `i / 64` is set. -/
  words : Array Word
  /-- There are as many words as the capacity needs. -/
  sized : words.size = (capacity + 63) / 64
  /-- No bit at or beyond the capacity is set. -/
  bounded : ∀ i, capacity ≤ i → bitAt words i = false
  deriving DecidableEq

/-- Words without a set bit. -/
theorem bitAt_replicate {n i : Nat} : bitAt (Array.replicate n 0) i = false := by
  unfold bitAt
  rw [Array.getD_eq_getD_getElem?, Array.getElem?_replicate]
  split <;> simp

/-- Changing the word of a number changes no bit of the other words. -/
theorem bitAt_modify {words : Array Word} {change : Word → Word} {i j : Nat}
    (h : i / 64 < words.size) : bitAt (words.modify (i / 64) change) j =
      if i / 64 = j / 64 then (change (words.getD (i / 64) 0)).getLsbD (j % 64)
      else bitAt words j := by
  unfold bitAt
  rw [Array.getD_eq_getD_getElem?, Array.getElem?_modify]
  split
  · next same => simp [← same, h]
  · rw [Array.getD_eq_getD_getElem?]

/-- Words are combined place by place. -/
theorem getD_zipWith {op : Word → Word → Word} {words others : Array Word} {k : Nat}
    (h : others.size = words.size) (inside : k < words.size) :
    (Array.zipWith op words others).getD k 0 = op (words.getD k 0) (others.getD k 0) := by
  simp [Array.getD, h, inside]

namespace BitSet

/-- The set without members. -/
def empty (capacity : Nat) : BitSet where
  capacity
  words := .replicate ((capacity + 63) / 64) 0
  sized := by simp
  bounded := fun _ _ => bitAt_replicate

/-- Is the number a member? Numbers beyond the capacity are not. -/
def contains (s : BitSet) (i : Nat) : Bool :=
  decide (i < s.capacity) && s.words.getD (i / 64) 0 &&& Word.mask i != 0

/-- Membership is a bit of the words. -/
theorem contains_eq_bitAt {s : BitSet} {i : Nat} : s.contains i = bitAt s.words i := by
  rw [contains, Word.and_mask_bne_zero]
  by_cases inside : i < s.capacity
  · simp [inside, bitAt]
  · simp [inside, s.bounded i (Nat.le_of_not_lt inside)]

/-- The words have a place for every number below the capacity. -/
theorem div_lt_size {s : BitSet} {i : Nat} (h : i < s.capacity) : i / 64 < s.words.size := by
  rw [s.sized]
  omega

/-- The set after a change of the word of a number below the capacity, if the change leaves the
    bits alone that stand for other numbers. -/
def modify (s : BitSet) (i : Nat) (change : Word → Word)
    (keeps : ∀ (w : Word) (k : Nat), k ≠ i % 64 → (change w).getLsbD k = w.getLsbD k)
    (h : i < s.capacity) : BitSet where
  capacity := s.capacity
  words := s.words.modify (i / 64) change
  sized := by rw [Array.size_modify, s.sized]
  bounded := by
    intro j beyond
    rw [bitAt_modify (div_lt_size h)]
    split
    · next same =>
        rw [keeps _ _ (by omega), same]
        exact s.bounded j beyond
    · exact s.bounded j beyond

/-- The members, ascending. -/
def toList (s : BitSet) : List Nat :=
  s.words.toList.zipIdx.flatMap fun (w, k) => w.ones.map (k * 64 + ·)

/-- Number of members. -/
def count (s : BitSet) : Nat := s.words.foldl (fun total w => total + w.cpop.toNat) 0

/-- Is the set without members? -/
def isEmpty (s : BitSet) : Bool := s.words.all (· == 0)

/-- The set of the same capacity without members. -/
def clear (s : BitSet) : BitSet where
  capacity := s.capacity
  words := s.words.map fun _ => 0
  sized := by rw [Array.size_map, s.sized]
  bounded := by
    intro i _
    unfold bitAt
    rw [Array.getD_eq_getD_getElem?, Array.getElem?_map]
    cases s.words[i / 64]? <;> simp

/-- Put a number in, and tell whether it is new. A number beyond the capacity is refused. -/
def insert? (s : BitSet) (i : Nat) : Option (Bool × BitSet) :=
  if h : i < s.capacity then
    some (s.words.getD (i / 64) 0 &&& Word.mask i == 0,
      s.modify i (· ||| Word.mask i) (fun _ _ other => by rw [Word.getLsbD_or_mask]; simp [other]) h)
  else none

/-- Take a number out, and tell whether it was in. A number beyond the capacity is refused. -/
def remove? (s : BitSet) (i : Nat) : Option (Bool × BitSet) :=
  if h : i < s.capacity then
    some (s.words.getD (i / 64) 0 &&& Word.mask i != 0,
      s.modify i (· &&& ~~~Word.mask i)
        (fun _ _ other => by rw [Word.getLsbD_and_not_mask]; simp [other]) h)
  else none

section Combine

variable (op : Word → Word → Word)
  (quiet : ∀ (v w : Word) (k : Nat), v.getLsbD k = false → w.getLsbD k = false →
    (op v w).getLsbD k = false)

/-- Two sets combined word by word, by an operation that sets no bit that is set in neither word. -/
def combine (s t : BitSet) (h : t.capacity = s.capacity) : BitSet where
  capacity := s.capacity
  words := .zipWith op s.words t.words
  sized := by simp [s.sized, t.sized, h]
  bounded := by
    intro i beyond
    have same : t.words.size = s.words.size := by rw [t.sized, s.sized, h]
    by_cases inside : i / 64 < s.words.size
    · rw [bitAt, getD_zipWith same inside]
      exact quiet _ _ _ (s.bounded i beyond) (t.bounded i (h ▸ beyond))
    · simp [bitAt, Array.getD, same, inside]

/-- Combine two sets, and tell whether a word of the first one changes. Sets of different capacity
    are refused. -/
def combine? (s t : BitSet) : Option (Bool × BitSet) :=
  if h : t.capacity = s.capacity then
    let next := combine op quiet s t h
    some (next.words != s.words, next)
  else none

end Combine

/-- Union, and whether it has new members. -/
def union? : BitSet → BitSet → Option (Bool × BitSet) :=
  combine? (· ||| ·) (by simp +contextual)

/-- Intersection, and whether members are lost. -/
def inter? : BitSet → BitSet → Option (Bool × BitSet) :=
  combine? (· &&& ·) (by simp +contextual)

/-- Difference, and whether members are lost. -/
def diff? : BitSet → BitSet → Option (Bool × BitSet) :=
  combine? (fun v w => v &&& ~~~w) (by simp +contextual)

/-- The written form of the set. -/
protected def toString (s : BitSet) : String :=
  "\x7b" ++ ", ".intercalate (s.toList.map toString) ++ "\x7d"

instance : ToString BitSet := ⟨BitSet.toString⟩

end BitSet

end RangeFlow
