import Mathlib.Data.List.MinMax
import RangeFlow.Graph.LoopGrowth
import RangeFlow.Proofs.LoopBodies

/-! # Nests of loops

The loops around a loop contain each other, so they have different sizes and the smallest of them is
contained in the others. It is the parent. The loops around a loop are its parent and the loops
around the parent: climbing from parent to parent one passes all of them.
-/

namespace RangeFlow

namespace NaturalLoop

variable {l m : NaturalLoop} {b : Nat}

theorem contains_iff : l.contains b = true ↔ b ∈ l.body := by
  rw [contains, IdSet.contains, decide_eq_true_eq]

/-- A loop that contains another and one node more is larger. -/
theorem size_lt (sub : ∀ b, l.contains b = true → m.contains b = true)
    (inside : m.contains b = true) (outside : l.contains b = false) : l.size < m.size := by
  have nodup : (b :: l.body.toList).Nodup := by
    refine List.nodup_cons.mpr ⟨fun member => ?_, l.body.ascending.imp Nat.ne_of_lt⟩
    rw [contains_iff.mpr member] at outside
    cases outside
  refine (List.subperm_of_subset nodup fun c member => ?_).length_le
  rcases List.mem_cons.mp member with rfl | member
  · exact contains_iff.mp inside
  · exact contains_iff.mp (sub c (contains_iff.mpr member))

end NaturalLoop

namespace LoopForest

open LoopGrowth (smallest?)

variable {g : Graph} {entry : Nat} {loops values : List NaturalLoop} {l m p : NaturalLoop}

/-- The other loops around a loop. -/
def around (loops : List NaturalLoop) (l : NaturalLoop) : List NaturalLoop :=
  loops.filter fun m => m.header != l.header && m.contains l.header

theorem mem_around : m ∈ around loops l ↔
    m ∈ loops ∧ m.header ≠ l.header ∧ m.contains l.header = true := by
  rw [around, List.mem_filter, Bool.and_eq_true, bne_iff_ne]

theorem nest_eq : nest loops l =
    { l with
      depth := (around loops l).length
      parent := (smallest? (around loops l)).map NaturalLoop.header } := rfl

theorem smallest?_eq_argmin : smallest? loops = loops.argmin NaturalLoop.size := by
  have step : ∀ (best : Option NaturalLoop) (m : NaturalLoop),
      (if best.all (fun b : NaturalLoop => decide (m.size < b.size)) then some m else best) =
        List.argAux (fun b c => NaturalLoop.size b < NaturalLoop.size c) best m := by
    intro best m
    cases best with
    | none => rfl
    | some b => simp [List.argAux]
  rw [smallest?, List.argmin]
  congr 1
  funext best m
  exact step best m

theorem smallest?_eq_none : smallest? loops = none ↔ loops = [] := by
  rw [smallest?_eq_argmin, List.argmin_eq_none]

theorem smallest?_mem (h : smallest? loops = some m) : m ∈ loops := by
  rw [smallest?_eq_argmin] at h
  exact List.argmin_mem h

theorem smallest?_le (h : smallest? loops = some m) (hl : l ∈ loops) : m.size ≤ l.size := by
  rw [smallest?_eq_argmin] at h
  exact List.le_of_mem_argmin hl h

/-- There is one loop for each header that a closing edge leads to, with the body that belongs to
    it. -/
structure Family (g : Graph) (entry : Nat) (loops : List NaturalLoop) : Prop where
  nodup : (loops.map NaturalLoop.header).Nodup
  headers : ∀ h, h ∈ loops.map NaturalLoop.header ↔ ∃ n, g.Closes entry n h
  contains : ∀ l ∈ loops, ∀ b, l.contains b = true ↔ g.InLoop entry l.header b

namespace Family

theorem perm (family : Family g entry loops) (perm : values.Perm loops) :
    Family g entry values where
  nodup := (perm.map _).nodup_iff.mpr family.nodup
  headers := fun h => ((perm.map _).mem_iff).trans (family.headers h)
  contains := fun l hl => family.contains l (perm.mem_iff.mp hl)

variable (family : Family g entry loops)

include family

theorem nodup_loops : loops.Nodup := family.nodup.of_map

theorem eq_of_header (hl : l ∈ loops) (hm : m ∈ loops) (same : l.header = m.header) : l = m :=
  List.inj_on_of_nodup_map family.nodup hl hm same

theorem header_ne_iff (hl : l ∈ loops) (hm : m ∈ loops) : l.header ≠ m.header ↔ l ≠ m :=
  not_congr ⟨family.eq_of_header hl hm, congrArg _⟩

theorem mem_around_iff (hl : l ∈ loops) : m ∈ around loops l ↔
    m ∈ loops ∧ m ≠ l ∧ m.contains l.header = true := by
  rw [mem_around]
  exact and_congr_right fun hm => and_congr_left' (family.header_ne_iff hm hl)

theorem reached (hl : l ∈ loops) : g.Reaches entry l.header := by
  obtain ⟨n, closes⟩ := (family.headers _).mp (List.mem_map_of_mem hl)
  exact closes.header_reached

theorem contains_header (hl : l ∈ loops) : l.contains l.header = true :=
  (family.contains l hl _).mpr (.inl rfl)

/-- A loop that contains the header of another contains all of it. -/
theorem sub (hl : l ∈ loops) (hm : m ∈ loops) (other : m.header ≠ l.header)
    (inside : m.contains l.header = true) {b : Nat} (hb : l.contains b = true) :
    m.contains b = true :=
  (family.contains m hm b).mpr
    (((family.contains m hm _).mp inside).trans other ((family.contains l hl b).mp hb))

/-- Two loops do not contain the headers of each other. -/
theorem outside (hl : l ∈ loops) (hm : m ∈ loops) (other : m.header ≠ l.header)
    (inside : m.contains l.header = true) : l.contains m.header = false := by
  rw [← Bool.not_eq_true, family.contains l hl]
  exact ((family.contains m hm _).mp inside).asymm other (family.reached hm) (family.reached hl)

theorem size_lt (hl : l ∈ loops) (hm : m ∈ loops) (other : m.header ≠ l.header)
    (inside : m.contains l.header = true) : l.size < m.size :=
  NaturalLoop.size_lt (fun _ hb => family.sub hl hm other inside hb) (family.contains_header hm)
    (family.outside hl hm other inside)

/-- Of two loops that share a node that can be reached, one contains the header of the other. -/
theorem order (hl : l ∈ loops) (hm : m ∈ loops) (other : l.header ≠ m.header) {b : Nat}
    (reached : g.Reaches entry b) (inL : l.contains b = true) (inM : m.contains b = true) :
    l.contains m.header = true ∨ m.contains l.header = true := by
  rw [family.contains l hl, family.contains m hm]
  exact ((family.contains l hl b).mp inL).header_of_common ((family.contains m hm b).mp inM) reached
    other

/-- A loop around a loop contains the header of every larger one only. -/
theorem contains_of_around (hl : l ∈ loops) (hp : p ∈ around loops l) (hm : m ∈ around loops l)
    (other : m ≠ p) (le : p.size ≤ m.size) : m.contains p.header = true := by
  obtain ⟨hp, -, inP⟩ := mem_around.mp hp
  obtain ⟨hm, -, inM⟩ := mem_around.mp hm
  have apart := (family.header_ne_iff hm hp).mpr other
  rcases family.order hm hp apart (family.reached hl) inM inP with inside | inside
  · exact inside
  · exact absurd (family.size_lt hm hp apart.symm inside) (Nat.not_lt.mpr le)

/-- The smallest loop around a loop is the only one of its size. -/
theorem smallest?_around (hl : l ∈ loops) (hp : p ∈ around loops l)
    (least : ∀ m ∈ around loops l, p.size ≤ m.size) : smallest? (around loops l) = some p := by
  cases found : smallest? (around loops l) with
  | none => simp [smallest?_eq_none.mp found] at hp
  | some q =>
      have hq := smallest?_mem found
      by_contra other
      have other : p ≠ q := fun same => other (congrArg some same.symm)
      have memberP := (mem_around.mp hp).1
      have memberQ := (mem_around.mp hq).1
      have inside := family.contains_of_around hl hq hp other (smallest?_le found hp)
      have apart := (family.header_ne_iff memberP memberQ).mpr other
      exact absurd (family.size_lt memberQ memberP apart inside) (Nat.not_lt.mpr (least q hq))

/-- The loops around a loop are its parent and those around the parent. -/
theorem around_perm (hl : l ∈ loops) (found : smallest? (around loops l) = some p) :
    (around loops l).Perm (p :: around loops p) := by
  have hp := smallest?_mem found
  obtain ⟨memberP, apartP, insideP⟩ := mem_around.mp hp
  refine (List.perm_ext_iff_of_nodup (family.nodup_loops.filter _) ?_).mpr fun m => ?_
  · refine List.nodup_cons.mpr ⟨fun itself => ?_, family.nodup_loops.filter _⟩
    exact (mem_around.mp itself).2.1 rfl
  rw [List.mem_cons]
  constructor
  · intro hm
    refine or_iff_not_imp_left.mpr fun other => ?_
    obtain ⟨member, -, -⟩ := mem_around.mp hm
    exact (family.mem_around_iff memberP).mpr
      ⟨member, other, family.contains_of_around hl hp hm other (smallest?_le found hm)⟩
  · rintro (rfl | hm)
    · exact hp
    · obtain ⟨member, apart, inside⟩ := mem_around.mp hm
      refine mem_around.mpr ⟨member, fun same => ?_, family.sub memberP member apart inside insideP⟩
      have back := family.outside hl memberP apartP insideP
      rw [family.eq_of_header member hl same, back] at inside
      cases inside

/-- How deep a loop is nested and what its parent is does not depend on the order of the loops. -/
theorem nest_perm (perm : values.Perm loops) (hl : l ∈ loops) : nest values l = nest loops l := by
  have same : (around values l).Perm (around loops l) := perm.filter _
  have parent : smallest? (around values l) = smallest? (around loops l) := by
    cases found : smallest? (around values l) with
    | none =>
        rw [smallest?_eq_none] at found
        rw [found] at same
        rw [same.symm.eq_nil]
        rfl
    | some p =>
        refine (family.smallest?_around hl (same.mem_iff.mp (smallest?_mem found)) ?_).symm
        exact fun m hm => smallest?_le found (same.mem_iff.mpr hm)
  rw [nest_eq, nest_eq, parent, same.length_eq]

end Family

end LoopForest

namespace LoopGrowth

open LoopForest (around mem_around Family smallest?_mem smallest?_eq_none)

variable {g : Graph} {entry : Nat} {loops : List NaturalLoop} {l : NaturalLoop}

/-- If a function has a value at each element of a list, these are the values along the list. -/
theorem mem_mapM {f : NaturalLoop → Part NaturalLoop} {h : NaturalLoop → NaturalLoop}
    (each : ∀ l ∈ loops, h l ∈ f l) : loops.map h ∈ loops.mapM f := by
  induction loops with
  | nil => exact Part.mem_some _
  | cons l rest ih =>
      obtain ⟨first, others⟩ := List.forall_mem_cons.mp each
      rw [List.mapM_cons]
      exact Part.mem_bind first (Part.mem_bind (ih others) (Part.mem_some _))

/-- The loop with its parent. -/
def place (loops : List NaturalLoop) (l : NaturalLoop) : NaturalLoop :=
  { l with parent := (smallest? (around loops l)).map NaturalLoop.header }

/-- Loops with other indices have other headers. -/
theorem withParents_eq (nodup : (loops.map NaturalLoop.header).Nodup) :
    withParents loops = loops.map (place loops) := by
  have parents : ∀ pair ∈ loops.zipIdx, parent? loops pair.2 pair.1.header =
      (smallest? (around loops pair.1)).map NaturalLoop.header := by
    rintro ⟨l, i⟩ hl
    have others : (loops.zipIdx.filter fun pair => pair.2 != i && pair.1.contains l.header) =
        loops.zipIdx.filter fun pair => pair.1.header != l.header && pair.1.contains l.header := by
      refine List.filter_congr ?_
      rintro ⟨m, j⟩ hm
      congr 1
      have atI := List.mem_zipIdx_iff_getElem?.mp hl
      have atJ := List.mem_zipIdx_iff_getElem?.mp hm
      simp only at atI atJ
      rw [Bool.eq_iff_iff, bne_iff_ne, bne_iff_ne, not_iff_not]
      constructor
      · rintro rfl
        cases atI.symm.trans atJ
        rfl
      · intro same
        have inside : j < (loops.map NaturalLoop.header).length := by
          rw [List.length_map]
          exact (List.getElem?_eq_some_iff.mp atJ).1
        refine (List.getElem?_inj inside nodup).mp ?_
        rw [List.getElem?_map, List.getElem?_map, atI, atJ, Option.map_some, Option.map_some, same]
    have first := List.filter_map (f := Prod.fst) (l := loops.zipIdx)
      (p := fun m : NaturalLoop => m.header != l.header && m.contains l.header)
    rw [List.zipIdx_map_fst] at first
    rw [parent?, others, around, first]
    rfl
  calc withParents loops
      = loops.zipIdx.map fun pair => place loops pair.1 := by
        refine List.map_congr_left ?_
        rintro ⟨l, i⟩ hl
        exact congrArg (fun parent => ({ l with parent } : NaturalLoop)) (parents (l, i) hl)
    _ = (loops.zipIdx.map Prod.fst).map (place loops) := by
        rw [List.map_map]
        rfl
    _ = loops.map (place loops) := by rw [List.zipIdx_map_fst]

/-- A loop is found by its header. -/
theorem find?_place (family : Family g entry loops) (hl : l ∈ loops) :
    (loops.map (place loops)).find? (·.header == l.header) = some (place loops l) := by
  have some_ : (loops.find? ((·.header == l.header) ∘ place loops)).isSome :=
    List.find?_isSome.mpr ⟨l, hl, beq_self_eq_true _⟩
  obtain ⟨m, found⟩ := Option.isSome_iff_exists.mp some_
  have same : m.header = l.header := by simpa [place] using List.find?_some found
  rw [List.find?_map, found, family.eq_of_header (List.mem_of_find?_eq_some found) hl same]
  rfl

theorem mem_climb_none {depth : Nat} : depth ∈ climb loops none depth :=
  PFun.fix_stop (Part.mem_some_iff.mpr rfl)

theorem climb_some {header depth : Nat} : climb loops (some header) depth =
    climb loops ((loops.find? (·.header == header)).bind NaturalLoop.parent) (depth + 1) :=
  PFun.fix_fwd_eq (Part.mem_some_iff.mpr rfl)

/-- Climbing from the parent of a loop one counts the loops around it. -/
theorem mem_climb (family : Family g entry loops) (hl : l ∈ loops) (depth : Nat) :
    depth + (around loops l).length ∈
      climb (loops.map (place loops)) (place loops l).parent depth := by
  induction count : (around loops l).length using Nat.strongRecOn generalizing l depth with
  | ind i ih =>
      cases found : smallest? (around loops l) with
      | none =>
          have parent : (place loops l).parent = none := by
            rw [place, found]
            rfl
          rw [smallest?_eq_none] at found
          rw [parent, ← count, found]
          exact mem_climb_none
      | some p =>
          have perm := (family.around_perm hl found).length_eq
          have hp := (mem_around.mp (smallest?_mem found)).1
          have parent : (place loops l).parent = some p.header := by
            rw [place, found]
            rfl
          rw [List.length_cons] at perm
          have total : depth + i = depth + 1 + (around loops p).length := by omega
          rw [parent, climb_some, find?_place family hp, Option.bind_some, total]
          exact ih _ (by omega) hp (depth + 1) rfl

/-- The loops are nested as their bodies are. -/
theorem mem_nest (family : Family g entry loops) :
    loops.map (LoopForest.nest loops) ∈ nest loops := by
  have depths : ∀ l ∈ loops, LoopForest.nest loops l ∈
      withDepth (loops.map (place loops)) (place loops l) := by
    intro l hl
    have climbed := mem_climb family hl 0
    rw [Nat.zero_add] at climbed
    exact Part.mem_map _ climbed
  rw [nest, withParents_eq family.nodup, List.mapM_map]
  exact mem_mapM depths

end LoopGrowth

end RangeFlow
