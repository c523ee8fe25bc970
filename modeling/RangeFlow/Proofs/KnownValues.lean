import RangeFlow.Proofs.ForwardOrder
import RangeFlow.Proofs.MergeResults

/-! # Names whose values are known

While a loop goes round, the values that its names have from the round before need not agree any
more with what is said of them in terms of names that have got new values. So in each state of an
execution only some names count as known: their ranges hold their values, and mention only known
names that are set before. When names are set, those that are set after them are forgotten. What is
set on every way to a point is not, and that is all that can be read there.
-/

namespace RangeFlow

variable {S known : NameId → Prop} {ty : ScalarType} {env env' : Env} {v : Int}

namespace Query

variable {q : Query} {vr : ValueRange}

theorem Describes.mono {S' : NameId → Prop} (h : q.Describes S env ty vr v)
    (more : ∀ n, S n → S' n) : q.Describes S' env ty vr v :=
  ⟨h.holds, h.names.mono more, h.equal⟩

/-- What a range says depends only on the values of the names that it mentions. -/
theorem Describes.congr (h : q.Describes S env ty vr v) (same : ∀ n, S n → env' n = env n) :
    q.Describes S env' ty vr v := by
  have total : ∀ n, S n → env'.total n = env.total n := by
    intro n hn
    rw [Env.total, Env.total, same n hn]
  refine ⟨?_, h.names, fun m hm => ?_⟩
  · refine (ValueRange.holds_congr fun n mentioned => total n ?_).mpr h.holds
    exact ValueRange.namesIn_iff.mp h.names n mentioned
  · rw [total m (h.names.2 m hm)]
    exact h.equal m hm

end Query

namespace RangeTable

variable {t : RangeTable} {f : Function} {rank : BlockId → Nat} {changed : NameId → Prop}

/-- The known names have values as the table says, in terms of known names that are set before. -/
def Agrees (t : RangeTable) (f : Function) (rank : BlockId → Nat) (env : Env)
    (known : NameId → Prop) : Prop :=
  ∀ n, known n → (t.typeOf n).isTracked = true →
    t.query.Describes (fun m => known m ∧ f.Precedes rank m n) env (t.typeOf n) (t.rangeOf n)
      (env.total n)

theorem Agrees.knows (h : t.Agrees f rank env known)
    (fits : ∀ n, (t.typeOf n).isTracked = true → (t.typeOf n).fits (env.total n) = true) :
    t.query.Knows known env :=
  ⟨fits, fun n hn tracked => (h n hn tracked).mono fun _ both => both.1⟩

/-- The names that are known when some names have been set: these, if they have values, and those
    known before that are not set after them. -/
def Renewed (f : Function) (rank : BlockId → Nat) (known changed : NameId → Prop) (env : Env)
    (n : NameId) : Prop :=
  changed n ∧ (env n).isSome = true ∨
    known n ∧ ¬ changed n ∧ ∀ c, changed c → ¬ f.Precedes rank c n

/-- When the names of one place are set, the table agrees with the new values, if it describes them
    in terms of names that were known and are set before. -/
theorem Agrees.renew (h : t.Agrees f rank env known) {q : BlockId × Nat}
    (place : ∀ n, changed n → f.place? n = some q) (kept : ∀ n, ¬ changed n → env' n = env n)
    (new : ∀ n, changed n → (env' n).isSome = true → (t.typeOf n).isTracked = true →
      t.query.Describes (fun m => known m ∧ f.Precedes rank m n) env (t.typeOf n) (t.rangeOf n)
        (env'.total n)) :
    t.Agrees f rank env' (Renewed f rank known changed env') := by
  -- what precedes a name at that place, or one that is not set after it, is not set after it either
  have before : ∀ n m, changed n ∨ (∀ c, changed c → ¬ f.Precedes rank c n) →
      known m ∧ f.Precedes rank m n → ¬ changed m ∧ Renewed f rank known changed env' m := by
    rintro n m unaffected ⟨hm, precedes⟩
    have apart : ∀ c, changed c → ¬ f.Precedes rank c n := by
      rcases unaffected with set | apart
      · exact fun c hc => Function.not_precedes (place c hc) (place n set)
      · exact apart
    have other : ¬ changed m := fun set => apart m set precedes
    exact ⟨other, .inr ⟨hm, other, fun c hc first => apart c hc (first.trans precedes)⟩⟩
  have transport : ∀ n, changed n ∨ (∀ c, changed c → ¬ f.Precedes rank c n) →
      ∀ {vr v}, t.query.Describes (fun m => known m ∧ f.Precedes rank m n) env (t.typeOf n) vr v →
      t.query.Describes (fun m => Renewed f rank known changed env' m ∧ f.Precedes rank m n) env'
        (t.typeOf n) vr v := by
    intro n unaffected vr v describes
    refine (describes.congr fun m hm => kept m (before n m unaffected hm).1).mono fun m hm => ?_
    exact ⟨(before n m unaffected hm).2, hm.2⟩
  rintro n (⟨set, hasValue⟩ | ⟨hn, other, apart⟩) tracked
  · exact transport n (.inl set) (new n set hasValue tracked)
  · have value : env'.total n = env.total n := by
      rw [Env.total, Env.total, kept n other]
    rw [value]
    exact transport n (.inr apart) (h n hn tracked)

end RangeTable

end RangeFlow
