import Mathlib.Data.Nat.Find
import Mathlib.Order.Lattice
import Mathlib.Order.Monotone.Basic

/-!
# Library — how many times have come

`DueBy time t n` says that of the times `time 0`, `time 1`, … exactly the first `n` are not after
`t`.

* `DueBy.mono`: the number grows with `t`.
* `exists_dueBy_iff`: times in order have such a number exactly when they go beyond `t`.
-/

namespace Due

universe u

variable {τ : Type u} [LinearOrder τ] {time : Nat → τ} {t t' : τ} {m n : Nat}

/-- The deadlines that have come by `t` are the first `n`. -/
def DueBy (time : Nat → τ) (t : τ) (n : Nat) : Prop := ∀ k, time k ≤ t ↔ k < n

/-- Later, no fewer deadlines have come. -/
theorem DueBy.mono (h : DueBy time t m) (h' : DueBy time t' n) (ht : t ≤ t') : m ≤ n := by
  refine Nat.not_lt.mp fun hlt => Nat.lt_irrefl n ((h' n).mp ?_)
  exact ((h n).mpr hlt).trans ht

/-- For deadlines in order it is enough to look at the last one that has come and the next one. -/
theorem dueBy_of (hmono : Monotone time) (hbefore : ∀ k < n, time k ≤ t) (hafter : t < time n) :
    DueBy time t n := by
  refine fun k => ⟨fun hk => Nat.not_le.mp fun hle => ?_, hbefore k⟩
  exact (hafter.trans_le (hmono hle)).not_ge hk

/-- There is such a number exactly when the deadlines come to be later than `t` at some point. -/
theorem exists_dueBy_iff (hmono : Monotone time) : (∃ n, DueBy time t n) ↔ ∃ k, t < time k := by
  constructor
  · rintro ⟨n, hn⟩
    exact ⟨n, not_le.mp fun hle => Nat.lt_irrefl n ((hn n).mp hle)⟩
  · intro h
    classical
    exact ⟨Nat.find h, dueBy_of hmono (fun k hk => not_lt.mp (Nat.find_min h hk)) (Nat.find_spec h)⟩

end Due
