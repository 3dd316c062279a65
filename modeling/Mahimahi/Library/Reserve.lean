import Mathlib.Algebra.BigOperators.Group.List.Basic
import Mathlib.Algebra.Order.Ring.Defs
import Mathlib.Order.Bounds.Basic
import Mathlib.Order.Nat
import Mathlib.Tactic.Linarith
import Mathlib.Tactic.Ring

/-!
# Library — a reserve that is paid out

Amounts, of either sign, are added to a reserve.  Whenever the reserve holds `size`, that much is
paid out of it, and the number of amounts before is noted.

* `Paid.add`: payment number `m` is made as soon as the amounts so far have come to `m + 1` times
  `size`.
-/

namespace Reserve

universe u

variable {K : Type u} [CommRing K] [LinearOrder K] {size reserve amount : K}
  {amounts : List K} {times : List Nat} {n m t : Nat}

/-- After `n` payments the reserve holds less than another one. -/
structure Pays (size reserve : K) (n : Nat) : Prop where
  enough : ∀ i < n, size ≤ reserve - i * size
  left : reserve - n * size < size

/-- A reserve that is smaller than the price pays nothing. -/
theorem Pays.zero (h : reserve < size) : Pays size reserve 0 where
  enough i hi := absurd hi (Nat.not_lt_zero i)
  left := by rwa [Nat.cast_zero, zero_mul, sub_zero]

/-- The moments at which the amounts so far come to `m + 1` times `size`. -/
def reached (size : K) (amounts : List K) (m : Nat) : Set Nat :=
  {t | t < amounts.length ∧ (m + 1 : Nat) * size ≤ (amounts.take (t + 1)).sum}

/-- What is left of the amounts, and when payments were made. -/
structure Paid (size : K) (amounts : List K) (reserve : K) (times : List Nat) : Prop where
  left : reserve = amounts.sum - times.length * size
  times : ∀ m t, times[m]? = some t ↔ IsLeast (reached size amounts m) t

theorem paid_nil : Paid size [] 0 [] where
  left := by simp
  times m t := by
    refine iff_of_false (by simp) fun h => ?_
    exact absurd h.1.1 (Nat.not_lt_zero t)

/-- One more amount adds its own index at most to where a payment has been reached. -/
theorem mem_reached_append : t ∈ reached size (amounts ++ [amount]) m ↔
    t ∈ reached size amounts m ∨
      (t = amounts.length ∧ (m + 1 : Nat) * size ≤ amounts.sum + amount) := by
  unfold reached
  simp only [Set.mem_ofPred_eq, List.length_append, List.length_singleton]
  rcases Nat.lt_trichotomy t amounts.length with hlt | rfl | hgt
  · rw [List.take_append_of_le_length hlt]
    refine ⟨fun h => .inl ⟨hlt, h.2⟩, ?_⟩
    rintro (h | ⟨rfl, -⟩)
    · exact ⟨Nat.lt_succ_of_lt hlt, h.2⟩
    · exact absurd hlt (Nat.lt_irrefl _)
  · rw [List.take_of_length_le (by simp), List.sum_append, List.sum_singleton]
    simp
  · refine iff_of_false (fun h => ?_) ?_
    · have := h.1
      omega
    · rintro (h | ⟨rfl, -⟩)
      · exact absurd h.1 (Nat.not_lt.mpr hgt.le)
      · exact absurd hgt (Nat.lt_irrefl _)

/-- A payment that was not made could not be made. -/
theorem Paid.none_iff (h : Paid size amounts reserve times) :
    times[m]? = none ↔ reached size amounts m = ∅ := by
  classical
  constructor
  · intro hnone
    refine Set.eq_empty_iff_forall_notMem.mpr fun t ht => ?_
    have hex : ∃ t, t ∈ reached size amounts m := ⟨t, ht⟩
    have hleast : IsLeast (reached size amounts m) (Nat.find hex) :=
      ⟨Nat.find_spec hex, fun u hu => Nat.find_min' hex hu⟩
    exact nomatch hnone.symm.trans ((h.times m _).mpr hleast)
  · intro hempty
    refine Option.eq_none_iff_forall_ne_some.mpr fun t ht => ?_
    have hmem := ((h.times m t).mp ht).1
    rw [hempty] at hmem
    exact hmem

variable [IsStrictOrderedRing K]

/-- The payments that are made are those that the reserve comes to. -/
theorem Pays.lt_iff (h : Pays size reserve n) (hsize : 0 ≤ size) :
    m < n ↔ (m + 1 : Nat) * size ≤ reserve := by
  rw [Nat.cast_succ, add_mul, one_mul]
  constructor
  · intro hlt
    have := h.enough m hlt
    linarith
  · intro hle
    by_contra hge
    have hmul : (n : K) * size ≤ m * size :=
      mul_le_mul_of_nonneg_right (Nat.cast_le.mpr (Nat.not_lt.mp hge)) hsize
    have := h.left
    linarith

/-- A payment made first, and the payments from what is left. -/
theorem Pays.succ (h : Pays size (reserve - size) n) (hle : size ≤ reserve) :
    Pays size reserve (n + 1) where
  enough i hi := by
    cases i with
    | zero => rwa [Nat.cast_zero, zero_mul, sub_zero]
    | succ i =>
        have := h.enough i (Nat.lt_of_succ_lt_succ hi)
        rw [Nat.cast_succ, add_one_mul]
        linarith
  left := by
    have := h.left
    rw [Nat.cast_succ, add_one_mul]
    linarith

/-- **One more amount**: what can be paid is paid now. -/
theorem Paid.add (h : Paid size amounts reserve times) (hsize : 0 ≤ size)
    (hpays : Pays size (reserve + amount) n) :
    Paid size (amounts ++ [amount]) (reserve + amount - n * size)
      (times ++ List.replicate n amounts.length) where
  left := by
    rw [List.length_append, List.length_replicate, List.sum_append, List.sum_singleton, h.left,
      Nat.cast_add]
    ring
  times m t := by
    rcases Nat.lt_or_ge m times.length with hlt | hge
    · obtain ⟨t₀, ht₀⟩ : ∃ t₀, times[m]? = some t₀ := ⟨_, List.getElem?_eq_getElem hlt⟩
      have hold := (h.times m t₀).mp ht₀
      have hnew : IsLeast (reached size (amounts ++ [amount]) m) t₀ := by
        refine ⟨mem_reached_append.mpr (.inl hold.1), fun u hu => ?_⟩
        rcases mem_reached_append.mp hu with hu | ⟨rfl, -⟩
        · exact hold.2 hu
        · exact hold.1.1.le
      rw [List.getElem?_append_left hlt, ht₀]
      exact ⟨fun heq => Option.some.inj heq ▸ hnew, fun hleast => congrArg some (hnew.unique hleast)⟩
    · have hempty := h.none_iff.mp (List.getElem?_eq_none hge)
      have hset : ∀ u, u ∈ reached size (amounts ++ [amount]) m ↔
          u = amounts.length ∧ (m + 1 : Nat) * size ≤ amounts.sum + amount := fun u => by
        rw [mem_reached_append, hempty]
        simp
      have hpay : m - times.length < n ↔ (m + 1 : Nat) * size ≤ amounts.sum + amount := by
        have hcast : ((m - times.length + 1 : Nat) : K) = (m + 1 : Nat) - (times.length : Nat) := by
          rw [Nat.cast_succ, Nat.cast_sub hge, Nat.cast_succ]
          ring
        rw [hpays.lt_iff hsize, h.left, hcast, sub_mul]
        constructor <;> intro hle <;> linarith
      rw [List.getElem?_append_right hge, List.getElem?_replicate]
      by_cases hm : m - times.length < n
      · rw [if_pos hm]
        constructor
        · rintro ⟨⟩
          exact ⟨(hset _).mpr ⟨rfl, hpay.mp hm⟩, fun u hu => ((hset u).mp hu).1.ge⟩
        · exact fun hleast => congrArg some ((hset t).mp hleast.1).1.symm
      · rw [if_neg hm]
        exact iff_of_false (by simp) fun hleast => hm (hpay.mpr ((hset t).mp hleast.1).2)

/-- The payments are made in order. -/
theorem Paid.sorted (h : Paid size amounts reserve times) (hsize : 0 ≤ size) :
    times.Pairwise (· ≤ ·) := by
  refine List.pairwise_iff_getElem.mpr fun i j hi hj hlt => ?_
  have hi' := (h.times i _).mp (List.getElem?_eq_getElem hi)
  have hj' := (h.times j _).mp (List.getElem?_eq_getElem hj)
  refine hi'.2 ⟨hj'.1.1, le_trans ?_ hj'.1.2⟩
  exact mul_le_mul_of_nonneg_right (Nat.cast_le.mpr (Nat.succ_le_succ hlt.le)) hsize

end Reserve
