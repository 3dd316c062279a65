import Mahimahi.Library.Catchup
import Mathlib.Order.Basic

/-!
# Link — the delivery schedule

A `Schedule` is what `LinkQueue`'s constructor accepts: a non-empty, nondecreasing list of times in
milliseconds whose last entry is positive.  `opportunity repeats k` is the time of the `k`-th
delivery opportunity: one pass over the list, or pass after pass, each starting at the last entry of
the one before.

Times are natural numbers: the program keeps them in 64 bits, which no run of it exceeds.
-/

open Catchup

namespace Mahimahi

structure Schedule where
  times : List Nat
  nonempty : times ≠ []
  sorted : times.Pairwise (· ≤ ·)
  last_pos : 0 < times.getLast nonempty

namespace Schedule

variable (sched : Schedule)

def size : Nat := sched.times.length

theorem size_pos : 0 < sched.size := List.length_pos_iff.mpr sched.nonempty

/-- `schedule_.at( i )` -/
def entry (i : Fin sched.size) : Nat := sched.times[i.val]

/-- `schedule_.back()` -/
def back : Nat := sched.times.getLast sched.nonempty

def opportunity (repeats : Bool) (k : Nat) : Option Nat :=
  if repeats = true ∨ k < sched.size then
    some (sched.entry ⟨k % sched.size, Nat.mod_lt _ sched.size_pos⟩ + k / sched.size * sched.back)
  else none

variable {sched}

theorem entry_mono {i j : Fin sched.size} (h : i ≤ j) : sched.entry i ≤ sched.entry j := by
  rcases Nat.eq_or_lt_of_le (show i.val ≤ j.val from h) with heq | hlt
  · rw [Fin.ext heq]
  · exact List.pairwise_iff_getElem.mp sched.sorted i j i.isLt j.isLt hlt

theorem entry_last {i : Fin sched.size} (h : i.val + 1 = sched.size) :
    sched.entry i = sched.back := by
  unfold entry back
  rw [List.getLast_eq_getElem]
  congr 1
  unfold size at h
  omega

theorem opportunity_mono {repeats : Bool} {k b : Nat}
    (h : sched.opportunity repeats (k + 1) = some b) :
    ∃ a, sched.opportunity repeats k = some a ∧ a ≤ b := by
  have hpos := sched.size_pos
  unfold opportunity at h
  split at h
  · rename_i hcond
    cases h
    refine ⟨_, if_pos (hcond.imp_right fun hlt => by omega), ?_⟩
    by_cases hwrap : (k + 1) % sched.size = 0
    · -- the next opportunity is the first of the next pass
      have hk : k % sched.size + 1 = sched.size := by
        have := Nat.mod_lt k hpos
        rcases Nat.lt_or_ge (k % sched.size + 1) sched.size with hlt | hge
        · rw [Nat.add_mod, Nat.mod_eq_of_lt (a := 1) (by omega), Nat.mod_eq_of_lt hlt] at hwrap
          omega
        · omega
      have hdiv : (k + 1) / sched.size = k / sched.size + 1 := Nat.succ_div_of_mod_eq_zero hwrap
      rw [entry_last (i := ⟨k % sched.size, _⟩) hk, hdiv, Nat.add_mul, Nat.one_mul]
      omega
    · have hdiv : (k + 1) / sched.size = k / sched.size := Nat.succ_div_of_mod_ne_zero hwrap
      have hmod : (k + 1) % sched.size = k % sched.size + 1 := by
        have h₁ := Nat.div_add_mod (k + 1) sched.size
        have h₂ := Nat.div_add_mod k sched.size
        rw [hdiv] at h₁
        omega
      rw [hdiv]
      exact Nat.add_le_add_right (entry_mono (by simp [Fin.le_def, hmod])) _
  · cases h

/-- Every pass takes at least a millisecond. -/
theorem opportunity_ge {repeats : Bool} {k a : Nat} (h : sched.opportunity repeats k = some a) :
    k / sched.size ≤ a := by
  unfold opportunity at h
  split at h
  · cases h
    have hback : 0 < sched.back := sched.last_pos
    calc k / sched.size = k / sched.size * 1 := (Nat.mul_one _).symm
      _ ≤ k / sched.size * sched.back := Nat.mul_le_mul_left _ hback
      _ ≤ _ := Nat.le_add_left _ _
  · cases h

variable (sched)

/-- More than the number of opportunities up to `now`. -/
def passes (now : Nat) : Nat := sched.size * (now + 1)

def deadlines (repeats : Bool) : Deadlines where
  time := sched.opportunity repeats
  mono _ _ := opportunity_mono
  bound := sched.passes
  bound_spec now a h := by
    have hge := opportunity_ge h
    rw [passes, Nat.mul_div_cancel_left _ sched.size_pos] at hge
    omega

/-- The times of the first `k` opportunities. -/
def first (repeats : Bool) (k : Nat) : List Nat :=
  (List.range k).filterMap (sched.opportunity repeats)

/-- The times of the opportunities up to `now`. -/
def upTo (repeats : Bool) (now : Nat) : List Nat :=
  sched.first repeats ((sched.deadlines repeats).upto now)

variable {sched} {repeats : Bool}

theorem first_succ {k t : Nat} (h : sched.opportunity repeats k = some t) :
    sched.first repeats (k + 1) = sched.first repeats k ++ [t] := by
  simp [first, List.range_succ, h]

theorem le_of_mem_upTo {now t : Nat} (h : t ∈ sched.upTo repeats now) : t ≤ now := by
  obtain ⟨j, hj, ht⟩ := List.mem_filterMap.mp h
  obtain ⟨a, ha, hle⟩ := Deadlines.due_iff.mp (Deadlines.lt_upto_iff.mp (List.mem_range.mp hj))
  cases ht.symm.trans ha
  exact hle

/-- The first opportunities are those up to `now`, and later ones. -/
theorem first_split {now k : Nat} (h : (sched.deadlines repeats).upto now ≤ k) :
    ∃ us, sched.first repeats k = sched.upTo repeats now ++ us ∧ ∀ u ∈ us, now < u := by
  obtain ⟨n, rfl⟩ := Nat.exists_eq_add_of_le h
  refine ⟨_, by rw [first, List.range_add, List.filterMap_append]; rfl, fun u hu => ?_⟩
  obtain ⟨j, hj, ht⟩ := List.mem_filterMap.mp hu
  obtain ⟨i, -, rfl⟩ := List.mem_map.mp hj
  exact Deadlines.lt_time (D := sched.deadlines repeats) (Nat.le_add_right _ _) ht

/-! ### Counting opportunities -/

theorem entry_le_back (i : Fin sched.size) : sched.entry i ≤ sched.back := by
  have hlast : sched.size - 1 < sched.size := Nat.sub_lt sched.size_pos Nat.one_pos
  rw [← entry_last (i := ⟨sched.size - 1, hlast⟩) (Nat.sub_add_cancel sched.size_pos)]
  exact entry_mono (Nat.le_sub_one_of_lt i.isLt)

/-- Without repetition the opportunities are the entries. -/
theorem opportunity_false (sched : Schedule) (k : Nat) :
    sched.opportunity false k = sched.times[k]? := by
  unfold opportunity
  by_cases hlt : k < sched.size
  · have hmod : ∀ i : Fin sched.size, i.val = k → sched.entry i = sched.times[k] := by
      rintro i rfl
      rfl
    rw [if_pos (.inr hlt), Nat.div_eq_of_lt hlt, Nat.zero_mul, Nat.add_zero,
      hmod _ (Nat.mod_eq_of_lt hlt), List.getElem?_eq_getElem (show k < sched.times.length from hlt)]
    rfl
  · rw [if_neg (by simp [hlt]), List.getElem?_eq_none (Nat.not_lt.mp hlt)]

theorem lt_upto_false {now k : Nat} :
    k < (sched.deadlines false).upto now ↔ ∃ t, sched.times[k]? = some t ∧ t ≤ now := by
  rw [Deadlines.lt_upto_iff, Deadlines.due_iff, ← opportunity_false]
  rfl

/-- **A repeated trace**: whole passes, and what is due in the last one. -/
theorem upto_true (now : Nat) : (sched.deadlines true).upto now =
    now / sched.back * sched.size + (sched.deadlines false).upto (now % sched.back) := by
  refine eq_of_forall_lt_iff fun k => ?_
  have hsize := sched.size_pos
  have hback : 0 < sched.back := sched.last_pos
  have hk := Nat.div_add_mod k sched.size
  have hnow := Nat.div_add_mod now sched.back
  have hi := Nat.mod_lt k hsize
  have hr := Nat.mod_lt now hback
  have hentry : ∀ h, sched.times[k % sched.size]? = some (sched.entry ⟨k % sched.size, h⟩) :=
    fun h => List.getElem?_eq_getElem h
  have hle := entry_le_back ⟨k % sched.size, hi⟩
  have hlast : (sched.deadlines false).upto (now % sched.back) ≤ sched.size := by
    by_contra hlt
    obtain ⟨t, ht, -⟩ := lt_upto_false.mp (Nat.not_le.mp hlt)
    have hnone : sched.times[sched.size]? = none := List.getElem?_eq_none (Nat.le_refl _)
    exact nomatch hnone.symm.trans ht
  have hdue : k < (sched.deadlines true).upto now ↔
      sched.entry ⟨k % sched.size, hi⟩ + k / sched.size * sched.back ≤ now := by
    rw [Deadlines.lt_upto_iff, Deadlines.due_iff]
    show (∃ a, sched.opportunity true k = some a ∧ a ≤ now) ↔ _
    rw [opportunity, if_pos (.inl rfl)]
    simp
  have hpass : k % sched.size < (sched.deadlines false).upto (now % sched.back) ↔
      sched.entry ⟨k % sched.size, hi⟩ ≤ now % sched.back := by
    rw [lt_upto_false, hentry hi]
    simp
  rw [hdue]
  generalize sched.entry ⟨k % sched.size, hi⟩ = e at hle hpass
  generalize (sched.deadlines false).upto (now % sched.back) = d at hlast hpass
  generalize k % sched.size = i at hk hi hpass
  generalize now % sched.back = r at hnow hr hpass
  generalize k / sched.size = p at hk
  generalize now / sched.back = q at hnow
  rcases Nat.lt_trichotomy p q with hlt | rfl | hgt
  · have h₁ : (p + 1) * sched.back ≤ q * sched.back := Nat.mul_le_mul_right _ hlt
    have h₂ : (p + 1) * sched.size ≤ q * sched.size := Nat.mul_le_mul_right _ hlt
    rw [Nat.add_mul, Nat.one_mul] at h₁ h₂
    rw [Nat.mul_comm] at hk hnow
    refine iff_of_true ?_ ?_ <;> omega
  · rw [Nat.mul_comm] at hk hnow
    omega
  · have h₁ : (q + 1) * sched.back ≤ p * sched.back := Nat.mul_le_mul_right _ hgt
    have h₂ : (q + 1) * sched.size ≤ p * sched.size := Nat.mul_le_mul_right _ hgt
    rw [Nat.add_mul, Nat.one_mul] at h₁ h₂
    rw [Nat.mul_comm] at hk hnow
    refine iff_of_false ?_ ?_ <;> omega

end Schedule

end Mahimahi
