import Mathlib.Data.Nat.Find

/-!
# Library — catching up with deadlines

A process has a sequence of deadlines, nondecreasing and perhaps finite.  It is not woken at each:
at every visit it first fires, one after another, all deadlines that are due by then and have not
been fired.

* `lt_upto_iff`: the deadlines due at `now` are the first `upto now` of them.
* `effects_eq`: the sequence of firings and inputs that a list of visits makes depends only on its
  inputs and on the clock at which each deadline is fired; visits that only fire can be added,
  removed or moved as long as no deadline is fired at another reading.
-/

namespace Catchup

universe u

/-- Deadlines in their order.  There may be no end of them; those due at `now` come before `bound
now`. -/
structure Deadlines where
  time : Nat → Option Nat
  mono : ∀ k b, time (k + 1) = some b → ∃ a, time k = some a ∧ a ≤ b
  /-- an index whose deadline is not due at the given time -/
  bound : Nat → Nat
  bound_spec : ∀ now a, time (bound now) = some a → now < a

namespace Deadlines

variable (D : Deadlines)

/-- Deadline `k` has been reached at `now`. -/
def due (now k : Nat) : Bool :=
  match D.time k with
  | some a => decide (a ≤ now)
  | none => false

/-- The number of deadlines due at `now`. -/
def upto (now : Nat) : Nat := (List.range (D.bound now)).countP (D.due now)

variable {D}

theorem due_iff {now k : Nat} : D.due now k = true ↔ ∃ a, D.time k = some a ∧ a ≤ now := by
  unfold due
  cases D.time k <;> simp

/-- The deadlines that are due are the first ones. -/
theorem due_of_le {now j k : Nat} (hjk : j ≤ k) (h : D.due now k = true) : D.due now j = true := by
  induction k, hjk using Nat.le_induction with
  | base => exact h
  | succ k _ ih =>
      obtain ⟨b, hb, hle⟩ := due_iff.mp h
      obtain ⟨a, ha, hab⟩ := D.mono k b hb
      exact ih (due_iff.mpr ⟨a, ha, Nat.le_trans hab hle⟩)

theorem due_mono {now now' k : Nat} (h : now ≤ now') (hk : D.due now k = true) :
    D.due now' k = true := by
  obtain ⟨a, ha, hle⟩ := due_iff.mp hk
  exact due_iff.mpr ⟨a, ha, Nat.le_trans hle h⟩

/-- The deadline at the bound is not due, so a search need not go further. -/
theorem not_due_bound (now : Nat) : D.due now (D.bound now) = false := by
  rw [← Bool.not_eq_true, due_iff]
  rintro ⟨a, ha, hle⟩
  have := D.bound_spec now a ha
  omega

theorem countP_range_lt (n m : Nat) : (List.range n).countP (fun k => decide (k < m)) = min n m := by
  induction n with
  | zero => simp
  | succ n ih =>
      rw [List.range_succ, List.countP_append, ih, List.countP_singleton]
      split <;> simp_all <;> omega

/-- The deadlines due are the first few. -/
theorem exists_due_iff_lt (now : Nat) : ∃ m, m ≤ D.bound now ∧ ∀ k, D.due now k = true ↔ k < m := by
  have hex : ∃ m, D.due now m = false := ⟨_, not_due_bound now⟩
  refine ⟨Nat.find hex, Nat.find_min' hex (not_due_bound now), fun k => ⟨fun h => ?_, fun h => ?_⟩⟩
  · by_contra hge
    have := due_of_le (Nat.le_of_not_lt hge) h
    rw [Nat.find_spec hex] at this
    cases this
  · simpa using Nat.find_min hex h

/-- **There are `upto now` of them.** -/
theorem lt_upto_iff {now k : Nat} : k < D.upto now ↔ D.due now k = true := by
  obtain ⟨m, hm, hdue⟩ := exists_due_iff_lt (D := D) now
  have hfun : D.due now = fun k => decide (k < m) := by
    funext k
    rw [Bool.eq_iff_iff, hdue, decide_eq_true_eq]
  rw [upto, hfun, countP_range_lt, Nat.min_eq_right hm, decide_eq_true_eq]

theorem upto_mono {now now' : Nat} (h : now ≤ now') : D.upto now ≤ D.upto now' := by
  by_contra hlt
  have := due_mono h (lt_upto_iff.mp (Nat.lt_of_not_le hlt))
  exact absurd (lt_upto_iff.mpr this) (Nat.lt_irrefl _)

/-- The deadlines that are not among the first `upto now` are later than `now`. -/
theorem lt_time {now k a : Nat} (hk : D.upto now ≤ k) (ha : D.time k = some a) : now < a := by
  by_contra hle
  have := lt_upto_iff.mpr (due_iff.mpr ⟨a, ha, Nat.le_of_not_lt hle⟩)
  omega

end Deadlines

/-! ### Visits -/

/-- What a visit makes happen. -/
inductive Effect (ι : Type u) where
  | fire (now : Nat)
  | input (i : ι)

/-- A visit: the clock it reads and the input it brings, if any. -/
abbrev Visit (ι : Type u) : Type u := Nat × Option ι

variable {ι : Type u}

/-- The inputs, each with the clock reading of its visit. -/
def inputs (visits : List (Visit ι)) : List (Nat × ι) :=
  visits.filterMap fun v => v.2.map fun i => (v.1, i)

/-- Firings and inputs in the order in which they happen: at one reading firings come first. -/
def weave : List Nat → List (Nat × ι) → List (Effect ι)
  | firings, [] => firings.map .fire
  | firings, (now, i) :: inputs =>
      (firings.takeWhile (· ≤ now)).map .fire ++
        .input i :: weave (firings.dropWhile (· ≤ now)) inputs

/-- What is due before every input comes first in the weave. -/
theorem weave_append {early late : List Nat} {inputs : List (Nat × ι)}
    (h : ∀ t ∈ early, ∀ x ∈ inputs, t ≤ x.1) :
    weave (early ++ late) inputs = early.map .fire ++ weave late inputs := by
  cases inputs with
  | nil => rw [weave, weave, List.map_append]
  | cons x inputs =>
      obtain ⟨now, i⟩ := x
      have hle : ∀ t ∈ early, decide (t ≤ now) = true :=
        fun t ht => by simpa using h t ht (now, i) List.mem_cons_self
      rw [weave, weave, List.takeWhile_append_of_pos hle, List.dropWhile_append_of_pos hle,
        List.map_append, List.append_assoc]

/-- An input before which no firing is left. -/
theorem weave_late {late : List Nat} {inputs : List (Nat × ι)} {now : Nat} {i : ι}
    (h : ∀ t ∈ late, now < t) :
    weave late ((now, i) :: inputs) = .input i :: weave late inputs := by
  cases late with
  | nil => rfl
  | cons t late =>
      have hlt : ¬ t ≤ now := Nat.not_le.mpr (h t List.mem_cons_self)
      simp [weave, hlt]

/-! ### What a list of visits makes happen -/

namespace Deadlines

variable {D : Deadlines}

variable (D) in
/-- The effects of a list of visits once `k` deadlines have been fired. -/
def effects : Nat → List (Visit ι) → List (Effect ι)
  | _, [] => []
  | k, (now, i) :: visits =>
      List.replicate (D.upto now - k) (.fire now) ++ i.toList.map .input ++
        effects (max k (D.upto now)) visits

variable (D) in
/-- The clock readings at which the deadlines from the `k`-th on are fired. -/
def firings : Nat → List (Visit ι) → List Nat
  | _, [] => []
  | k, (now, _) :: visits =>
      List.replicate (D.upto now - k) now ++ firings (max k (D.upto now)) visits

variable (D) in
/-- The clock reading at which the `k`-th deadline is fired: the first at which it is due. -/
def firedAt (k : Nat) (clocks : List Nat) : Option Nat := clocks.find? fun now => D.due now k

/-- The firings of a run from deadline `k` on, one by one. -/
theorem firings_getElem? (visits : List (Visit ι)) :
    ∀ k j : Nat, (D.firings k visits)[j]? = D.firedAt (k + j) (visits.map Prod.fst) := by
  induction visits with
  | nil => intro k j; rfl
  | cons v visits ih =>
      intro k j
      obtain ⟨now, i⟩ := v
      have hdue : D.due now (k + j) = true ↔ j < D.upto now - k := by
        rw [← lt_upto_iff]; omega
      rw [firings, firedAt, List.map_cons, List.find?_cons]
      rcases Nat.lt_or_ge j (D.upto now - k) with hlt | hge
      · rw [hdue.mpr hlt, List.getElem?_append_left (by simpa using hlt),
          List.getElem?_replicate_of_lt hlt]
      · have hnot : D.due now (k + j) = false := by
          rw [← Bool.not_eq_true, hdue]; omega
        rw [hnot, List.getElem?_append_right (by simpa using hge), List.length_replicate, ih]
        have hk : max k (D.upto now) + (j - (D.upto now - k)) = k + j := by omega
        rw [hk]
        rfl

/-- After a visit, deadlines are fired at later readings only. -/
theorem lt_firings {visits : List (Visit ι)} {now k : Nat} (hk : D.upto now ≤ k) :
    ∀ t ∈ D.firings k visits, now < t := by
  induction visits generalizing k with
  | nil => intro t ht; cases ht
  | cons v visits ih =>
      obtain ⟨now', i⟩ := v
      intro t ht
      rcases List.mem_append.mp ht with ht | ht
      · obtain ⟨hpos, rfl⟩ := List.mem_replicate.mp ht
        by_contra hle
        have := D.upto_mono (Nat.le_of_not_lt hle)
        omega
      · exact ih (Nat.le_trans hk (Nat.le_max_left _ _)) t ht

/-- What a run does is what its deadlines and its inputs do in the order of their times, whatever
the times of its visits. -/
theorem effects_eq_weave {visits : List (Visit ι)} (hv : (visits.map Prod.fst).Pairwise (· ≤ ·)) :
    ∀ k, D.effects k visits = weave (D.firings k visits) (inputs visits) := by
  induction visits with
  | nil => intro k; rfl
  | cons v visits ih =>
      intro k
      obtain ⟨now, i⟩ := v
      obtain ⟨hnow, hv⟩ := List.pairwise_cons.mp hv
      have hinputs : ∀ x ∈ inputs ((now, i) :: visits), now ≤ x.1 := by
        intro x hx
        obtain ⟨w, hw, hwx⟩ := List.mem_filterMap.mp hx
        obtain ⟨i, -, rfl⟩ := Option.map_eq_some_iff.mp hwx
        rcases List.mem_cons.mp hw with rfl | hw
        · exact Nat.le_refl _
        · exact hnow _ (List.mem_map_of_mem hw)
      -- this visit's firings come before every input from here on
      have hearly : ∀ t ∈ List.replicate (D.upto now - k) now,
          ∀ x ∈ inputs ((now, i) :: visits), t ≤ x.1 := by
        intro t ht x hx
        rw [(List.mem_replicate.mp ht).2]
        exact hinputs x hx
      rw [effects, firings, ih hv, weave_append hearly, List.map_replicate, List.append_assoc]
      cases i with
      | none => rfl
      | some i =>
          have hlater : ∀ t ∈ D.firings (max k (D.upto now)) visits, now < t :=
            lt_firings (Nat.le_max_right k (D.upto now))
          exact congrArg _ (weave_late hlater).symm

/-- **Only the inputs and the readings of the firings matter.** -/
theorem effects_eq {visits visits' : List (Visit ι)}
    (hv : (visits.map Prod.fst).Pairwise (· ≤ ·)) (hv' : (visits'.map Prod.fst).Pairwise (· ≤ ·))
    (hinputs : inputs visits = inputs visits')
    (hfired : ∀ k, D.firedAt k (visits.map Prod.fst) = D.firedAt k (visits'.map Prod.fst)) :
    D.effects 0 visits = D.effects 0 visits' := by
  have hfirings : D.firings 0 visits = D.firings 0 visits' := by
    apply List.ext_getElem?
    intro k
    rw [firings_getElem?, firings_getElem?, hfired]
  rw [effects_eq_weave hv, effects_eq_weave hv', hinputs, hfirings]

end Deadlines

end Catchup
