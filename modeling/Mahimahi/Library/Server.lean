import Mathlib.Data.List.Basic

/-!
# Library — an eager server

A server visits its jobs at given times.  Each visit spends a fixed `capacity`, in order of arrival,
on the jobs that arrived before it; a job that is not finished keeps its place with what is left.
All jobs are known from the start: a visit stops at the first one that has not arrived.

* `visit_late`, `serve_late`: jobs that arrive after a visit do not change it, so it does not matter
  whether they are known.
* `serve_append`: serving goes on from what is left.
* `finished_upto`: what is finished by a given time depends on the visits up to then only.
-/

namespace Server

universe u

variable {α : Type u} (arrival : α → Nat)

/-- One visit at `t`: the jobs it finishes, and the jobs left. -/
def visit (t : Nat) : Nat → List (α × Nat) → List α × List (α × Nat)
  | _, [] => ([], [])
  | budget, (a, left) :: jobs =>
      if budget = 0 ∨ t ≤ arrival a then ([], (a, left) :: jobs)
      else if left ≤ budget then
        (a :: (visit t (budget - left) jobs).1, (visit t (budget - left) jobs).2)
      else ([], (a, left - budget) :: jobs)

/-- The finished jobs, each with the time of its last visit, and the jobs left. -/
def serve (capacity : Nat) : List Nat → List (α × Nat) → List (α × Nat) × List (α × Nat)
  | [], jobs => ([], jobs)
  | t :: ts, jobs =>
      let (finished, jobs) := visit arrival t capacity jobs
      ((finished.map fun a => (a, t)) ++ (serve capacity ts jobs).1, (serve capacity ts jobs).2)

variable {arrival} {t budget left capacity : Nat} {a : α} {jobs late : List (α × Nat)}

/-- Nothing is served of an empty queue. -/
@[simp] theorem visit_nil : visit arrival t budget [] = ([], []) := by rw [visit]

/-- Nothing is served with an empty budget. -/
@[simp] theorem visit_zero : visit arrival t 0 jobs = ([], jobs) := by
  cases jobs with
  | nil => rfl
  | cons j jobs => rw [visit, if_pos (.inl rfl)]

/-- A job that is finished. -/
theorem visit_finish (hpos : 0 < budget) (harr : arrival a < t) (hle : left ≤ budget) :
    visit arrival t budget ((a, left) :: jobs) =
      (a :: (visit arrival t (budget - left) jobs).1,
        (visit arrival t (budget - left) jobs).2) := by
  rw [visit, if_neg (by omega), if_pos hle]

/-- A job that takes all of the budget and more. -/
theorem visit_start (hpos : 0 < budget) (harr : arrival a < t) (hlt : budget < left) :
    visit arrival t budget ((a, left) :: jobs) = ([], (a, left - budget) :: jobs) := by
  rw [visit, if_neg (by omega), if_neg (by omega)]

/-- Jobs that have not come yet are not served. -/
theorem visit_not_arrived (hlate : ∀ j ∈ late, t ≤ arrival j.1) :
    visit arrival t budget late = ([], late) := by
  cases late with
  | nil => rfl
  | cons j late => rw [visit, if_pos (.inr (hlate j (by simp)))]

/-- **A visit does not see the jobs that arrive after it.** -/
theorem visit_late (hlate : ∀ j ∈ late, t ≤ arrival j.1) :
    visit arrival t budget (jobs ++ late) =
      ((visit arrival t budget jobs).1, (visit arrival t budget jobs).2 ++ late) := by
  induction jobs generalizing budget with
  | nil => exact visit_not_arrived hlate
  | cons j jobs ih =>
      obtain ⟨a, left⟩ := j
      rw [List.cons_append, visit, visit]
      split
      · rfl
      · split
        · rw [ih]
        · rfl

/-- Jobs that come too late for every visit stay in the queue. -/
theorem serve_late (capacity : Nat) (jobs : List (α × Nat)) {ts : List Nat}
    (hlate : ∀ t ∈ ts, ∀ j ∈ late, t ≤ arrival j.1) :
    serve arrival capacity ts (jobs ++ late) =
      ((serve arrival capacity ts jobs).1, (serve arrival capacity ts jobs).2 ++ late) := by
  induction ts generalizing jobs with
  | nil => rfl
  | cons t ts ih =>
      simp only [serve, visit_late (hlate t (by simp))]
      rw [ih _ fun t' ht' => hlate t' (List.mem_cons_of_mem t ht')]

/-- Serving goes on from the jobs left. -/
theorem serve_append (ts us : List Nat) :
    serve arrival capacity (ts ++ us) jobs =
      ((serve arrival capacity ts jobs).1 ++
        (serve arrival capacity us (serve arrival capacity ts jobs).2).1,
       (serve arrival capacity us (serve arrival capacity ts jobs).2).2) := by
  induction ts generalizing jobs with
  | nil => rfl
  | cons t ts ih => simp only [List.cons_append, serve, ih, List.append_assoc]

/-- A single opportunity is a visit with the whole capacity. -/
theorem serve_singleton (t : Nat) :
    serve arrival capacity [t] jobs =
      ((visit arrival t capacity jobs).1.map fun a => (a, t),
        (visit arrival t capacity jobs).2) := by
  simp [serve]

/-- A job is finished at a visit. -/
theorem mem_serve {ts : List Nat} {x : α × Nat} (hx : x ∈ (serve arrival capacity ts jobs).1) :
    x.2 ∈ ts := by
  induction ts generalizing jobs with
  | nil => cases hx
  | cons t ts ih =>
      rcases List.mem_append.mp hx with hx | hx
      · obtain ⟨a, -, rfl⟩ := List.mem_map.mp hx
        exact List.mem_cons_self
      · exact List.mem_cons_of_mem t (ih hx)

/-- **What is finished by a time** is what the visits up to then finish. -/
theorem finished_upto {ts us : List Nat} (hts : ∀ u ∈ ts, u ≤ t) (hus : ∀ u ∈ us, t < u) :
    (serve arrival capacity (ts ++ us) jobs).1.filter (fun x => decide (x.2 ≤ t)) =
      (serve arrival capacity ts jobs).1 := by
  rw [serve_append, List.filter_append, List.filter_eq_self.mpr, List.filter_eq_nil_iff.mpr,
    List.append_nil]
  · intro x hx
    have := hus _ (mem_serve hx)
    simpa using this
  · intro x hx
    simpa using hts _ (mem_serve hx)

end Server
