import Mahimahi.Library.Runs

/-!
# Library — loops that end

A `Loop` is a fallible step that goes on with a state or stops with a result, and a measure that is
smaller after every step that goes on.  `run` repeats the step until it stops.

* `ends`: from every state, the loop comes to one where it does not go on.
* `run_ok_iff`, `run_error_iff`: what a run returns is what the step does in a state it reaches.
* `ensures_run`: what the steps ensure, a run ensures.
* `Reaches.lift`: a map of states that the steps respect maps runs to runs.
-/

open Fallible

namespace Loops

universe u v w

/-- What an iteration of a loop comes to: another iteration, or a result. -/
inductive Next (σ : Type u) (ρ : Type v) where
  | more (s : σ)
  | stop (r : ρ)

/-- `P` of a state to go on with, `Q` of a result. -/
def Next.Satisfies {σ : Type u} {ρ : Type v} (P : σ → Prop) (Q : ρ → Prop) : Next σ ρ → Prop
  | .more s => P s
  | .stop r => Q r

/-- The same iteration of a loop whose states and results are embedded in others. -/
def Next.map {σ : Type u} {ρ : Type v} (f : σ → σ) (g : ρ → ρ) : Next σ ρ → Next σ ρ
  | .more s => .more (f s)
  | .stop r => .stop (g r)

/-- A loop that may throw.  Each iteration that does not stop lowers the measure. -/
structure Loop (ε : Type u) (σ : Type v) (ρ : Type w) where
  step : σ → Except ε (Next σ ρ)
  measure : σ → Nat
  shrinks : ∀ {s s' : σ}, step s = .ok (.more s') → measure s' < measure s

namespace Loop

variable {ε : Type u} {σ : Type v} {ρ : Type w} (L : Loop ε σ ρ)

/-- The result of the loop, by recursion on a bound of the measure. -/
def runWithin (n : Nat) (s : σ) (h : L.measure s ≤ n) : Except ε ρ :=
  match hs : L.step s with
  | .error e => .error e
  | .ok (.stop r) => .ok r
  | .ok (.more s') =>
      match n, h with
      | 0, h => absurd (L.shrinks hs) (by omega)
      | n + 1, h => runWithin n s' (by have := L.shrinks hs; omega)

/-- The result of the loop, from `s`. -/
def run (s : σ) : Except ε ρ := L.runWithin (L.measure s) s (Nat.le_refl _)

variable {L} {s s' t : σ} {e : ε} {r : ρ}

theorem runWithin_error {n : Nat} {h : L.measure s ≤ n} (hs : L.step s = .error e) :
    L.runWithin n s h = .error e := by
  unfold runWithin
  split
  next h' => cases hs.symm.trans h'; rfl
  next h' => cases hs.symm.trans h'
  next h' => cases hs.symm.trans h'

theorem runWithin_stop {n : Nat} {h : L.measure s ≤ n} (hs : L.step s = .ok (.stop r)) :
    L.runWithin n s h = .ok r := by
  unfold runWithin
  split
  next h' => cases hs.symm.trans h'
  next h' => cases hs.symm.trans h'; rfl
  next h' => cases hs.symm.trans h'

theorem runWithin_succ {n : Nat} {h : L.measure s ≤ n + 1} (hs : L.step s = .ok (.more s')) :
    L.runWithin (n + 1) s h = L.runWithin n s' (by have := L.shrinks hs; omega) := by
  conv => lhs; unfold runWithin
  split
  next h' => cases hs.symm.trans h'
  next h' => cases hs.symm.trans h'
  next h' => cases hs.symm.trans h'; rfl

/-- Any bound on the measure does. -/
theorem runWithin_congr {n : Nat} : ∀ {m : Nat} {s : σ} {h : L.measure s ≤ n}
    {h' : L.measure s ≤ m}, L.runWithin n s h = L.runWithin m s h' := by
  induction n with
  | zero =>
      intro m s h h'
      cases hs : L.step s with
      | error e => rw [runWithin_error hs, runWithin_error hs]
      | ok next =>
          cases next with
          | stop r => rw [runWithin_stop hs, runWithin_stop hs]
          | more s' => exact absurd (L.shrinks hs) (by omega)
  | succ n ih =>
      intro m s h h'
      cases hs : L.step s with
      | error e => rw [runWithin_error hs, runWithin_error hs]
      | ok next =>
          cases next with
          | stop r => rw [runWithin_stop hs, runWithin_stop hs]
          | more s' =>
              obtain ⟨m, rfl⟩ : ∃ k, m = k + 1 := ⟨m - 1, by have := L.shrinks hs; omega⟩
              rw [runWithin_succ hs, runWithin_succ hs]
              exact ih

/-- The loop throws what its first iteration throws. -/
theorem run_error (hs : L.step s = .error e) : L.run s = .error e := runWithin_error hs

/-- The loop stops with the result of its first iteration. -/
theorem run_stop (hs : L.step s = .ok (.stop r)) : L.run s = .ok r := runWithin_stop hs

/-- A first iteration that does not stop does not change the result. -/
theorem run_more (hs : L.step s = .ok (.more s')) : L.run s = L.run s' := by
  obtain ⟨n, hn⟩ : ∃ n, L.measure s = n + 1 := ⟨L.measure s - 1, by have := L.shrinks hs; omega⟩
  calc L.run s = L.runWithin (n + 1) s hn.le := runWithin_congr
    _ = L.runWithin n s' (by have := L.shrinks hs; omega) := runWithin_succ hs
    _ = L.run s' := runWithin_congr

/-- Two states with the same first iteration have the same result. -/
theorem run_congr (h : L.step s = L.step s') : L.run s = L.run s' := by
  cases hs : L.step s with
  | error e => rw [run_error hs, run_error (h ▸ hs)]
  | ok next =>
      cases next with
      | stop r => rw [run_stop hs, run_stop (h ▸ hs)]
      | more t => exact (run_more hs).trans (run_more (h ▸ hs)).symm

/-- Steps that go on lead from `s` to `t`. -/
inductive Reaches (L : Loop ε σ ρ) : σ → σ → Prop where
  | refl (s : σ) : L.Reaches s s
  | more {s s' t : σ} (h : L.step s = .ok (.more s')) (ht : L.Reaches s' t) : L.Reaches s t

namespace Reaches

theorem trans {u : σ} (h : L.Reaches s t) (h' : L.Reaches t u) : L.Reaches s u := by
  induction h with
  | refl => exact h'
  | more h _ ih => exact .more h (ih h')

/-- The states that a loop comes through have the same result. -/
theorem run_eq (h : L.Reaches s t) : L.run s = L.run t := by
  induction h with
  | refl => rfl
  | more h _ ih => rw [run_more h, ih]

/-- A state that goes on reaches itself and what its next state reaches. -/
theorem eq_or_of_more (h : L.step s = .ok (.more s')) (ht : L.Reaches s t) :
    t = s ∨ L.Reaches s' t := by
  cases ht with
  | refl => exact .inl rfl
  | more hstep ht =>
      cases h.symm.trans hstep
      exact .inr ht

/-- A state that does not go on reaches only itself. -/
theorem eq_of_end (h : ∀ s', L.step s ≠ .ok (.more s')) (ht : L.Reaches s t) : t = s := by
  cases ht with
  | refl => rfl
  | more hstep _ => exact absurd hstep (h _)

/-- An invariant of the steps holds in what is reached. -/
theorem invariant {P : σ → Prop} (hstep : ∀ s s', P s → L.step s = .ok (.more s') → P s')
    (h : L.Reaches s t) (hs : P s) : P t := by
  induction h with
  | refl => exact hs
  | more h _ ih => exact ih (hstep _ _ hs h)

/-- A map that commutes with the iterations carries the states of a loop along. -/
theorem lift {f : σ → σ}
    (hstep : ∀ s s', L.step s = .ok (.more s') → L.step (f s) = .ok (.more (f s')))
    (h : L.Reaches s t) : L.Reaches (f s) (f t) := by
  induction h with
  | refl => exact .refl _
  | more h _ ih => exact .more (hstep _ _ h) ih

end Reaches

/-- From `s`, the loop comes to a state in which it does not go on. -/
def Ends (L : Loop ε σ ρ) (s : σ) : Prop := ∃ t, L.Reaches s t ∧ ∀ t', L.step t ≠ .ok (.more t')

/-- **A loop ends.** -/
theorem ends (L : Loop ε σ ρ) (s : σ) : L.Ends s := by
  induction hn : L.measure s using Nat.strongRecOn generalizing s with
  | ind n ih =>
      by_cases hmore : ∃ s', L.step s = .ok (.more s')
      · obtain ⟨s', hs'⟩ := hmore
        obtain ⟨t, ht, hend⟩ := ih _ (hn ▸ L.shrinks hs') s' rfl
        exact ⟨t, .more hs' ht, hend⟩
      · exact ⟨s, .refl s, fun t' ht' => hmore ⟨t', ht'⟩⟩

/-- A result is that of an iteration in some state that the loop comes to. -/
theorem run_ok_iff : L.run s = .ok r ↔ ∃ t, L.Reaches s t ∧ L.step t = .ok (.stop r) := by
  constructor
  · intro h
    obtain ⟨t, ht, hend⟩ := L.ends s
    rw [ht.run_eq] at h
    refine ⟨t, ht, ?_⟩
    cases hstep : L.step t with
    | error e => cases (run_error hstep).symm.trans h
    | ok next =>
        cases next with
        | stop r' => cases (run_stop hstep).symm.trans h; rfl
        | more t' => exact absurd hstep (hend t')
  · rintro ⟨t, ht, hstop⟩
    rw [ht.run_eq, run_stop hstop]

/-- An exception is that of an iteration in some state that the loop comes to. -/
theorem run_error_iff : L.run s = .error e ↔ ∃ t, L.Reaches s t ∧ L.step t = .error e := by
  constructor
  · intro h
    obtain ⟨t, ht, hend⟩ := L.ends s
    rw [ht.run_eq] at h
    refine ⟨t, ht, ?_⟩
    cases hstep : L.step t with
    | error e' => cases (run_error hstep).symm.trans h; rfl
    | ok next =>
        cases next with
        | stop r' => cases (run_stop hstep).symm.trans h
        | more t' => exact absurd hstep (hend t')
  · rintro ⟨t, ht, herror⟩
    rw [ht.run_eq, run_error herror]

/-- A map that commutes with the iterations carries the results along. -/
theorem run_lift {f : σ → σ} {g : ρ → ρ}
    (hstep : ∀ s n, L.step s = .ok n → L.step (f s) = .ok (n.map f g)) (h : L.run s = .ok r) :
    L.run (f s) = .ok (g r) := by
  obtain ⟨t, ht, hstop⟩ := run_ok_iff.mp h
  exact run_ok_iff.mpr ⟨f t, ht.lift fun s s' hs => hstep s _ hs, hstep t _ hstop⟩

/-- What the steps ensure while `P` holds, a run ensures. -/
theorem ensures_run {P : σ → Prop} {E : ε → Prop} {Q : ρ → Prop}
    (hstep : ∀ t, L.Reaches s t → P t → Ensures E (Next.Satisfies P Q) (L.step t)) (hs : P s) :
    Ensures E Q (L.run s) := by
  have hreach : ∀ {t u}, L.Reaches s t → L.Reaches t u → P t → P u := by
    intro t u hst htu ht
    induction htu with
    | refl => exact ht
    | more h _ ih => exact ih (hst.trans (.more h (.refl _))) ((hstep _ hst ht).of_ok h)
  cases hrun : L.run s with
  | error e =>
      obtain ⟨t, ht, herror⟩ := run_error_iff.mp hrun
      exact (hstep t ht (hreach (.refl s) ht hs)).of_error herror
  | ok r =>
      obtain ⟨t, ht, hstop⟩ := run_ok_iff.mp hrun
      exact (hstep t ht (hreach (.refl s) ht hs)).of_ok hstop

end Loop

end Loops
