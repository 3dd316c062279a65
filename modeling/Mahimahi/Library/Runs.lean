import Mathlib.Data.List.Infix

/-!
# Library — runs of a fallible machine

A machine takes an action `a` in a state `s` by `step a s`, which returns the next state or the
fault that stopped it.  A run takes a list of actions in order and stops at the first fault.

* `bind_ok`: a sequence returns exactly when both of its parts do.
* `Ensures E P x`: the result of `x` satisfies `P`, or its fault satisfies `E`; `Ensures.bind`
  composes such facts.
* `ensures_run`: what one step ensures, with the actions taken so far at hand, a whole run ensures.
  `run_induction` and `run_returns` are its two ends: any fault is allowed, or none.
* `Related R x y`: `x` and `y` stop at the same fault or return results that `R` relates;
  `related_run` is its run rule.
-/

namespace Fallible

universe u v w

variable {ε : Type u} {α β σ : Type v}

/-- A sequence returns when its first part returns and its second part does from there. -/
theorem bind_ok {x : Except ε α} {f : α → Except ε β} {b : β} :
    x >>= f = .ok b ↔ ∃ a, x = .ok a ∧ f a = .ok b := by
  cases x with
  | error e => simp [bind, Except.bind]
  | ok a => simp [bind, Except.bind]

/-- A sequence stops at the fault of its first part, or of its second one from where the first
returned. -/
theorem bind_error {x : Except ε α} {f : α → Except ε β} {e : ε} :
    x >>= f = .error e ↔ x = .error e ∨ ∃ a, x = .ok a ∧ f a = .error e := by
  cases x with
  | error e => simp [bind, Except.bind]
  | ok a => simp [bind, Except.bind]

@[simp] theorem ok_bind (a : α) (f : α → Except ε β) : ((.ok a : Except ε α) >>= f) = f a := rfl

/-- A mapped result comes from a result. -/
theorem of_map_ok {x : Except ε α} {f : α → β} {b : β} (h : x.map f = .ok b) :
    ∃ a, x = .ok a ∧ f a = b := by
  cases x with
  | error e => cases h
  | ok a => cases h; exact ⟨a, rfl, rfl⟩

theorem of_map_error {x : Except ε α} {f : α → β} {e : ε} (h : x.map f = .error e) :
    x = .error e := by
  cases x with
  | error e' => cases h; rfl
  | ok a => cases h

/-- Mapping the faults leaves a result as it is. -/
theorem of_mapError_ok {ε' : Type w} {x : Except ε α} {f : ε → ε'} {a : α}
    (h : x.mapError f = .ok a) : x = .ok a := by
  cases x with
  | error e => cases h
  | ok b => cases h; rfl

/-- A mapped fault comes from a fault. -/
theorem of_mapError_error {ε' : Type w} {x : Except ε α} {f : ε → ε'} {e' : ε'}
    (h : x.mapError f = .error e') : ∃ e, x = .error e ∧ f e = e' := by
  cases x with
  | error e => cases h; exact ⟨e, rfl, rfl⟩
  | ok b => cases h

theorem map_ok {x : Except ε α} {f : α → β} {a : α} (h : x = .ok a) : x.map f = .ok (f a) := by
  rw [h]; rfl

theorem map_bind {γ : Type v} {x : Except ε α} {f : α → Except ε β} {g : β → γ} :
    (x >>= f).map g = x >>= fun a => (f a).map g := by
  cases x <;> rfl

/-- Only what the second part does behind a result of the first matters. -/
theorem bind_congr_ok {x : Except ε α} {f g : α → Except ε β} (h : ∀ a, x = .ok a → f a = g a) :
    x >>= f = x >>= g := by
  cases x with
  | error e => rfl
  | ok a => exact h a rfl

theorem bind_map {γ : Type v} {x : Except ε α} {g : α → β} {f : β → Except ε γ} :
    x.map g >>= f = x >>= fun a => f (g a) := by
  cases x <;> rfl

/-- A list whose items all return. -/
theorem mapM_ok {f : α → Except ε β} {g : α → β} {as : List α} (h : ∀ a ∈ as, f a = .ok (g a)) :
    as.mapM f = .ok (as.map g) := by
  induction as with
  | nil => rfl
  | cons a as ih =>
      rw [List.mapM_cons, h a List.mem_cons_self, ih fun b hb => h b (List.mem_cons_of_mem _ hb)]
      rfl

/-- If all the list returns, each item does. -/
theorem of_mapM_ok {f : α → Except ε β} {as : List α} {bs : List β} (h : as.mapM f = .ok bs) :
    bs.length = as.length ∧ ∀ a ∈ as, ∃ b, f a = .ok b := by
  induction as generalizing bs with
  | nil => cases h; exact ⟨rfl, by simp⟩
  | cons a as ih =>
      rw [List.mapM_cons, bind_ok] at h
      obtain ⟨b, hb, h⟩ := h
      obtain ⟨bs', hbs, h⟩ := bind_ok.mp h
      cases h
      obtain ⟨hlength, hall⟩ := ih hbs
      exact ⟨congrArg (· + 1) hlength, List.forall_mem_cons.mpr ⟨⟨b, hb⟩, hall⟩⟩

/-- If the list stops at a fault, it is that of an item. -/
theorem of_mapM_error {f : α → Except ε β} {as : List α} {e : ε} (h : as.mapM f = .error e) :
    ∃ a ∈ as, f a = .error e := by
  induction as with
  | nil => cases h
  | cons a as ih =>
      rw [List.mapM_cons, bind_error] at h
      rcases h with ha | ⟨b, -, h⟩
      · exact ⟨a, List.mem_cons_self, ha⟩
      · rcases bind_error.mp h with h | ⟨bs, -, h⟩
        · obtain ⟨a', ha', he⟩ := ih h
          exact ⟨a', List.mem_cons_of_mem _ ha', he⟩
        · cases h

/-- The machine's run over a list of actions. -/
def run (step : α → σ → Except ε σ) (as : List α) (s : σ) : Except ε σ :=
  as.foldlM (fun s a => step a s) s

variable {step : α → σ → Except ε σ}

@[simp] theorem run_nil (s : σ) : run step [] s = .ok s := rfl

@[simp] theorem run_cons (a : α) (as : List α) (s : σ) :
    run step (a :: as) s = step a s >>= run step as := by
  rw [run, List.foldlM_cons]; rfl

theorem run_singleton (a : α) (s : σ) : run step [a] s = step a s := by
  rw [run_cons]
  cases step a s <;> rfl

/-- A run over two lists is the run over the second from where the first has come. -/
theorem run_append (as bs : List α) (s : σ) :
    run step (as ++ bs) s = run step as s >>= run step bs := by
  rw [run, List.foldlM_append]; rfl

/-- A run that has failed stays so. -/
theorem run_error_append {as : List α} {s : σ} {e : ε} (h : run step as s = .error e)
    (bs : List α) : run step (as ++ bs) s = .error e := by
  rw [run_append, h]
  rfl

/-- A run whose steps all return. -/
theorem run_eq_foldl {f : σ → α → σ} {as : List α} (h : ∀ a ∈ as, ∀ s, step a s = .ok (f s a))
    (s : σ) : run step as s = .ok (as.foldl f s) := by
  induction as generalizing s with
  | nil => rfl
  | cons a as ih =>
      obtain ⟨ha, has⟩ := List.forall_mem_cons.mp h
      rw [run_cons, ha, ok_bind, ih has, List.foldl_cons]

/-- A run whose steps first load their actions, when every load goes through. -/
theorem run_load {load : β → Except ε α} {bs : List β} {as : List α}
    (h : bs.mapM load = .ok as) (s : σ) :
    run (fun b s => load b >>= fun a => step a s) bs s = run step as s := by
  induction bs generalizing as s with
  | nil => cases h; rfl
  | cons b bs ih =>
      rw [List.mapM_cons, bind_ok] at h
      obtain ⟨a, ha, h⟩ := h
      obtain ⟨as, has, h⟩ := bind_ok.mp h
      cases h
      rw [run_cons, run_cons, ha, ok_bind]
      exact congrArg _ (funext fun s' => ih has s')

/-- Every result of `x` satisfies `P`, and every fault satisfies `E`. -/
def Ensures (E : ε → Prop) (P : α → Prop) : Except ε α → Prop
  | .ok a => P a
  | .error e => E e

namespace Ensures

variable {E : ε → Prop} {P Q : α → Prop} {R : β → Prop}

/-- The rule of sequence. -/
theorem bind {x : Except ε α} {f : α → Except ε β} (hx : Ensures E P x)
    (hf : ∀ a, P a → Ensures E R (f a)) : Ensures E R (x >>= f) := by
  cases x with
  | error e => exact hx
  | ok a => exact hf a hx

theorem map {x : Except ε α} {f : α → β} (hx : Ensures E (fun a => R (f a)) x) :
    Ensures E R (x.map f) := by
  cases x with
  | error e => exact hx
  | ok a => exact hx

/-- The rule for a result whose faults are mapped. -/
theorem mapError {ε' : Type w} {F : ε' → Prop} {x : Except ε α} {f : ε → ε'}
    (hx : Ensures (fun e => F (f e)) P x) : Ensures F P (x.mapError f) := by
  cases x with
  | error e => exact hx
  | ok a => exact hx

/-- A weaker fact about the result. -/
theorem mono {x : Except ε α} (hx : Ensures E P x) (hPQ : ∀ a, P a → Q a) : Ensures E Q x := by
  cases x with
  | error e => exact hx
  | ok a => exact hPQ a hx

/-- A weaker fact about the fault. -/
theorem mono_error {F : ε → Prop} {x : Except ε α} (hx : Ensures E P x) (hEF : ∀ e, E e → F e) :
    Ensures F P x := by
  cases x with
  | error e => exact hEF e hx
  | ok a => exact hx

/-- A computation with one fault. -/
theorem mono_fault {F : ε → Prop} {e : ε} {x : Except ε α} (hx : Ensures (· = e) P x) (he : F e) :
    Ensures F P x := hx.mono_error fun _ hf => hf ▸ he

/-- What a computation can fault with, and what it does when it returns. -/
theorem and_ok {x : Except ε α} (hx : Ensures E (fun _ => True) x) (hP : ∀ a, x = .ok a → P a) :
    Ensures E P x := by
  cases x with
  | error e => exact hx
  | ok a => exact hP a rfl

theorem of_ok {x : Except ε α} {a : α} (h : Ensures E P x) (hx : x = .ok a) : P a := by
  rw [hx] at h; exact h

theorem of_error {x : Except ε α} {e : ε} (h : Ensures E P x) (hx : x = .error e) : E e := by
  rw [hx] at h; exact h

/-- Both halves of the fact as implications. -/
theorem split {x : Except ε α} (h : Ensures E P x) :
    (∀ e, x = .error e → E e) ∧ ∀ a, x = .ok a → P a :=
  ⟨fun _ => h.of_error, fun _ => h.of_ok⟩

end Ensures

/-- A computation that may do anything but what it does when it returns. -/
theorem ensures_iff {P : α → Prop} {x : Except ε α} :
    Ensures (fun _ => True) P x ↔ ∀ a, x = .ok a → P a := by
  cases x with
  | error e => simp [Ensures]
  | ok a => simp [Ensures]

/-- **The run rule.**  `P done s` relates the actions taken to the state they lead to. -/
theorem ensures_run {E : ε → Prop} {P : List α → σ → Prop} {s₀ : σ} {as : List α} (h₀ : P [] s₀)
    (hstep : ∀ done s a, P done s → run step done s₀ = .ok s → done ++ [a] <+: as →
      Ensures E (P (done ++ [a])) (step a s)) :
    Ensures E (P as) (run step as s₀) := by
  have key : ∀ (rest done : List α) (s₁ : σ), P done s₁ → run step done s₀ = .ok s₁ →
      done ++ rest = as → Ensures E (P as) (run step rest s₁) := by
    intro rest
    induction rest with
    | nil => rintro done s₁ hP - rfl; simpa [Ensures] using hP
    | cons a rest ih =>
        intro done s₁ hP hdone he
        have hs := hstep done s₁ a hP hdone ⟨rest, by simpa using he⟩
        rw [run_cons]
        cases hstep₁ : step a s₁ with
        | error e => exact hs.of_error hstep₁
        | ok s₂ =>
            refine ih (done ++ [a]) s₂ (hs.of_ok hstep₁) ?_ (by simpa using he)
            rw [run_append, hdone, ok_bind, run_cons, hstep₁]; rfl
  exact key as [] s₀ h₀ rfl rfl

/-- **The invariant rule**, for runs that return. -/
theorem run_induction {P : List α → σ → Prop} {s₀ : σ} (h₀ : P [] s₀)
    (hstep : ∀ done s a s', run step done s₀ = .ok s → P done s → step a s = .ok s' →
      P (done ++ [a]) s') {as : List α} {s : σ} (h : run step as s₀ = .ok s) : P as s :=
  ensures_iff.mp (ensures_run h₀ fun done s a hP hdone _ =>
    ensures_iff.mpr fun s' hs => hstep done s a s' hdone hP hs) s h

/-- **The progress rule**: a run returns if every step does from the states it meets. -/
theorem run_returns {P : List α → σ → Prop} {s₀ : σ} {as : List α} (h₀ : P [] s₀)
    (hstep : ∀ done s a, P done s → run step done s₀ = .ok s → done ++ [a] <+: as →
      ∃ s', step a s = .ok s' ∧ P (done ++ [a]) s') :
    ∃ s, run step as s₀ = .ok s ∧ P as s := by
  have hrun : Ensures (fun _ => False) (P as) (run step as s₀) := by
    refine ensures_run h₀ fun done s a hP hdone hpre => ?_
    obtain ⟨s', hs, hP'⟩ := hstep done s a hP hdone hpre
    rw [hs]; exact hP'
  cases h : run step as s₀ with
  | error e => exact (hrun.of_error h).elim
  | ok s => exact ⟨s, rfl, hrun.of_ok h⟩

/-! ### Two runs -/

/-- Both computations stop at the same fault, or their results are related. -/
def Related {γ : Type v} (R : α → γ → Prop) : Except ε α → Except ε γ → Prop
  | .ok a, .ok c => R a c
  | .error e, .error e' => e = e'
  | _, _ => False

namespace Related

variable {R : α → α → Prop} {S : β → β → Prop}

/-- Related first parts with related second parts. -/
theorem bind {x y : Except ε α} {f g : α → Except ε β} (hxy : Related R x y)
    (hfg : ∀ a b, R a b → Related S (f a) (g b)) : Related S (x >>= f) (y >>= g) := by
  cases x with
  | error e => cases y with
    | error e' => exact hxy
    | ok b => exact hxy.elim
  | ok a => cases y with
    | error e' => exact hxy.elim
    | ok b => exact hfg a b hxy

theorem refl (h : ∀ a, R a a) (x : Except ε α) : Related R x x := by
  cases x with
  | error e => exact rfl
  | ok a => exact h a

theorem symm (h : ∀ a b, R a b → R b a) {x y : Except ε α} (hxy : Related R x y) :
    Related R y x := by
  cases x with
  | error e => cases y with
    | error e' => exact Eq.symm hxy
    | ok b => exact hxy.elim
  | ok a => cases y with
    | error e' => exact hxy.elim
    | ok b => exact h a b hxy

/-- Two runs that are related to a third one are related to each other. -/
theorem trans (h : ∀ a b c, R a b → R b c → R a c) {x y z : Except ε α} (hxy : Related R x y)
    (hyz : Related R y z) : Related R x z := by
  cases x with
  | error e => cases y with
    | error e' => cases z with
      | error e'' => exact Eq.trans hxy hyz
      | ok c => exact hyz.elim
    | ok b => exact hxy.elim
  | ok a => cases y with
    | error e' => exact hxy.elim
    | ok b => cases z with
      | error e'' => exact hyz.elim
      | ok c => exact h a b c hxy hyz

/-- A view that does not tell related results apart maps them to the same one. -/
theorem map_eq {f : α → β} (h : ∀ a b, R a b → f a = f b) {x y : Except ε α}
    (hxy : Related R x y) : x.map f = y.map f := by
  cases x with
  | error e => cases y with
    | error e' => exact congrArg Except.error hxy
    | ok b => exact hxy.elim
  | ok a => cases y with
    | error e' => exact hxy.elim
    | ok b => exact congrArg Except.ok (h a b hxy)

end Related

/-- What one step relates, a run over the same actions relates. -/
theorem related_run {R : σ → σ → Prop}
    (hstep : ∀ a s s', R s s' → Related R (step a s) (step a s')) (as : List α) :
    ∀ {s s' : σ}, R s s' → Related R (run step as s) (run step as s') := by
  induction as with
  | nil => exact fun h => h
  | cons a as ih =>
      intro s s' h
      rw [run_cons, run_cons]
      exact (hstep a s s' h).bind fun _ _ h' => ih h'

end Fallible
