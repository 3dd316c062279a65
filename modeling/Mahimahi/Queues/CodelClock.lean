import Mahimahi.Queues.Codel

/-!
# Queues — CoDel's clock

* `entered_in_time`: whenever `dequeue` enters the dropping state, `drop_next_` is not in the
  future, so `now - drop_next_` does not wrap.

`drop_next_` is at most an interval ahead of the latest clock reading.  While the class is not
dropping, `first_above_time_` is not before it: it was set after the last drop was scheduled, an
interval ahead.
-/

open Fallible MachineInt

namespace Mahimahi

namespace CODELPacketQueue

variable {a : CodelArgs} {latest now : Nat} {s s' s₁ : CODELPacketQueue} {p : QueuedPacket}
  {okToDrop : Bool}

/-! ### The counts -/

/-- The counts that `count_++` comes to in the loop, before they wrap. -/
def dropLoopCounts (now : Nat) : Nat → CODELPacketQueue → List Nat
  | 0, _ => []
  | fuel + 1, s =>
      if s.dropNext ≤ now ∧ s.dropping then
        match s.dodequeue now with
        | .error _ => []
        | .ok (_, okToDrop, s) =>
            (s.count + 1) ::
              let s := { s with count := toU32 (s.count + 1) }
              if okToDrop then
                dropLoopCounts now fuel { s with dropNext := s.controlLaw s.dropNext s.count }
              else dropLoopCounts now fuel { s with dropping := false }
      else []

/-- Those of one `dequeue`. -/
def dequeueCounts (now : Nat) (s : CODELPacketQueue) : List Nat :=
  match s.dodequeue now with
  | .error _ => []
  | .ok (_, okToDrop, s) =>
      if s.dropping then
        dropLoopCounts now (s.internalQueue.length + 1) { s with dropping := okToDrop }
      else []

def countsOf : Discipline.Call → CODELPacketQueue → List Nat
  | .dequeue clock, s => s.dequeueCounts (clock 0)
  | _, _ => []

/-- Those of a run, which may end with a fault. -/
def counts : List Discipline.Call → CODELPacketQueue → List Nat
  | [], _ => []
  | c :: cs, s => countsOf c s ++ match step c s with
    | .error _ => []
    | .ok s' => counts cs s'

/-! ### When the next drop is scheduled -/

/-- What is taken of `control_law`: a time between `t` and an interval later. -/
def LawWithin (a : CodelArgs) : Prop :=
  ∀ t c, 1 ≤ c → t ≤ a.controlLaw t c ∧ a.controlLaw t c ≤ t + a.interval

structure Scheduled (a : CodelArgs) (latest : Nat) (s : CODELPacketQueue) : Prop where
  interval : s.interval = a.interval
  controlLaw : s.controlLaw = a.controlLaw
  dropNext : s.dropNext ≤ latest + a.interval
  idle : s.dropping = false → s.firstAboveTime ≠ 0 → s.dropNext ≤ s.firstAboveTime
  busy : s.dropping = true → s.firstAboveTime ≠ 0 → s.firstAboveTime ≤ latest

theorem scheduled_make (a : CodelArgs) : Scheduled a 0 a.make :=
  ⟨rfl, rfl, Nat.zero_le _, fun _ hne => absurd rfl hne, fun _ hne => absurd rfl hne⟩

theorem Scheduled.later (h : Scheduled a latest s) (hle : latest ≤ now) : Scheduled a now s where
  interval := h.interval
  controlLaw := h.controlLaw
  dropNext := by
    have := h.dropNext
    omega
  idle := h.idle
  busy hdropping hne := (h.busy hdropping hne).trans hle

/-- While dropping, the next drop may be put an interval ahead. -/
theorem Scheduled.reschedule (h : Scheduled a now s) (hdropping : s.dropping = true) {next : Nat}
    (hnext : next ≤ now + a.interval) (count : Nat) :
    Scheduled a now { s with count, dropNext := next } where
  interval := h.interval
  controlLaw := h.controlLaw
  dropNext := hnext
  idle hidle := by
    rw [show s.dropping = false from hidle] at hdropping
    cases hdropping
  busy := h.busy

/-- A `dodequeue` while dropping: the class goes on dropping as long as it may. -/
theorem Scheduled.dodequeue_busy (h : Scheduled a now s) (hdropping : s.dropping = true)
    (hd : s.dodequeue now = .ok (p, okToDrop, s₁)) :
    Scheduled a now { s₁ with dropping := okToDrop } := by
  obtain ⟨c, firstAboveTime, -, rfl, -⟩ := dodequeue_cases hd
  have hnext := h.dropNext
  refine ⟨h.interval, h.controlLaw, hnext, ?_, ?_⟩
  · rintro rfl hne
    rcases dodequeue_above hd with ⟨-, hzero, -⟩ | ⟨-, -, -, ⟨-, -, hset⟩ | ⟨habove, -, hdue⟩⟩
    · exact absurd hzero hne
    · rw [h.interval] at hset
      exact hnext.trans_eq hset.symm
    · -- a time that was set before is not in the future
      have hle := h.busy hdropping habove
      rw [decide_eq_true hle] at hdue
      cases hdue
  · rintro rfl hne
    rcases dodequeue_above hd with ⟨hfalse, -⟩ | ⟨-, -, -, ⟨-, hfalse, -⟩ | ⟨habove, hkept, -⟩⟩
    · cases hfalse
    · cases hfalse
    · exact hkept.le.trans (h.busy hdropping habove)

/-- A `dodequeue` that does not begin to drop. -/
theorem Scheduled.dodequeue_idle (h : Scheduled a now s) (hdropping : s.dropping = false)
    (hd : s.dodequeue now = .ok (p, okToDrop, s₁)) : Scheduled a now s₁ := by
  obtain ⟨c, firstAboveTime, -, rfl, -⟩ := dodequeue_cases hd
  have hnext := h.dropNext
  refine ⟨h.interval, h.controlLaw, hnext, fun _ hne => ?_, fun hbusy => ?_⟩
  · rcases dodequeue_above hd with ⟨-, hzero, -⟩ | ⟨-, -, -, ⟨-, -, hset⟩ | ⟨habove, hkept, -⟩⟩
    · exact absurd hzero hne
    · rw [h.interval] at hset
      exact hnext.trans_eq hset.symm
    · exact (h.idle hdropping habove).trans_eq hkept.symm
  · cases hdropping.symm.trans hbusy

/-- **The next drop is due when the class enters the dropping state.** -/
theorem Scheduled.due (h : Scheduled a now s) (hdropping : s.dropping = false)
    (hd : s.dodequeue now = .ok (p, true, s₁)) :
    s₁.dropNext ≤ now ∧ s₁.firstAboveTime ≠ 0 ∧ s₁.firstAboveTime ≤ now := by
  obtain ⟨c, firstAboveTime, -, rfl, -⟩ := dodequeue_cases hd
  rcases dodequeue_above hd with ⟨hfalse, -⟩ | ⟨-, -, -, ⟨-, hfalse, -⟩ | ⟨habove, hkept, hdue⟩⟩
  · cases hfalse
  · cases hfalse
  · have hle : s.firstAboveTime ≤ now := of_decide_eq_true hdue.symm
    rw [show firstAboveTime = s.firstAboveTime from hkept]
    exact ⟨(h.idle hdropping habove).trans hle, habove, hle⟩

/-- The call after it, with which the class begins to drop. -/
theorem Scheduled.enter (hlaw : LawWithin a) (h : Scheduled a now s) (hne : s.firstAboveTime ≠ 0)
    (hle : s.firstAboveTime ≤ now) (hd : s.dodequeue now = .ok (p, okToDrop, s₁)) {count : Nat}
    (hcount : 1 ≤ count) :
    Scheduled a now { s₁ with
      dropping := true, count, dropNext := s₁.controlLaw now count, lastcount := count } := by
  obtain ⟨c, firstAboveTime, -, rfl, -⟩ := dodequeue_cases hd
  refine ⟨h.interval, h.controlLaw, ?_, fun hidle => ?_, fun _ hne' => ?_⟩
  · rw [show s.controlLaw = a.controlLaw from h.controlLaw]
    exact (hlaw now count hcount).2
  · cases hidle
  · rcases dodequeue_above hd with ⟨-, hzero, -⟩ | ⟨-, -, -, ⟨hzero, -⟩ | ⟨-, hkept, -⟩⟩
    · exact absurd hzero hne'
    · exact absurd hzero hne
    · exact hkept.le.trans hle

/-! ### Runs -/

theorem Scheduled.dropLoop (hlaw : LawWithin a) {fuel : Nat} : ∀ {s s' : CODELPacketQueue},
    Scheduled a now s → (∀ c ∈ dropLoopCounts now fuel s, c < 2 ^ 32) →
      dropLoop now fuel s = .ok s' → Scheduled a now s' := by
  induction fuel with
  | zero =>
      intro s s' h _ hs
      cases hs
      exact h
  | succ fuel ih =>
      intro s s' h hcounts hs
      rw [CODELPacketQueue.dropLoop] at hs
      rw [dropLoopCounts] at hcounts
      split at hs
      next hdue =>
        obtain ⟨⟨p, okToDrop, s₁⟩, hd, hs⟩ := bind_ok.mp hs
        rw [if_pos hdue, hd] at hcounts
        have h₁ := h.dodequeue_busy hdue.2 hd
        obtain ⟨hnext, hdropping₁⟩ : s₁.dropNext = s.dropNext ∧ s₁.dropping = true := by
          obtain ⟨c, firstAboveTime, -, rfl, -⟩ := dodequeue_cases hd
          exact ⟨rfl, hdue.2⟩
        have hcount : toU32 (s₁.count + 1) = s₁.count + 1 := by
          have := hcounts _ List.mem_cons_self
          rw [toU32_of_range (by omega) (by omega)]
          omega
        cases okToDrop with
        | true =>
            have hkept : Scheduled a now s₁ := by
              rw [← hdropping₁] at h₁
              exact h₁
            -- the loop goes on only while the next drop is not in the future
            have hle : a.controlLaw s₁.dropNext (toU32 (s₁.count + 1)) ≤ now + a.interval := by
              have := (hlaw s₁.dropNext (toU32 (s₁.count + 1)) (by omega)).2
              have := hdue.1
              omega
            rw [← hkept.controlLaw] at hle
            exact ih (hkept.reschedule hdropping₁ hle _)
              (fun c hc => hcounts c (List.mem_cons_of_mem _ hc)) hs
        | false =>
            exact ih (s := { s₁ with count := toU32 (s₁.count + 1), dropping := false })
              ⟨h₁.interval, h₁.controlLaw, h₁.dropNext, h₁.idle, h₁.busy⟩
              (fun c hc => hcounts c (List.mem_cons_of_mem _ hc)) hs
      next hdue =>
        cases hs
        exact h

/-- **One `dequeue`.** -/
theorem Scheduled.dequeue (hlaw : LawWithin a) (h : Scheduled a now s)
    (hcounts : ∀ c ∈ s.dequeueCounts now, c < 2 ^ 32) (hs : s.dequeue now = .ok (p, s')) :
    Scheduled a now s' := by
  obtain ⟨okToDrop, s₁, hd, hdrop⟩ := dequeue_split hs
  have hdropping₁ : s₁.dropping = s.dropping := by
    obtain ⟨c, firstAboveTime, -, rfl, -⟩ := dodequeue_cases hd
    rfl
  rw [dequeueCounts, hd] at hcounts
  rw [drop] at hdrop
  cases hdropping : s.dropping with
  | true =>
      rw [if_pos (hdropping₁.trans hdropping)] at hdrop
      dsimp only at hcounts
      rw [if_pos (hdropping₁.trans hdropping)] at hcounts
      exact (h.dodequeue_busy hdropping hd).dropLoop hlaw hcounts hdrop
  | false =>
      rw [if_neg (by rw [hdropping₁, hdropping]; decide)] at hdrop
      have h₁ := h.dodequeue_idle hdropping hd
      cases okToDrop with
      | true =>
          obtain ⟨⟨p₂, okToDrop₂, s₂⟩, hd₂, hdrop⟩ := bind_ok.mp hdrop
          obtain ⟨-, hne, hle⟩ := h.due hdropping hd
          cases hdrop
          refine h₁.enter hlaw hne hle hd₂ ?_
          split
          · omega
          · exact Nat.le_refl 1
      | false =>
          cases hdrop
          exact h₁

theorem Scheduled.run (hlaw : LawWithin a) (cs : List Discipline.Call) : ∀ {latest : Nat}
    {s s' : CODELPacketQueue}, Scheduled a latest s →
      (latest :: (readings cs ++ [now])).Pairwise (· ≤ ·) → (∀ c ∈ counts cs s, c < 2 ^ 32) →
        run step cs s = .ok s' → Scheduled a now s' := by
  induction cs with
  | nil =>
      intro latest s s' h hclock _ hs
      cases hs
      exact h.later (List.rel_of_pairwise_cons hclock List.mem_cons_self)
  | cons c cs ih =>
      intro latest s s' h hclock hcounts hs
      rw [run_cons] at hs
      obtain ⟨s₁, hstep, hrest⟩ := bind_ok.mp hs
      rw [counts, hstep] at hcounts
      have hcounts₁ : ∀ c ∈ counts cs s₁, c < 2 ^ 32 :=
        fun c hc => hcounts c (List.mem_append_right _ hc)
      cases c with
      | enqueue ts arrivalTime contents =>
          rw [readings, List.cons_append, List.pairwise_cons] at hclock
          have h₁ : Scheduled a latest s₁ := by
            rcases (enqueue_cases hstep).2 with ⟨-, rfl⟩ | ⟨-, rfl⟩
            · exact ⟨h.interval, h.controlLaw, h.dropNext, h.idle, h.busy⟩
            · exact h
          exact ih (h₁.later (hclock.1 _ List.mem_cons_self)) hclock.2 hcounts₁ hrest
      | dequeue clock =>
          rw [readings, List.cons_append, List.pairwise_cons] at hclock
          obtain ⟨⟨p, s₂⟩, hdeq, rfl⟩ := of_map_ok hstep
          have hnow := h.later (hclock.1 _ List.mem_cons_self)
          exact ih (hnow.dequeue hlaw (fun c hc => hcounts c (List.mem_append_left _ hc)) hdeq)
            hclock.2 hcounts₁ hrest
      | setBandwidth bandwidth =>
          cases hstep
          have h₁ : Scheduled a latest (s.setBandwidth bandwidth) :=
            ⟨h.interval, h.controlLaw, h.dropNext, h.idle, h.busy⟩
          exact ih h₁ hclock hcounts₁ hrest

/-- **`drop_next_` is not in the future when `dequeue` enters the dropping state**, and so
`now - drop_next_` does not wrap. -/
theorem entered_in_time {a : CodelArgs} (hlaw : LawWithin a) {calls : List Discipline.Call}
    {now : Nat} (hclock : (readings calls ++ [now]).Pairwise (· ≤ ·))
    (hcounts : ∀ c ∈ counts calls a.make, c < 2 ^ 32) {s s₁ : CODELPacketQueue}
    (hrun : run step calls a.make = .ok s) (hdropping : s.dropping = false) {p : QueuedPacket}
    (hd : s.dodequeue now = .ok (p, true, s₁)) :
    s₁.dropNext ≤ now ∧ (now < 2 ^ 64 → toU64 (now - s₁.dropNext) = now - s₁.dropNext) := by
  have hs : Scheduled a now s := (scheduled_make a).run hlaw calls
    (List.pairwise_cons.mpr ⟨fun _ _ => Nat.zero_le _, hclock⟩) hcounts hrun
  obtain ⟨hle, -⟩ := hs.due hdropping hd
  refine ⟨hle, fun hnow => ?_⟩
  unfold toU64
  omega

/-- The class begins to drop at 120, and the packet that is left resets `first_above_time_`.  It is
set again at 130, ten before the next drop would have been due. -/
def twiceAbove : List Discipline.Call :=
  List.replicate 4 (.enqueue 0 0 (List.replicate 1000 0)) ++ [.dequeue fun _ => 10,
    .dequeue fun _ => 120] ++ List.replicate 4 (.enqueue 0 120 (List.replicate 1000 0)) ++
    [.dequeue fun _ => 130]

theorem hundredMs_lawWithin : LawWithin hundredMs :=
  fun t _ _ => ⟨Nat.le_add_right t 100, Nat.le_refl _⟩

/-- At 240 it begins again, 20 after the drop that was scheduled. -/
theorem entered_in_time_twiceAbove : ∃ s p s₁,
    run step twiceAbove hundredMs.make = .ok s ∧ s.dropping = false ∧
    s.dodequeue 240 = .ok (p, true, s₁) ∧ s₁.dropNext = 220 ∧ s₁.dropNext ≤ 240 ∧
    ((240 : Nat) < 2 ^ 64 → toU64 ((240 : Nat) - s₁.dropNext) = 240 - s₁.dropNext) := by
  obtain ⟨s, hrun, hs⟩ := of_map_ok (x := run step twiceAbove hundredMs.make)
    (f := fun s => (s.dropping, (s.dodequeue 240).toOption.map fun r => (r.2.1, r.2.2.dropNext)))
    (b := (false, some (true, 220))) (by decide +kernel)
  simp only [Prod.mk.injEq] at hs
  obtain ⟨hdropping, hd⟩ := hs
  cases hd₁ : s.dodequeue 240 with
  | error e =>
      rw [hd₁] at hd
      cases hd
  | ok r =>
      obtain ⟨p, okToDrop, s₁⟩ := r
      rw [hd₁] at hd
      obtain ⟨rfl, hnext⟩ := Prod.mk.inj (Option.some.inj hd)
      exact ⟨s, p, s₁, hrun, hdropping, hd₁, hnext,
        entered_in_time hundredMs_lawWithin (by decide +kernel) (by decide +kernel) hrun hdropping
          hd₁⟩

end CODELPacketQueue

end Mahimahi
