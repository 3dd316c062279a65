import Mahimahi.Packet.Fifo

/-!
# Queues — PIE and its timer

`calculate_drop_prob` is to stand for a timer that fires every `T_UPDATE` ms.  `Call.step` is the
queue as it is called; `Event.step` is the reference, whose updates are events of their own.
`timeline` merges the timer with a list of calls: it fires at `created + 30`, `created + 60` and so
on, after the calls whose clock reads that time and before the later ones.

* `run_own`: a run of calls does what the queue's own functions do.
* `timer_equal`: the calls and their timeline lead to the same state, and every `drop_early()` sees
  the same, if no period ends between the reading of a `dequeue` and the reading before it.
* `idle_dequeue_differs`: otherwise the missed update is made with the queue that `dequeue` leaves.
-/

open Fallible MachineInt

namespace Mahimahi

namespace PIEPacketQueue

/-- What a `drop_early()` decides on. -/
structure Seen where
  dropProb : ℚ
  burstAllowance : Nat
  currentQdelay : Nat
  qdelayOld : Nat
  deriving DecidableEq

def seen (s : PIEPacketQueue) : Seen where
  dropProb := s.dropProb
  burstAllowance := s.burstAllowance
  currentQdelay := s.currentQdelay
  qdelayOld := s.qdelayOld

/-- A queue, and what its calls of `drop_early()` have seen. -/
abbrev Observed := PIEPacketQueue × List Seen

/-- `offer` calls `drop_early()` for a packet that fits. -/
def offerSeen (p : QueuedPacket) (o : Observed) : Except Fault Observed := do
  let s ← o.1.offer p
  return (s, if holds (o.1.fits p) then o.2 ++ [o.1.seen] else o.2)

/-! ### The calls -/

inductive Call where
  | enqueue (now : Nat) (p : QueuedPacket)
  /-- with the reading for the rate, and that of `calculate_drop_prob()` -/
  | dequeue (now later : Nat)

def Call.step : Call → Observed → Except Fault Observed
  | .enqueue now p, o => do
      let s ← o.1.calculateDropProb now
      offerSeen p (s, o.2)
  | .dequeue now later, o => do
      let (_, s) ← o.1.dequeue now later
      return (s, o.2)

/-- The queue's own `enqueue`, with what its `drop_early()` sees written down. -/
theorem Call.step_enqueue (now : Nat) (p : QueuedPacket) (o : Observed) :
    (Call.step (.enqueue now p) o).map Prod.fst = o.1.enqueue now p := by
  rw [Call.step, PIEPacketQueue.enqueue, Fallible.map_bind]
  refine bind_congr_ok fun s _ => ?_
  unfold offerSeen
  cases s.offer p <;> rfl

/-- A call, as the queue's own functions make it. -/
def Call.own : Call → PIEPacketQueue → Except Fault PIEPacketQueue
  | .enqueue now p, s => s.enqueue now p
  | .dequeue now later, s => (s.dequeue now later).map Prod.snd

/-- Writing down what `drop_early()` sees changes nothing of what the queue does. -/
theorem run_own (cs : List Call) (o : Observed) :
    (run Call.step cs o).map Prod.fst = run Call.own cs o.1 := by
  have hstep : ∀ c o, (Call.step c o).map Prod.fst = c.own o.1 := by
    intro c o
    cases c with
    | enqueue now p => exact Call.step_enqueue now p o
    | dequeue now later =>
        rw [Call.step, Call.own]
        cases o.1.dequeue now later <;> rfl
  induction cs generalizing o with
  | nil => rfl
  | cons c cs ih =>
      rw [run_cons, run_cons, map_bind, ← hstep, bind_map]
      exact bind_congr_ok fun o' _ => ih o'

/-- The clock readings, from `before` on, are in order and fit a `uint64_t`. -/
def Clocked : Nat → List Call → Prop
  | _, [] => True
  | before, .enqueue now _ :: cs => before ≤ now ∧ now < 2 ^ 64 ∧ Clocked now cs
  | before, .dequeue now later :: cs =>
      before ≤ now ∧ now ≤ later ∧ later < 2 ^ 64 ∧ Clocked later cs

instance decidableClocked : ∀ (before : Nat) (cs : List Call), Decidable (Clocked before cs)
  | _, [] => .isTrue trivial
  | _, .enqueue now _ :: cs =>
      have := decidableClocked now cs
      inferInstanceAs (Decidable (_ ∧ _ ∧ Clocked now cs))
  | _, .dequeue _ later :: cs =>
      have := decidableClocked later cs
      inferInstanceAs (Decidable (_ ∧ _ ∧ _ ∧ Clocked later cs))

/-! ### The reference -/

inductive Event where
  | tick
  | enqueue (p : QueuedPacket)
  | dequeue (now : Nat)

def Event.step : Event → Observed → Except Fault Observed
  | .tick, o => do
      let bytes ← o.1.sizeBytes
      return (o.1.update bytes, o.2)
  | .enqueue p, o => offerSeen p o
  | .dequeue now, o => do
      let (_, s) ← o.1.take now
      return (s, o.2)

/-- How often the timer has fired before `now`. -/
def ticks (created now : Nat) : Nat := (now - created - 1) / T_UPDATE

/-- The timer fires for the `k + 1`-st time `k + 1` periods after `created`. -/
theorem lt_ticks_iff {created now k : Nat} :
    k < ticks created now ↔ created + T_UPDATE * (k + 1) < now := by
  unfold ticks T_UPDATE
  omega

theorem ticks_mono (created : Nat) {now later : Nat} (h : now ≤ later) :
    ticks created now ≤ ticks created later :=
  Nat.div_le_div_right (by omega)

/-- The ticks from `before` to `now`. -/
def ticksTo (created before now : Nat) : List Event :=
  List.replicate (ticks created now - ticks created before) .tick

def timeline (created : Nat) : Nat → List Call → List Event
  | _, [] => []
  | before, .enqueue now p :: cs =>
      ticksTo created before now ++ .enqueue p :: timeline created now cs
  | before, .dequeue now later :: cs =>
      ticksTo created before now ++ .dequeue now ::
        (ticksTo created now later ++ timeline created later cs)

/-! ### Catching up -/

@[simp] theorem update_lastUpdate (bytes : Nat) (s : PIEPacketQueue) :
    (s.update bytes).lastUpdate = s.lastUpdate + T_UPDATE := by
  simp only [update, apply_ite PIEPacketQueue.lastUpdate, ite_self]

@[simp] theorem measureRate_lastUpdate (now size bytes : Nat) (s : PIEPacketQueue) :
    (s.measureRate now size bytes).lastUpdate = s.lastUpdate := by
  unfold measureRate
  dsimp only
  repeat' split
  all_goals rfl

theorem take_lastUpdate {now : Nat} {p : QueuedPacket} {s s' : PIEPacketQueue}
    (h : s.take now = .ok (p, s')) : s'.lastUpdate = s.lastUpdate := by
  obtain ⟨⟨p₀, q⟩, -, h⟩ := bind_ok.mp h
  obtain ⟨bytes, -, h⟩ := bind_ok.mp h
  cases h
  exact measureRate_lastUpdate _ _ _ _

theorem offer_lastUpdate {p : QueuedPacket} {s s' : PIEPacketQueue} (h : s.offer p = .ok s') :
    s'.lastUpdate = s.lastUpdate := by
  obtain ⟨fits, -, h⟩ := bind_ok.mp h
  cases fits with
  | false => cases h; rfl
  | true =>
      obtain ⟨⟨drop, s₁⟩, hdrop, h⟩ := bind_ok.mp h
      obtain ⟨-, -, h⟩ := bind_ok.mp h
      obtain ⟨drawn, rfl⟩ := dropEarly_frame hdrop
      cases h
      cases drop <;> rfl

/-- The queue has made the updates of the periods that ended before `now`. -/
def UpToDate (created now : Nat) (s : PIEPacketQueue) : Prop :=
  s.lastUpdate = created + T_UPDATE * ticks created now

/-- The loop makes the updates of the timer. -/
theorem calculateLoop_eq {created now : Nat} (hnow : now < 2 ^ 64) {log : List Seen} {fuel : Nat} :
    ∀ {k : Nat} {s : PIEPacketQueue}, s.lastUpdate = created + T_UPDATE * k →
      created + T_UPDATE * k ≤ now → ticks created now ≤ k + fuel →
      (calculateLoop now fuel s).map (·, log) =
        run Event.step (List.replicate (ticks created now - k) .tick) (s, log) := by
  induction fuel with
  | zero =>
      intro k s _ _ hfuel
      rw [Nat.sub_eq_zero_of_le (by omega)]
      rfl
  | succ fuel ih =>
      intro k s hlast hle hfuel
      -- the loop goes on exactly while a tick is left
      have hdiff : toU64 (now - s.lastUpdate) = now - s.lastUpdate := by
        rw [toU64, Int.emod_eq_of_lt (by omega) (by omega)]
        omega
      have hperiod : T_UPDATE < now - s.lastUpdate ↔ k < ticks created now := by
        rw [lt_ticks_iff, hlast]
        unfold T_UPDATE at *
        omega
      rw [calculateLoop, hdiff]
      by_cases hlt : k < ticks created now
      · rw [if_pos (hperiod.mpr hlt),
          show ticks created now - k = ticks created now - (k + 1) + 1 by omega,
          List.replicate_succ, run_cons, Fallible.map_bind, Event.step]
        cases s.sizeBytes with
        | error e => rfl
        | ok bytes =>
            have hnext : created + T_UPDATE * (k + 1) ≤ now := (lt_ticks_iff.mp hlt).le
            rw [ok_bind, ok_bind, ih (k := k + 1) ?_ hnext (by omega)]
            · rfl
            · rw [update_lastUpdate, hlast, Nat.mul_succ, Nat.add_assoc]
      · rw [if_neg fun h => hlt (hperiod.mp h), Nat.sub_eq_zero_of_le (Nat.not_lt.mp hlt)]
        rfl

theorem run_ticks {n : Nat} : ∀ {o o' : Observed},
    run Event.step (List.replicate n .tick) o = .ok o' →
      o'.1.lastUpdate = o.1.lastUpdate + T_UPDATE * n := by
  induction n with
  | zero => intro o o' h; cases h; rfl
  | succ n ih =>
      intro o o' h
      rw [List.replicate_succ, run_cons] at h
      obtain ⟨o₁, hfire, h⟩ := bind_ok.mp h
      obtain ⟨bytes, -, hfire⟩ := bind_ok.mp hfire
      cases hfire
      rw [ih h, update_lastUpdate, Nat.mul_succ, Nat.add_assoc, Nat.add_comm T_UPDATE]

theorem ticks_le {created now : Nat} (h : created ≤ now) :
    created + T_UPDATE * ticks created now ≤ now := by
  unfold ticks T_UPDATE
  omega

/-- `calculate_drop_prob()` is the timer since the reading before. -/
theorem calculateDropProb_eq {created before now : Nat} {s : PIEPacketQueue} (log : List Seen)
    (h : UpToDate created before s) (hcreated : created ≤ before) (hle : before ≤ now)
    (hnow : now < 2 ^ 64) : (s.calculateDropProb now).map (·, log) =
      run Event.step (ticksTo created before now) (s, log) := by
  have hbefore := ticks_le hcreated
  refine calculateLoop_eq hnow h (hbefore.trans hle) ?_
  rw [h, toU64, Int.emod_eq_of_lt (by omega) (by omega)]
  unfold ticks T_UPDATE at *
  omega

theorem calculateDropProb_upToDate {created before now : Nat} {s s' : PIEPacketQueue}
    (h : UpToDate created before s) (hcreated : created ≤ before) (hle : before ≤ now)
    (hnow : now < 2 ^ 64) (hs : s.calculateDropProb now = .ok s') : UpToDate created now s' := by
  have hrun := calculateDropProb_eq [] h hcreated hle hnow
  rw [map_ok hs] at hrun
  have hticks := run_ticks hrun.symm
  have hmono := ticks_mono created hle
  rw [UpToDate, hticks, h, Nat.add_assoc, ← Nat.mul_add, Nat.add_sub_cancel' hmono]

/-! ### Calls and their timeline -/

/-- No period ends between the reading of a `dequeue` and the reading before it. -/
def Prompt (created : Nat) : Nat → List Call → Prop
  | _, [] => True
  | _, .enqueue now _ :: cs => Prompt created now cs
  | before, .dequeue now later :: cs =>
      ticks created now = ticks created before ∧ Prompt created later cs

instance decidablePrompt (created : Nat) :
    ∀ (before : Nat) (cs : List Call), Decidable (Prompt created before cs)
  | _, [] => .isTrue trivial
  | _, .enqueue now _ :: cs => decidablePrompt created now cs
  | _, .dequeue _ later :: cs =>
      have := decidablePrompt created later cs
      inferInstanceAs (Decidable (_ ∧ Prompt created later cs))

theorem offerSeen_upToDate {created now : Nat} {p : QueuedPacket} {o o' : Observed}
    (h : UpToDate created now o.1) (ho : offerSeen p o = .ok o') : UpToDate created now o'.1 := by
  obtain ⟨s, hs, ho⟩ := bind_ok.mp ho
  cases ho
  exact (offer_lastUpdate hs).trans h

/-- An `enqueue` is the ticks up to its reading, and the arrival. -/
theorem enqueue_step_eq {created before now : Nat} {p : QueuedPacket} {o : Observed}
    (h : UpToDate created before o.1) (hcreated : created ≤ before) (hle : before ≤ now)
    (hnow : now < 2 ^ 64) : Call.step (.enqueue now p) o =
      run Event.step (ticksTo created before now) o >>= Event.step (.enqueue p) := by
  rw [← calculateDropProb_eq _ h hcreated hle hnow, bind_map]
  rfl

/-- A `dequeue` is the departure, and the ticks up to its second reading. -/
theorem dequeue_step_eq {created now later : Nat} {o : Observed}
    (h : UpToDate created now o.1) (hcreated : created ≤ now) (hle : now ≤ later)
    (hlater : later < 2 ^ 64) : Call.step (.dequeue now later) o =
      Event.step (.dequeue now) o >>= run Event.step (ticksTo created now later) := by
  have hcall : Call.step (.dequeue now later) o =
      o.1.take now >>= fun r => (r.2.calculateDropProb later).map (·, o.2) := by
    rw [Call.step, dequeue]
    cases o.1.take now with
    | error e => rfl
    | ok r => dsimp only [ok_bind]; cases r.2.calculateDropProb later <;> rfl
  have hevent : Event.step (.dequeue now) o = (o.1.take now).map fun r => (r.2, o.2) := by
    rw [Event.step]
    cases o.1.take now <;> rfl
  rw [hcall, hevent, bind_map]
  cases htake : o.1.take now with
  | error e => rfl
  | ok r =>
      have hs : UpToDate created now r.2 := (take_lastUpdate htake).trans h
      rw [ok_bind, ok_bind, calculateDropProb_eq _ hs hcreated hle hlater]

theorem enqueue_upToDate {created before now : Nat} {p : QueuedPacket} {o o' : Observed}
    (h : UpToDate created before o.1) (hcreated : created ≤ before) (hle : before ≤ now)
    (hnow : now < 2 ^ 64) (ho : Call.step (.enqueue now p) o = .ok o') :
    UpToDate created now o'.1 := by
  obtain ⟨s, hs, ho⟩ := bind_ok.mp ho
  have hup : UpToDate created now s := calculateDropProb_upToDate h hcreated hle hnow hs
  exact offerSeen_upToDate (o := (s, o.2)) hup ho

theorem dequeue_upToDate {created now later : Nat} {o o' : Observed}
    (h : UpToDate created now o.1) (hcreated : created ≤ now) (hle : now ≤ later)
    (hlater : later < 2 ^ 64) (ho : Call.step (.dequeue now later) o = .ok o') :
    UpToDate created later o'.1 := by
  obtain ⟨⟨p, s⟩, hd, ho⟩ := bind_ok.mp ho
  cases ho
  obtain ⟨⟨p₀, s₁⟩, htake, hd⟩ := bind_ok.mp hd
  obtain ⟨s₂, hs₂, hd⟩ := bind_ok.mp hd
  cases hd
  have hup : UpToDate created now s₁ := (take_lastUpdate htake).trans h
  exact calculateDropProb_upToDate hup hcreated hle hlater hs₂

theorem run_timeline {created : Nat} {cs : List Call} : ∀ {before : Nat} {o : Observed},
    UpToDate created before o.1 → created ≤ before → Clocked before cs → Prompt created before cs →
      run Call.step cs o = run Event.step (timeline created before cs) o := by
  induction cs with
  | nil => intros; rfl
  | cons c cs ih =>
      intro before o hup hcreated hclock hprompt
      cases c with
      | enqueue now p =>
          obtain ⟨hle, hnow, hclock⟩ := hclock
          rw [timeline, run_append, run_cons]
          calc Call.step (.enqueue now p) o >>= run Call.step cs
              = Call.step (.enqueue now p) o >>= run Event.step (timeline created now cs) :=
                bind_congr_ok fun o' ho => ih (enqueue_upToDate hup hcreated hle hnow ho)
                  (hcreated.trans hle) hclock hprompt
            _ = _ := by
                rw [enqueue_step_eq hup hcreated hle hnow]
                cases run Event.step (ticksTo created before now) o with
                | error e => rfl
                | ok o' => rw [ok_bind, ok_bind, run_cons]
      | dequeue now later =>
          obtain ⟨hle, hle', hlater, hclock⟩ := hclock
          obtain ⟨hticks, hprompt⟩ := hprompt
          -- no tick stands before the departure, so the packet leaves an up-to-date queue
          have hup' : UpToDate created now o.1 := by rw [UpToDate, hticks, hup]
          have hnone : ticksTo created before now = [] := by rw [ticksTo, hticks, Nat.sub_self]; rfl
          have hnow : created ≤ now := hcreated.trans hle
          rw [timeline, hnone, List.nil_append, run_cons, run_cons]
          calc Call.step (.dequeue now later) o >>= run Call.step cs
              = Call.step (.dequeue now later) o >>= run Event.step (timeline created later cs) :=
                bind_congr_ok fun o' ho => ih (dequeue_upToDate hup' hnow hle' hlater ho)
                  (hnow.trans hle') hclock hprompt
            _ = _ := by
                rw [dequeue_step_eq hup' hnow hle' hlater]
                cases Event.step (.dequeue now) o with
                | error e => rfl
                | ok o' => rw [ok_bind, ok_bind, run_append]

/-- **The loop is a timer** for every run in which no period ends just before a `dequeue`: state and
decisions are those of the reference. -/
theorem timer_equal {s : PIEPacketQueue} {cs : List Call} (hclock : Clocked s.lastUpdate cs)
    (hprompt : Prompt s.lastUpdate s.lastUpdate cs) :
    run Call.step cs (s, []) = run Event.step (timeline s.lastUpdate s.lastUpdate cs) (s, []) :=
  run_timeline (by simp [UpToDate, ticks]) (Nat.le_refl _) hclock hprompt

/-! ### An idle gap -/

def fullPacket : QueuedPacket := { arrivalTime := 0, contents := List.replicate PACKET_SIZE 0 }

/-- Room for 100 packets and no log; `qdelay_ref` is 20 ms and `max_burst` 100 ms. -/
def hundredPackets : PIEPacketQueue :=
  { packetLimit := 100, byteLimit := 0, logFd := false, bandwidth := 0, qdelayRef := 20,
    maxBurst := 100, random := fun _ => 0, lastUpdate := 0 }

/-- Eleven of 25 packets leave, which measures the rate. -/
def busy : List Call :=
  List.replicate 25 (.enqueue 0 fullPacket) ++ (List.range 11).map fun i => .dequeue (i + 1) (i + 1)

/-- A packet arrives after the end of the period, before the next one leaves. -/
def arrival : List Call := busy ++ [.enqueue 31 fullPacket, .dequeue 40 40]

theorem timer_equal_arrival : run Call.step arrival (hundredPackets, []) =
    run Event.step (timeline 0 0 arrival) (hundredPackets, []) :=
  timer_equal (s := hundredPackets) (by decide +kernel) (by decide +kernel)

/-- The queue is idle when the period ends, and a packet leaves first. -/
def idleGap : List Call := busy ++ [.dequeue 40 40, .enqueue 41 fullPacket]

/-- **A `dequeue` after an idle gap** makes the missed update with 13 packets queued, not with the 14
that were there when the period ended: the next packet sees a delay of 11 ms, not of 12. -/
theorem idle_dequeue_differs : Clocked 0 idleGap ∧
    (run Call.step idleGap (hundredPackets, [])).map Prod.snd ≠
      (run Event.step (timeline 0 0 idleGap) (hundredPackets, [])).map Prod.snd := by
  decide +kernel

end PIEPacketQueue

end Mahimahi
