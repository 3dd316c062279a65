import Mathlib.Algebra.Order.BigOperators.Group.List
import Mahimahi.Link.Watched
import Mahimahi.Queues.Discards

/-!
# Link — what the log accounts for

* `balanced_iff`: in every run, over every discipline, the packets and bytes logged as arrivals are
  those logged as departures and drops and those still in the link exactly when no `dequeue` of the
  packet queue has discarded a packet.

`read_packet` infers drops from the sizes of the queue before and after `enqueue`.  Nothing looks at
what a `dequeue` drops.  `Watched` is a packet queue that remembers whether one was about to.
-/

open Fallible MachineInt

namespace Mahimahi

open AbstractPacketQueue

/-! ### The lines that a call logs -/

namespace LinkQueue

variable {sched : Schedule} {Q : Type} [AbstractPacketQueue Q]

theorem useADeliveryOpportunity_log (s : LinkQueue sched Q) : s.useADeliveryOpportunity.log =
    s.log.map (· ++ [.opportunity (s.nextDeliveryTime.getD (2 ^ 64 - 1)) PACKET_SIZE]) := by
  unfold useADeliveryOpportunity recordDepartureOpportunity writeLog
  dsimp only
  repeat' split
  all_goals rfl

/-- A packet in transit that departs is logged with the time it took. -/
theorem depart_log {t : Nat} {s s' : LinkQueue sched Q} (h : s.depart t = .ok s') :
    ∃ queueSize dequeueRate dequeueTrace, s' = { s with
      log := s.log.map (· ++ [.departure t s.packetInTransit.size
        (t - s.packetInTransit.arrivalTime) queueSize])
      dequeueRate, dequeueTrace
      outputQueue := s.outputQueue ++ [s.packetInTransit.contents]
      history := { s.history with
        departed := s.history.departed ++ [(s.packetInTransit.contents, t)] } } := by
  obtain ⟨s₁, hs₁, h⟩ := bind_ok.mp h
  have hlog : ∃ queueSize, s₁ = { s with log := s.log.map (· ++ [.departure t
      s.packetInTransit.size (t - s.packetInTransit.arrivalTime) queueSize]) } := by
    unfold recordDeparture at hs₁
    split at hs₁
    · obtain ⟨queueSize, -, hret⟩ := bind_ok.mp hs₁
      cases hret
      exact ⟨queueSize, rfl⟩
    next hnone =>
      cases hs₁
      have : s.log = none := by simpa using hnone
      exact ⟨0, by rw [this]; exact (congrArg (fun log => { s with log }) this)⟩
  obtain ⟨queueSize, rfl⟩ := hlog
  cases h
  exact ⟨queueSize, _, _, rfl⟩

/-- The line for packets and bytes that are missing after an `enqueue`, if any are. -/
def missing (now packets bytes : Nat) : List LogLine :=
  if 0 < packets ∨ 0 < bytes then [.drop now packets bytes] else []

/-- What `read_packet` logs: the arrival, and the drop that the sizes before and after show. -/
theorem enqueuePacket_log {now : Nat} {contents : Payload} {s s' : LinkQueue sched Q}
    (h : s.enqueuePacket now contents = .ok s') :
    ∃ q bytesBefore packetsBefore bytesAfter packetsAfter,
      sizeBytes s.packetQueue = .ok bytesBefore ∧ sizePackets s.packetQueue = .ok packetsBefore ∧
      enqueue now { arrivalTime := now, contents } s.packetQueue = .ok q ∧
      sizeBytes q = .ok bytesAfter ∧ sizePackets q = .ok packetsAfter ∧
      packetsAfter ≤ toU32 (packetsBefore + 1) ∧ bytesAfter ≤ bytesBefore + contents.length ∧
      s' = { s with
        packetQueue := q
        log := s.log.map (· ++ (.arrival now contents.length ::
          missing now (toU32 (packetsBefore + 1 - packetsAfter))
            (toU32 (bytesBefore + contents.length - bytesAfter)))) } := by
  obtain ⟨bytesBefore, hbb, h⟩ := bind_ok.mp h
  obtain ⟨packetsBefore, hpb, h⟩ := bind_ok.mp h
  obtain ⟨q, hq, h⟩ := bind_ok.mp h
  obtain ⟨packetsAfter, hpa, h⟩ := bind_ok.mp h
  split at h
  · cases h
  next hpackets =>
    obtain ⟨bytesAfter, hba, h⟩ := bind_ok.mp h
    split at h
    · cases h
    next hbytes =>
      refine ⟨q, bytesBefore, packetsBefore, bytesAfter, packetsAfter, ofQueue_ok hbb,
        ofQueue_ok hpb, ofQueue_ok hq, ofQueue_ok hba, ofQueue_ok hpa, Nat.not_lt.mp hpackets,
        Nat.not_lt.mp hbytes, ?_⟩
      unfold missing
      dsimp only at h
      split at h
      next hmissing =>
        cases h
        rw [if_pos hmissing]
        simp [recordDrop, recordArrival, writeLog, Function.comp_def]
      next hmissing =>
        cases h
        rw [if_neg hmissing]
        rfl

end LinkQueue

/-! ### A queue that remembers what it was about to discard -/

structure Watched where
  queue : Discipline
  /-- no `dequeue` was called in a state where it discards -/
  quiet : Bool := true

namespace Watched

instance : AbstractPacketQueue Watched where
  enqueue ts p w := (enqueue ts p w.queue).map fun queue => { w with queue }
  dequeue ts w := (dequeue ts w.queue).map (Prod.map id fun queue =>
    { queue, quiet := w.quiet && !w.queue.discards ts })
  empty w := empty w.queue
  sizeBytes w := sizeBytes w.queue
  sizePackets w := sizePackets w.queue
  setBandwidth bandwidth w := { w with queue := setBandwidth bandwidth w.queue }

/-- Watching a queue changes nothing of what it does. -/
def unwatch : QueueMap Watched Discipline where
  map := queue
  enqueue_map ts p w := by
    show _ = Except.map _ (Except.map _ (enqueue ts p w.queue))
    cases enqueue ts p w.queue <;> rfl
  dequeue_map ts w := by
    show _ = Except.map _ (Except.map _ (dequeue ts w.queue))
    cases dequeue ts w.queue <;> rfl
  empty_map _ := rfl
  sizeBytes_map _ := rfl
  sizePackets_map _ := rfl
  setBandwidth_map _ _ := rfl

end Watched

/-! ### The books -/

def LogLine.arrived : LogLine → Nat × Nat
  | .arrival _ size => (1, size)
  | _ => 0

def LogLine.departed : LogLine → Nat × Nat
  | .departure _ size _ _ => (1, size)
  | _ => 0

def LogLine.dropped : LogLine → Nat × Nat
  | .drop _ packets bytes => (packets, bytes)
  | _ => 0

namespace LinkQueue

section

variable {sched : Schedule} {Q : Type}

/-- The packets and bytes of all lines of one kind. -/
def logged (f : LogLine → Nat × Nat) (s : LinkQueue sched Q) : Nat × Nat :=
  ((s.log.getD []).map f).sum

/-- The packet of which bytes are left to be sent. -/
def transit (s : LinkQueue sched Q) : List QueuedPacket :=
  if s.packetInTransitBytesLeft = 0 then [] else [s.packetInTransit]

theorem logged_append {f : LogLine → Nat × Nat} {s s' : LinkQueue sched Q} {lines : List LogLine}
    (hlog : s.log.isSome = true) (h : s'.log = s.log.map (· ++ lines)) :
    s'.logged f = s.logged f + (lines.map f).sum := by
  obtain ⟨old, hold⟩ := Option.isSome_iff_exists.mp hlog
  simp [logged, h, hold]

end

variable {sched : Schedule}

/-- Every arrival logged departed, was dropped, or is still there: packets and bytes. -/
def Balanced (s : LinkQueue sched Discipline) : Prop :=
  s.logged LogLine.arrived = s.logged LogLine.departed + s.logged LogLine.dropped +
    tally s.packetQueue.internalQueue + tally s.transit

/-- The same but for the packets that were lost inside `dequeue`. -/
structure Accounts (s : LinkQueue sched Watched) : Prop where
  log : s.log.isSome = true
  counted : s.packetQueue.queue.counted.Counted
  small : totalBytes s.packetQueue.queue.internalQueue < 2 ^ 31
  sizes : ∀ x ∈ s.packetQueue.queue.counted.entries, 44 ≤ x.2.length
  books : ∃ lost, s.logged LogLine.arrived = s.logged LogLine.departed + s.logged LogLine.dropped +
      tally s.packetQueue.queue.internalQueue + tally s.transit + tally lost ∧
    (lost = [] ↔ s.packetQueue.quiet = true)

theorem Accounts.balanced {s : LinkQueue sched Watched} (h : Accounts s) :
    Balanced (s.mapQueue Watched.queue) ↔ s.packetQueue.quiet = true := by
  obtain ⟨lost, hbooks, hquiet⟩ := h.books
  rw [← hquiet, ← tally_eq_zero]
  constructor
  · intro hbal
    exact add_eq_left.mp (hbooks.symm.trans hbal)
  · intro hzero
    rw [hzero, add_zero] at hbooks
    exact hbooks

theorem missing_dropped (now packets bytes : Nat) :
    ((missing now packets bytes).map LogLine.dropped).sum = (packets, bytes) := by
  unfold missing
  split
  · rfl
  next hnone =>
    obtain ⟨rfl, rfl⟩ : packets = 0 ∧ bytes = 0 := by omega
    rfl

theorem missing_arrived (now packets bytes : Nat) :
    ((missing now packets bytes).map LogLine.arrived).sum = 0 := by
  unfold missing
  split <;> rfl

theorem missing_departed (now packets bytes : Nat) :
    ((missing now packets bytes).map LogLine.departed).sum = 0 := by
  unfold missing
  split <;> rfl

/-- Only the log, the queue and the packet in transit matter. -/
theorem Accounts.of_eq {s s' : LinkQueue sched Watched} (h : Accounts s) (lines : List LogLine)
    (hlog : s'.log = s.log.map (· ++ lines)) (hqueue : s'.packetQueue = s.packetQueue)
    (hbooks : (lines.map LogLine.arrived).sum + tally s.transit =
      (lines.map LogLine.departed).sum + (lines.map LogLine.dropped).sum + tally s'.transit) :
    Accounts s' where
  log := by rw [hlog, Option.isSome_map]; exact h.log
  counted := hqueue ▸ h.counted
  small := hqueue ▸ h.small
  sizes := hqueue ▸ h.sizes
  books := by
    obtain ⟨lost, hold, hquiet⟩ := h.books
    refine ⟨lost, ?_, hqueue ▸ hquiet⟩
    rw [logged_append h.log hlog, logged_append h.log hlog, logged_append h.log hlog, hold, hqueue]
    have hregroup : ∀ D R q t l A : Nat × Nat, D + R + q + t + l + A = A + t + (D + R + q + l) :=
      fun D R q t l A => by abel
    rw [hregroup, hbooks]
    abel

/-! ### One call -/

theorem load_accounts {now : Nat} {s s' : LinkQueue sched Watched} (h : Accounts s)
    (hload : s.load now = .ok s') : Accounts s' := by
  -- what `dequeue` discards besides the packet it returns joins the lost
  rcases load_ok hload with ⟨hidle, p, w, hw, rfl⟩ | ⟨-, rfl⟩
  · have hd : Discipline.dequeue (fun _ => now) s.packetQueue.queue = .ok (p, w.queue) ∧
        w.quiet = (s.packetQueue.quiet && !s.packetQueue.queue.discards now) := by
      obtain ⟨⟨p₁, q₁⟩, hq₁, hpw⟩ := of_map_ok hw
      cases hpw
      exact ⟨hq₁, rfl⟩
    obtain ⟨hdeq, hquiet'⟩ := hd
    have hyields := Discipline.dequeue_yields hdeq
    have hsizes : ∀ x ∈ p.entry :: w.queue.counted.entries, 44 ≤ x.2.length :=
      fun x hx => h.sizes x (hyields.entries.subset hx)
    have hpos : p.size ≠ 0 := by
      have : 44 ≤ p.size := hsizes _ List.mem_cons_self
      omega
    obtain ⟨gone, hgone, hdiscards⟩ := Discipline.dequeue_takes h.counted h.small hdeq
    have hbytes := congrArg Prod.snd hgone
    have hsmall := h.small
    obtain ⟨lost, hold, hquiet⟩ := h.books
    have htransit : s.transit = [] := if_pos hidle
    refine ⟨h.log, hyields.counted h.counted, ?_,
      fun x hx => hsizes x (List.mem_cons_of_mem _ hx), lost ++ gone, ?_, ?_⟩
    · show totalBytes w.queue.counted.internalQueue < 2 ^ 31
      simp only [tally, Prod.snd_add] at hbytes
      unfold Discipline.internalQueue at hsmall
      omega
    · have htransit' : transit ({ s with
          packetInTransit := p, packetInTransitBytesLeft := p.size, packetQueue := w
          history := { s.history with taken := s.history.taken ++ [p] } } :
            LinkQueue sched Watched) = [p] := if_neg hpos
      rw [htransit']
      show s.logged LogLine.arrived = s.logged LogLine.departed + s.logged LogLine.dropped +
        tally w.queue.counted.internalQueue + tally [p] + tally (lost ++ gone)
      rw [htransit, tally_nil, add_zero] at hold
      rw [hold, tally_append, Discipline.internalQueue, hgone]
      abel
    · rw [List.append_eq_nil_iff, hquiet, hdiscards, hquiet', Bool.and_eq_true, Bool.not_eq_true']
  · exact h

theorem sendSome_accounts {now t bytesLeft : Nat} {s : LinkQueue sched Watched} (h : Accounts s) :
    Ensures (fun _ => True) (fun r => Accounts r.2) (s.sendSome now t bytesLeft) := by
  refine sendSome_ensures (ensures_iff.mpr fun s₁ hload => ensures_iff.mpr fun _ hcheck => ?_)
  have h₁ := load_accounts h hload
  have hbusy : s₁.transit = [s₁.packetInTransit] :=
    if_neg (Nat.pos_iff_ne_zero.mp (checkInTransit_pos hcheck))
  refine ⟨fun hlt => ?_, fun _ => ensures_iff.mpr fun s₂ hs₂ => ?_⟩
  · have hne : s₁.packetInTransitBytesLeft - bytesLeft ≠ 0 := by omega
    have hstill : transit { s₁ with
        packetInTransitBytesLeft := s₁.packetInTransitBytesLeft - bytesLeft } =
          [s₁.packetInTransit] := if_neg hne
    exact h₁.of_eq [] (by simp) rfl (by rw [hstill, hbusy]; rfl)
  · obtain ⟨queueSize, _, _, rfl⟩ := depart_log hs₂
    refine h₁.of_eq [.departure t s₁.packetInTransit.size
      (t - s₁.packetInTransit.arrivalTime) queueSize] rfl rfl ?_
    rw [hbusy]
    simp [LogLine.arrived, LogLine.departed, LogLine.dropped, transit, tally]

theorem burn_accounts {now t : Nat} {s : LinkQueue sched Watched} (h : Accounts s) :
    Ensures (fun _ => True) Accounts (s.burn now t) := by
  have huse : Accounts s.useADeliveryOpportunity := by
    obtain ⟨_, _, _, _, hframe⟩ := useADeliveryOpportunity_frame s
    have hlog := useADeliveryOpportunity_log s
    have hqueue : s.useADeliveryOpportunity.packetQueue.queue.counted =
        s.packetQueue.queue.counted := by
      rw [hframe]
      exact Discipline.fifo.setBandwidth_eq _ _
    have hquiet : s.useADeliveryOpportunity.packetQueue.quiet = s.packetQueue.quiet := by
      rw [hframe]
      rfl
    have htransit : s.useADeliveryOpportunity.transit = s.transit := by rw [hframe]; rfl
    obtain ⟨lost, hold, hiff⟩ := h.books
    refine ⟨by rw [hlog, Option.isSome_map]; exact h.log, hqueue ▸ h.counted, ?_,
      hqueue ▸ h.sizes, lost, ?_, hquiet ▸ hiff⟩
    · unfold Discipline.internalQueue
      rw [hqueue]
      exact h.small
    · rw [logged_append h.log hlog, logged_append h.log hlog, logged_append h.log hlog, htransit,
        Discipline.internalQueue, hqueue]
      simpa [LogLine.arrived, LogLine.departed, LogLine.dropped, Discipline.internalQueue] using hold
  refine burn_ensures ((serve_ensures (P := fun _ _ s => Accounts s) (R := fun r => Accounts r.2)
    (fun _ _ _ _ hs _ => (sendSome_accounts hs).mono fun r hr _ => hr) (fun _ _ hs => hs)
    (fun _ _ _ _ hs _ _ => ?_) le_rfl huse).mono fun r hr => ?_)
  · exact hs.of_eq [] (by simp [foundEmpty]) rfl (by rfl)
  · exact hr.of_eq [] (by simp) rfl (by rfl)

/-- An `enqueue` adds nothing but the packet offered. -/
theorem enqueue_sizes {now : Nat} {p : QueuedPacket} {c q : Discipline}
    (hq : c.enqueue now p = .ok q) (hsizes : ∀ x ∈ c.counted.entries, 44 ≤ x.2.length)
    (hp : 44 ≤ p.size) :
    (∀ x ∈ q.counted.entries, 44 ≤ x.2.length) ∧
      totalBytes q.counted.internalQueue ≤ totalBytes c.counted.internalQueue + p.size := by
  have hoffered := Discipline.enqueue_offered hq
  refine ⟨fun x hx => ?_, hoffered.totalBytes_le⟩
  rcases List.mem_append.mp (hoffered.sublist.subset hx) with hx | hx
  · exact hsizes x hx
  · rw [List.mem_singleton.mp hx]
    exact hp

/-- The arrival that is logged and the drop account for the sizes before and after an `enqueue`. -/
theorem Accounts.enqueued {now size : Nat} {q : Discipline} {s s' : LinkQueue sched Watched}
    (h : Accounts s) (missed : Nat × Nat)
    (hlog : s'.log = s.log.map
      (· ++ (.arrival now size :: LinkQueue.missing now missed.1 missed.2)))
    (hqueue : s'.packetQueue = { s.packetQueue with queue := q }) (htransit : s'.transit = s.transit)
    (hcounted : q.counted.Counted) (hsmall : totalBytes q.counted.internalQueue < 2 ^ 31)
    (hsizes : ∀ x ∈ q.counted.entries, 44 ≤ x.2.length)
    (hmissed : missed + tally q.counted.internalQueue =
      tally s.packetQueue.queue.counted.internalQueue + (1, size)) : Accounts s' where
  log := by rw [hlog, Option.isSome_map]; exact h.log
  counted := hqueue ▸ hcounted
  small := hqueue ▸ hsmall
  sizes := hqueue ▸ hsizes
  books := by
    obtain ⟨lost, hold, hquiet⟩ := h.books
    refine ⟨lost, ?_, hqueue ▸ hquiet⟩
    rw [logged_append h.log hlog, logged_append h.log hlog, logged_append h.log hlog, htransit,
      hold, hqueue]
    simp only [List.map_cons, List.sum_cons, missing_arrived, missing_departed, missing_dropped,
      LogLine.arrived, LogLine.departed, LogLine.dropped, add_zero, zero_add]
    have hregroup : ∀ D R q t l A : Nat × Nat, D + R + q + t + l + A = D + R + (q + A) + t + l :=
      fun D R q t l A => by abel
    rw [hregroup, Discipline.internalQueue, ← hmissed, Discipline.internalQueue]
    abel

theorem enqueuePacket_accounts {now : Nat} {contents : Payload} {s s' : LinkQueue sched Watched}
    (h : Accounts s) (hsize : 44 ≤ contents.length ∧ contents.length ≤ 1504)
    (henq : s.enqueuePacket now contents = .ok s') : Accounts s' := by
  obtain ⟨w, bytesBefore, packetsBefore, bytesAfter, packetsAfter, hbb, hpb, hw, hba, hpa,
    hpackets, hbytes, hs'⟩ := enqueuePacket_log henq
  obtain ⟨q, hq, rfl⟩ := of_map_ok (x := s.packetQueue.queue.enqueue now _)
    (f := fun queue => { s.packetQueue with queue }) hw
  have hcounted : q.counted.Counted := (Discipline.enqueue_offered hq).counted h.counted
  have hsmall : totalBytes s.packetQueue.queue.counted.internalQueue < 2 ^ 31 := h.small
  obtain ⟨hsizes, htotal⟩ := enqueue_sizes hq h.sizes hsize.1
  have hpsize : QueuedPacket.size { arrivalTime := now, contents } = contents.length := rfl
  -- the sizes that are read before and after are those of the lists
  obtain ⟨hsmall', rfl⟩ := CountedQueue.Counted.sizeBytes_of_ok hcounted (by omega) hba
  cases (h.counted.sizeBytes_eq hsmall).symm.trans hbb
  have hlength := CountedQueue.length_le_of_nonempty fun x hx => (h.sizes x hx).trans' (by decide)
  have hlength' := CountedQueue.length_le_of_nonempty fun x hx => (hsizes x hx).trans' (by decide)
  cases (h.counted.sizePackets_eq (by omega)).symm.trans hpb
  cases (hcounted.sizePackets_eq (by omega)).symm.trans hpa
  rw [toU32_of_range (by omega) (by omega)] at hpackets
  rw [toU32_of_range (by omega) (by omega), toU32_of_range (by omega) (by omega)] at hs'
  refine h.enqueued (_, _) (by rw [hs']) (by rw [hs']) (by rw [hs']; rfl) hcounted hsmall' hsizes ?_
  simp only [tally, Prod.mk_add_mk, Prod.mk.injEq]
  omega

theorem accounts_ofArgs (repeats : Bool) (a : QueueArgs) :
    Accounts (ofArgs sched repeats true { queue := a.make }) where
  log := rfl
  counted := Discipline.counted_make a ▸ CountedQueue.counted_nil
  small := by
    show totalBytes a.make.counted.internalQueue < 2 ^ 31
    rw [Discipline.counted_make]
    decide
  sizes x hx := by
    change x ∈ a.make.counted.entries at hx
    rw [Discipline.counted_make] at hx
    cases hx
  books := by
    refine ⟨[], ?_, by simp [ofArgs]⟩
    show 0 = 0 + 0 + tally a.make.counted.internalQueue + tally [] + tally []
    rw [Discipline.counted_make]
    rfl

variable (sched) in
/-- No `dequeue` of the packet queue was called in a state where it discards. -/
def Quiet (repeats : Bool) (a : QueueArgs) (calls : List Call) : Prop :=
  ∃ w : LinkQueue sched Watched,
    run Call.step calls (ofArgs sched repeats true { queue := a.make }) = .ok w ∧
      w.packetQueue.quiet = true

/-- The run that is watched. -/
theorem run_watched {repeats : Bool} {a : QueueArgs} {calls : List Call}
    {s : LinkQueue sched Discipline}
    (hrun : run Call.step calls (ofArgs sched repeats true a.make) = .ok s) :
    ∃ w : LinkQueue sched Watched,
      run Call.step calls (ofArgs sched repeats true { queue := a.make }) = .ok w ∧
        w.mapQueue Watched.queue = s := by
  have hwatch : run Call.step calls (ofArgs sched repeats true a.make) =
      (run Call.step calls (ofArgs sched repeats true { queue := a.make })).map
        (mapQueue Watched.queue) :=
    run_mapQueue Watched.unwatch calls (ofArgs sched repeats true { queue := a.make })
  exact of_map_ok (hwatch.symm.trans hrun)

theorem run_accounts {repeats : Bool} {a : QueueArgs} {calls : List Call}
    {w : LinkQueue sched Watched}
    (hsize : ∀ now contents, .readPacket now contents ∈ calls →
      44 ≤ contents.length ∧ contents.length ≤ 1504)
    (hw : run Call.step calls (ofArgs sched repeats true { queue := a.make }) = .ok w) :
    Accounts w :=
  ((run_keeps (E := fun _ => True) (P := Accounts) trivial
    (fun _ _ _ _ hs _ _ => burn_accounts hs)
    (fun _ _ _ hmem _ hs _ _ => ensures_iff.mpr fun _ => enqueuePacket_accounts hs (hsize _ _ hmem))
    (fun _ hs => hs.of_eq [] (by simp [writePackets]) rfl rfl)
    (onSchedule_ofArgs repeats true _) (accounts_ofArgs repeats a)).of_ok hw).1

/-- **The log accounts for every packet exactly when no `dequeue` has discarded one.** -/
theorem balanced_iff {repeats : Bool} {a : QueueArgs} {calls : List Call}
    {s : LinkQueue sched Discipline}
    (hsize : ∀ now contents, .readPacket now contents ∈ calls →
      44 ≤ contents.length ∧ contents.length ≤ 1504)
    (hrun : run Call.step calls (ofArgs sched repeats true a.make) = .ok s) :
    Balanced s ↔ Quiet sched repeats a calls := by
  obtain ⟨w, hw, rfl⟩ := run_watched hrun
  rw [(run_accounts hsize hw).balanced]
  constructor
  · intro hquiet
    exact ⟨w, hw, hquiet⟩
  · rintro ⟨w', hw', hquiet⟩
    cases hw.symm.trans hw'
    exact hquiet

/-- CoDel with a target of 5 and an interval of 10. -/
def tenMs : CodelArgs :=
  { packetLimit := 0, byteLimit := 100000, logFd := false, bandwidth := 0,
    limited := .inr (Nat.succ_ne_zero _), target := 5, interval := 10,
    controlLaw := fun t _ => t + 10, target_ne := Nat.succ_ne_zero _,
    interval_ne := Nat.succ_ne_zero _ }

/-- Five packets, of which one is sent at 10 and one at 20. -/
def fiveFull : List Call :=
  List.replicate 5 (.readPacket 0 (List.replicate 1504 0)) ++ [.waitTime 10, .waitTime 20]

/-- The `dequeue` at 20 drops a packet, and no line says so. -/
theorem codel_drop_unlogged : ∃ s : LinkQueue everyTen Discipline,
    run Call.step fiveFull (ofArgs everyTen true true (QueueArgs.make (.codel tenMs))) = .ok s ∧
      s.logged LogLine.dropped = 0 ∧ ¬ Balanced s := by
  obtain ⟨s, hs, hbooks⟩ := of_map_ok
    (x := run Call.step fiveFull (ofArgs everyTen true true (QueueArgs.make (.codel tenMs))))
    (f := fun s => (s.logged LogLine.dropped, s.logged LogLine.arrived, s.logged LogLine.departed,
      tally s.packetQueue.internalQueue, tally s.transit))
    (b := (0, (5, 7520), (2, 3008), (2, 3008), 0)) (by decide +kernel)
  simp only [Prod.mk.injEq] at hbooks
  obtain ⟨hdropped, harrived, hdeparted, hqueue, htransit⟩ := hbooks
  refine ⟨s, hs, hdropped, fun hbal => ?_⟩
  rw [Balanced, hdropped, harrived, hdeparted, hqueue, htransit] at hbal
  exact absurd hbal (by decide)

/-- A queue with room for one packet: the second is dropped, and logged as dropped. -/
theorem balanced_iff_sharedOpportunity : ∃ s : LinkQueue everyTen Discipline,
    run Call.step sharedOpportunity (ofArgs everyTen true true
      (QueueArgs.make (.dropTail ⟨1, 0, false, 0, by decide⟩))) = .ok s ∧
      (Balanced s ↔
        Quiet everyTen true (.dropTail ⟨1, 0, false, 0, by decide⟩) sharedOpportunity) := by
  obtain ⟨s, hs, -⟩ := of_map_ok (x := run Call.step sharedOpportunity (ofArgs everyTen true true
      (QueueArgs.make (.dropTail ⟨1, 0, false, 0, by decide⟩))))
    (f := fun s => s.logged LogLine.dropped) (b := (1, 1000)) (by decide +kernel)
  refine ⟨s, hs, balanced_iff (fun now contents hmem => ?_) hs⟩
  simp only [sharedOpportunity, List.mem_cons, List.not_mem_nil, or_false, reduceCtorEq,
    Call.readPacket.injEq] at hmem
  rcases hmem with ⟨-, hc⟩ | ⟨-, hc⟩
  · rw [hc, List.length_replicate]; decide
  · rw [hc, List.length_replicate]; decide

/-! ### The disciplines that drop in `enqueue` only -/

end LinkQueue

/-- CoDel and the Octopus queue. -/
def Discipline.dropsInDequeue : Discipline → Bool
  | .codel _ => true
  | .dropBitrateDequeue _ => true
  | _ => false

namespace Discipline

theorem enqueue_dropsInDequeue {ts : Nat} {p : QueuedPacket} {q q' : Discipline}
    (h : q.enqueue ts p = .ok q') : q'.dropsInDequeue = q.dropsInDequeue := by
  cases q
  all_goals
    rw [enqueue] at h
    obtain ⟨q₁, -, rfl⟩ := of_map_ok h
    rfl

theorem dequeue_dropsInDequeue {clock : Nat → Nat} {p : QueuedPacket} {q q' : Discipline}
    (h : q.dequeue clock = .ok (p, q')) : q'.dropsInDequeue = q.dropsInDequeue := by
  cases q
  all_goals
    rw [dequeue] at h
    obtain ⟨q₁, -, heq⟩ := of_map_ok h
    cases heq
    rfl

theorem setBandwidth_dropsInDequeue (bandwidth : Nat) (q : Discipline) :
    (q.setBandwidth bandwidth).dropsInDequeue = q.dropsInDequeue := by
  cases q <;> rfl

theorem discards_of_dropsInDequeue {q : Discipline} (h : q.dropsInDequeue = false) (now : Nat) :
    q.discards now = false := by
  cases q <;> first | rfl | cases h

end Discipline

namespace LinkQueue

variable {sched : Schedule}

/-- What the queue's functions keep, a link over it keeps. -/
theorem run_queueInvariant {Q : Type} [AbstractPacketQueue Q] {I : Q → Prop}
    (henq : ∀ {ts : Nat} {p : QueuedPacket} {q q' : Q}, I q → enqueue ts p q = .ok q' → I q')
    (hdeq : ∀ {ts : Nat} {p : QueuedPacket} {q q' : Q}, I q → dequeue ts q = .ok (p, q') → I q')
    (hset : ∀ {bandwidth : Nat} {q : Q}, I q → I (setBandwidth bandwidth q)) {calls : List Call}
    {s₀ s : LinkQueue sched Q} (hs₀ : OnSchedule s₀) (hI : I s₀.packetQueue)
    (hrun : run Call.step calls s₀ = .ok s) : I s.packetQueue := by
  refine ((run_keeps (E := fun _ => True) (P := fun s => I s.packetQueue) trivial
    (fun s t now _ hs _ _ => ?_) (fun s now contents _ _ hs _ _ => ?_) (fun _ hs => hs) hs₀
    hI).of_ok hrun).1
  · obtain ⟨_, _, _, _, hframe⟩ := useADeliveryOpportunity_frame s
    have huse : I s.useADeliveryOpportunity.packetQueue := by
      rw [hframe]
      exact hset hs
    refine burn_ensures ((serve_ensures (P := fun _ _ s => I s.packetQueue)
      (R := fun r : Nat × LinkQueue sched Q => I r.2.packetQueue) ?_ (fun _ _ hs => hs)
      (fun _ _ _ _ hs _ _ => hs) le_rfl huse).mono fun r hr => hr)
    intro bytesLeft sent s _ hs _
    refine sendSome_ensures (ensures_iff.mpr fun s₁ hload => ensures_iff.mpr fun _ _ => ?_)
    have h₁ : I s₁.packetQueue := by
      rcases load_ok hload with ⟨-, p, q, hq, rfl⟩ | ⟨-, rfl⟩
      · exact hdeq hs hq
      · exact hs
    exact ⟨fun _ _ => h₁, fun _ => ensures_iff.mpr fun s₂ hs₂ _ => by
      obtain ⟨_, _, _, rfl⟩ := depart_log hs₂
      exact h₁⟩
  · refine ensures_iff.mpr fun s' hs' => ?_
    obtain ⟨q, log, hq, rfl⟩ := enqueuePacket_ok hs'
    exact henq hs hq

/-- The log accounts for every packet of the other five disciplines. -/
theorem balanced_of_dropsInDequeue {repeats : Bool} {a : QueueArgs} {calls : List Call}
    {s : LinkQueue sched Discipline} (ha : a.make.dropsInDequeue = false)
    (hsize : ∀ now contents, .readPacket now contents ∈ calls →
      44 ≤ contents.length ∧ contents.length ≤ 1504)
    (hrun : run Call.step calls (ofArgs sched repeats true a.make) = .ok s) : Balanced s := by
  obtain ⟨w, hw, rfl⟩ := run_watched hrun
  refine (run_accounts hsize hw).balanced.mpr ?_
  have hs₀ : OnSchedule (ofArgs sched repeats true ({ queue := a.make } : Watched)) :=
    onSchedule_ofArgs repeats true _
  refine (run_queueInvariant (I := fun w : Watched =>
    w.quiet = true ∧ w.queue.dropsInDequeue = false) ?_ ?_ ?_ hs₀ ⟨rfl, ha⟩ hw).1
  · rintro ts p q q' ⟨hquiet, hclass⟩ hq
    obtain ⟨q₁, hq₁, rfl⟩ := of_map_ok (x := q.queue.enqueue ts p)
      (f := fun queue => { q with queue }) hq
    exact ⟨hquiet, (Discipline.enqueue_dropsInDequeue hq₁).trans hclass⟩
  · rintro ts p q q' ⟨hquiet, hclass⟩ hq
    obtain ⟨⟨p₁, q₁⟩, hq₁, heq⟩ := of_map_ok (x := q.queue.dequeue fun _ => ts)
      (f := Prod.map id fun queue : Discipline =>
        ({ queue, quiet := q.quiet && !q.queue.discards ts } : Watched)) hq
    cases heq
    refine ⟨?_, (Discipline.dequeue_dropsInDequeue hq₁).trans hclass⟩
    rw [hquiet, Discipline.discards_of_dropsInDequeue hclass]
    rfl
  · rintro bandwidth q ⟨hquiet, hclass⟩
    exact ⟨hquiet, (Discipline.setBandwidth_dropsInDequeue bandwidth q.queue).trans hclass⟩

end LinkQueue

end Mahimahi
