import Mahimahi.Link.Runs
import Mahimahi.Packet.Codel
import Mahimahi.Packet.DropBitrate

/-!
# Link — disciplines that read the clock

A packet queue that reads the clock in `dequeue` sees the time at which the event loop gets round to
an opportunity, not the time of the opportunity.

* `late_batch_differs`: with the Octopus queue and with CoDel, the departures depend on when
  `wait_time` is called.
* `punctual_departures_eq`: over any queue, two runs that read the same packets have the same
  departures if they get round to every opportunity at the same clock reading.

A run of calls is a run of the effects of its visits (`run_effects`): opportunities that are used
and packets that are enqueued.  `Catchup.Deadlines.effects_eq` then compares the two runs.  A
`write_packets` has no effect: it changes only what no other call looks at (`Twin`).
-/

open Fallible Catchup

namespace Mahimahi

namespace LinkQueue

open AbstractPacketQueue

variable {sched : Schedule} {Q : Type}

/-! ### What has been output does not matter -/

/-- `s` with another output. -/
def withOutput (outputQueue written : List Payload) (s : LinkQueue sched Q) : LinkQueue sched Q :=
  { s with outputQueue, history := { s.history with written } }

/-- The states differ at most in what has been output. -/
def Twin (s s' : LinkQueue sched Q) : Prop := ∃ output written, s' = s.withOutput output written

theorem Twin.refl (s : LinkQueue sched Q) : Twin s s := ⟨s.outputQueue, s.history.written, rfl⟩

theorem Twin.symm (s s' : LinkQueue sched Q) (h : Twin s s') : Twin s' s := by
  obtain ⟨output, written, rfl⟩ := h
  exact ⟨s.outputQueue, s.history.written, rfl⟩

theorem Twin.trans (s₁ s₂ s₃ : LinkQueue sched Q) (h₁₂ : Twin s₁ s₂) (h₂₃ : Twin s₂ s₃) :
    Twin s₁ s₃ := by
  obtain ⟨_, _, rfl⟩ := h₁₂
  obtain ⟨output, written, rfl⟩ := h₂₃
  exact ⟨output, written, rfl⟩

theorem Twin.departed (s s' : LinkQueue sched Q) (h : Twin s s') :
    s.history.departed = s'.history.departed := by
  obtain ⟨_, _, rfl⟩ := h
  rfl

variable [AbstractPacketQueue Q]

theorem useADeliveryOpportunity_twin {s s' : LinkQueue sched Q} (h : Twin s s') :
    Twin s.useADeliveryOpportunity s'.useADeliveryOpportunity := by
  obtain ⟨output, written, rfl⟩ := h
  refine ⟨output, written, ?_⟩
  unfold useADeliveryOpportunity
  dsimp only [withOutput, recordDepartureOpportunity, writeLog]
  repeat' split
  all_goals rfl

theorem load_twin (now : Nat) {s s' : LinkQueue sched Q} (h : Twin s s') :
    Related Twin (s.load now) (s'.load now) := by
  obtain ⟨output, written, rfl⟩ := h
  unfold load
  by_cases hzero : s.packetInTransitBytesLeft = 0
  · have hzero' : (s.withOutput output written).packetInTransitBytesLeft = 0 := hzero
    rw [if_pos hzero, if_pos hzero']
    exact (Related.refl (R := Eq) (fun _ => rfl) _).bind fun _ _ hr => by
      subst hr
      exact ⟨output, written, rfl⟩
  · have hzero' : (s.withOutput output written).packetInTransitBytesLeft ≠ 0 := hzero
    rw [if_neg hzero, if_neg hzero']
    exact ⟨output, written, rfl⟩

theorem recordDeparture_twin (t : Nat) (p : QueuedPacket) {s s' : LinkQueue sched Q}
    (h : Twin s s') : Related Twin (s.recordDeparture t p) (s'.recordDeparture t p) := by
  obtain ⟨output, written, rfl⟩ := h
  unfold recordDeparture
  cases hlog : s.log with
  | none =>
      rw [if_neg (by simp), if_neg (by simp [withOutput, hlog])]
      exact ⟨output, written, rfl⟩
  | some lines =>
      rw [if_pos (by simp), if_pos (by simp [withOutput, hlog])]
      exact (Related.refl (R := Eq) (fun _ => rfl) _).bind fun _ _ hr => by
        subst hr
        exact ⟨output, written, rfl⟩

theorem depart_twin (t : Nat) {s s' : LinkQueue sched Q} (h : Twin s s') :
    Related Twin (s.depart t) (s'.depart t) := by
  have htransit : s'.packetInTransit = s.packetInTransit := by obtain ⟨_, _, rfl⟩ := h; rfl
  unfold depart
  rw [htransit]
  refine (recordDeparture_twin t s.packetInTransit h).bind ?_
  rintro s₁ _ ⟨output, written, rfl⟩
  exact ⟨_, written, rfl⟩

theorem sendSome_twin (now t b : Nat) {s s' : LinkQueue sched Q} (h : Twin s s') :
    Related (fun r r' => r.1 = r'.1 ∧ Twin r.2 r'.2) (s.sendSome now t b) (s'.sendSome now t b) := by
  refine (load_twin now h).bind ?_
  rintro s₁ _ ⟨output, written, rfl⟩
  refine (Related.refl (R := Eq) (fun _ => rfl) (s₁.checkInTransit t)).bind fun _ _ _ => ?_
  dsimp only [withOutput]
  split
  · exact (depart_twin t ⟨output, written, rfl⟩).bind fun s₂ s₂' h₂ => ⟨rfl, h₂⟩
  · exact ⟨rfl, output, written, rfl⟩

theorem serve_twin (now t : Nat) {fuel : Nat} : ∀ {b sent : Nat} {s s' : LinkQueue sched Q},
    Twin s s' → Related (fun r r' => r.1 = r'.1 ∧ Twin r.2 r'.2)
      (serve now t fuel b sent s) (serve now t fuel b sent s') := by
  induction fuel with
  | zero => exact fun h => ⟨rfl, h⟩
  | succ fuel ih =>
      intro b sent s s' h
      have hidle : (s'.packetInTransitBytesLeft = 0 ∧ empty s'.packetQueue) ↔
          (s.packetInTransitBytesLeft = 0 ∧ empty s.packetQueue) := by
        obtain ⟨_, _, rfl⟩ := h
        rfl
      rw [serve, serve, if_congr hidle rfl rfl]
      split
      · exact ⟨rfl, h⟩
      · split
        · obtain ⟨output, written, rfl⟩ := h
          exact ⟨rfl, output, written, rfl⟩
        · refine (sendSome_twin now t b h).bind ?_
          rintro ⟨n, s₁⟩ ⟨n', s₁'⟩ ⟨rfl, h₁⟩
          exact ih h₁

theorem burn_twin (now t : Nat) {s s' : LinkQueue sched Q} (h : Twin s s') :
    Related Twin (s.burn now t) (s'.burn now t) := by
  refine (serve_twin now t (useADeliveryOpportunity_twin h)).bind ?_
  rintro ⟨sent, s₁⟩ ⟨_, _⟩ ⟨rfl, output, written, rfl⟩
  exact ⟨output, written, rfl⟩

theorem enqueuePacket_twin (now : Nat) (contents : Payload) {s s' : LinkQueue sched Q}
    (h : Twin s s') : Related Twin (s.enqueuePacket now contents) (s'.enqueuePacket now contents) := by
  obtain ⟨output, written, rfl⟩ := h
  have hsame : ∀ {α : Type} (x : Except LinkFault α), Related Eq x x :=
    fun x => Related.refl (fun _ => rfl) x
  refine (hsame (ofQueue (sizeBytes s.packetQueue))).bind fun bytesBefore _ hb => ?_
  subst hb
  refine (hsame (ofQueue (sizePackets s.packetQueue))).bind fun packetsBefore _ hp => ?_
  subst hp
  refine (hsame (ofQueue (enqueue now _ s.packetQueue))).bind fun q _ hq => ?_
  subst hq
  refine (hsame (ofQueue (sizePackets q))).bind fun packetsAfter _ hp => ?_
  subst hp
  split
  · exact rfl
  · refine (hsame (ofQueue (sizeBytes q))).bind fun bytesAfter _ hb => ?_
    subst hb
    split
    · exact rfl
    · dsimp only
      split
      · exact ⟨output, written, rfl⟩
      · exact ⟨output, written, rfl⟩

/-! ### A run of calls is a run of effects -/

def effect : Effect QueuedPacket → LinkQueue sched Q → Except LinkFault (LinkQueue sched Q)
  | .fire now, s =>
      match s.nextDeliveryTime with
      | some t => s.burn now t
      | none => .ok s
  | .input p, s => s.enqueuePacket p.arrivalTime p.contents

theorem effect_twin (e : Effect QueuedPacket) (s s' : LinkQueue sched Q) (h : Twin s s') :
    Related Twin (effect e s) (effect e s') := by
  cases e with
  | fire now =>
      have hnext : s'.nextDeliveryTime = s.nextDeliveryTime := by obtain ⟨_, _, rfl⟩ := h; rfl
      rw [effect, effect, hnext]
      split
      · exact burn_twin now _ h
      · exact h
  | input p => exact enqueuePacket_twin p.arrivalTime p.contents h

/-- `rationalize` uses the opportunities that are due, one after another. -/
theorem rationalizeLoop_run {now fuel : Nat} : ∀ {s : LinkQueue sched Q}, OnSchedule s →
    due sched s.repeats now ≤ s.used + fuel →
    rationalizeLoop now fuel s =
      run effect (List.replicate (due sched s.repeats now - s.used) (.fire now)) s := by
  induction fuel with
  | zero =>
      intro s hs hfuel
      have hnone : due sched s.repeats now - s.used = 0 := by omega
      rw [hnone]
      rfl
  | succ fuel ih =>
      intro s hs hfuel
      have hdue := used_lt_due_iff hs now
      by_cases hlt : s.used < due sched s.repeats now
      · obtain ⟨t, ht, hle⟩ := hdue.mp hlt
        obtain ⟨n, hn⟩ := Nat.exists_eq_succ_of_ne_zero (Nat.sub_ne_zero_of_lt hlt)
        rw [hn, List.replicate_succ, run_cons, rationalizeLoop, effect, ht]
        simp only [if_pos hle]
        cases hb : s.burn now t with
        | error e => rfl
        | ok s₁ =>
            have hadv := (burn_advanced now hs ht).of_ok hb
            have hcount : due sched s₁.repeats now - s₁.used = n := by
              rw [hadv.repeats, hadv.used]; omega
            have hfuel' : due sched s₁.repeats now ≤ s₁.used + fuel := by
              rw [hadv.repeats, hadv.used]; omega
            rw [ok_bind, ok_bind, ih hadv.onSchedule hfuel', hcount]
      · have hnone := Nat.sub_eq_zero_of_le (Nat.le_of_not_lt hlt)
        rw [hnone, List.replicate_zero, run_nil, rationalizeLoop]
        split
        · rename_i t ht
          exact if_neg fun hle => hlt (hdue.mpr ⟨t, ht, hle⟩)
        · rfl

theorem rationalize_run {now : Nat} {s : LinkQueue sched Q} (hs : OnSchedule s) :
    s.rationalize now =
      run effect (List.replicate (due sched s.repeats now - s.used) (.fire now)) s :=
  rationalizeLoop_run hs
    (Nat.le_add_left_of_le (List.countP_le_length.trans (by simp [Schedule.deadlines])))

def Call.visit? : Call → Option (Visit QueuedPacket)
  | .readPacket now contents => some (now, some { arrivalTime := now, contents })
  | .waitTime now => some (now, none)
  | .writePackets => none

/-- The calls that bring the link up to date. -/
def visits (calls : List Call) : List (Visit QueuedPacket) := calls.filterMap Call.visit?

theorem visits_clocks (calls : List Call) : (visits calls).map Prod.fst = clocks calls := by
  rw [visits, clocks, List.map_filterMap]
  congr 1
  funext c
  cases c <;> rfl

theorem visits_inputs (calls : List Call) :
    inputs (visits calls) = (offered calls).map fun p => (p.arrivalTime, p) := by
  rw [inputs, visits, offered, List.filterMap_filterMap, List.map_filterMap]
  congr 1
  funext c
  cases c <;> rfl

theorem rationalize_used {now : Nat} {s s' : LinkQueue sched Q} (hs : OnSchedule s)
    (h : s.rationalize now = .ok s') : OnSchedule s' ∧ s'.repeats = s.repeats ∧
      s'.used = max s.used ((sched.deadlines s.repeats).upto now) :=
  ((rationalize_ensures (E := fun _ => True) (P := fun _ => True)
    (fun _ _ _ _ _ _ => ensures_iff.mpr fun _ _ => trivial) hs trivial).of_ok h).2

/-- A call that visits the link has the effects of its visit. -/
theorem step_effects {c : Call} {now : Nat} {i : Option QueuedPacket} {s : LinkQueue sched Q}
    (hs : OnSchedule s)
    (hsize : ∀ now contents, c = .readPacket now contents → contents.length ≤ PACKET_SIZE)
    (hv : c.visit? = some (now, i)) :
    Call.step c s = run effect (List.replicate ((sched.deadlines s.repeats).upto now - s.used)
        (.fire now) ++ i.toList.map .input) s ∧
      ∀ s₁, Call.step c s = .ok s₁ → OnSchedule s₁ ∧ s₁.repeats = s.repeats ∧
        s₁.used = max s.used ((sched.deadlines s.repeats).upto now) := by
  cases c with
  | readPacket now contents =>
      cases hv
      have hstep : Call.step (.readPacket now contents) s =
          s.rationalize now >>= enqueuePacket now contents :=
        if_neg (Nat.not_lt.mpr (hsize now contents rfl))
      rw [hstep]
      refine ⟨?_, fun s₂ hx => ?_⟩
      · rw [rationalize_run hs, run_append]
        congr 1
        funext s₁
        exact (run_singleton _ s₁).symm
      · obtain ⟨s₁, hs₁, hx⟩ := bind_ok.mp hx
        obtain ⟨q, log, -, rfl⟩ := enqueuePacket_ok hx
        obtain ⟨hon, hrep, hused⟩ := rationalize_used hs hs₁
        exact ⟨onSchedule_congr (s := s₁) rfl hon, hrep, hused⟩
  | waitTime now =>
      cases hv
      have hstep : Call.step (.waitTime now) s = s.rationalize now := by
        show (s.rationalize now >>= fun s => _).map Prod.snd = _
        cases s.rationalize now <;> rfl
      rw [hstep]
      refine ⟨?_, fun s₁ hx => rationalize_used hs hx⟩
      rw [rationalize_run hs]
      exact congrArg (fun es => run effect es s) (List.append_nil _).symm
  | writePackets => cases hv

theorem run_effects {calls : List Call} : ∀ {s : LinkQueue sched Q}, OnSchedule s →
    (∀ now contents, .readPacket now contents ∈ calls → contents.length ≤ PACKET_SIZE) →
    Related Twin (run Call.step calls s)
      (run effect ((sched.deadlines s.repeats).effects s.used (visits calls)) s) := by
  induction calls with
  | nil => exact fun _ _ => Twin.refl _
  | cons c calls ih =>
      intro s hs hsize
      -- the calls after this one, from the state it leads to
      have hrest : ∀ {s₁ : LinkQueue sched Q} {k : Nat}, OnSchedule s₁ → s₁.repeats = s.repeats →
          s₁.used = k → Related Twin (run Call.step calls s₁)
            (run effect ((sched.deadlines s.repeats).effects k (visits calls)) s₁) := by
        rintro s₁ _ hs₁ hrep rfl
        rw [← hrep]
        exact ih hs₁ fun now contents hmem => hsize now contents (List.mem_cons_of_mem _ hmem)
      cases hv : c.visit? with
      | some visit =>
          obtain ⟨now, i⟩ := visit
          obtain ⟨hstep, hafter⟩ := step_effects hs
            (fun now contents hc => hsize now contents (hc ▸ List.mem_cons_self)) hv
          have hvisits : visits (c :: calls) = (now, i) :: visits calls :=
            List.filterMap_cons_some hv
          rw [hvisits, Deadlines.effects, run_append, run_cons, ← hstep]
          cases hx : Call.step c s with
          | error e => exact rfl
          | ok s₁ =>
              obtain ⟨hs₁, hrep, hused⟩ := hafter s₁ hx
              exact hrest hs₁ hrep hused
      | none =>
          cases c with
          | readPacket now contents => cases hv
          | waitTime now => cases hv
          | writePackets =>
              have hs' : OnSchedule s.writePackets := onSchedule_congr (s := s) rfl hs
              have hwritten := hrest hs' rfl rfl
              refine hwritten.trans Twin.trans (related_run effect_twin _ ?_)
              exact ⟨s.outputQueue, s.history.written, rfl⟩

/-! ### Runs that get round to the opportunities at the same time -/

/-- **Two runs with the same packets have the same departures** if they get round to every
opportunity that is due at the end at the same clock reading. -/
theorem punctual_departures_eq (sched : Schedule) (repeats logging : Bool) (q : Q)
    {calls calls' : List Call} {now : Nat} (ho : Orderly (calls ++ [.waitTime now]))
    (ho' : Orderly (calls' ++ [.waitTime now])) (hread : offered calls = offered calls')
    (hpunctual : ∀ k t, sched.opportunity repeats k = some t → t ≤ now →
      (sched.deadlines repeats).firedAt k (clocks (calls ++ [.waitTime now])) =
        (sched.deadlines repeats).firedAt k (clocks (calls' ++ [.waitTime now]))) :
    (run Call.step (calls ++ [.waitTime now]) (ofArgs sched repeats logging q)).map
        (fun s => s.history.departed) =
      (run Call.step (calls' ++ [.waitTime now]) (ofArgs sched repeats logging q)).map
        (fun s => s.history.departed) := by
  -- what is not due at the end is not used in either run
  have hnever : ∀ {calls : List Call} {k : Nat}, Orderly (calls ++ [.waitTime now]) →
      (sched.deadlines repeats).due now k = false →
      (sched.deadlines repeats).firedAt k (clocks (calls ++ [.waitTime now])) = none := by
    intro calls k ho hk
    refine List.find?_eq_none.mpr fun t ht hdue => ?_
    have hle : t ≤ now := by
      rw [clocks, List.filterMap_append] at ht
      rcases List.mem_append.mp ht with ht | ht
      · exact ho.clock_le rfl t ht
      · exact (List.mem_singleton.mp ht).le
    rw [Deadlines.due_mono hle hdue] at hk
    cases hk
  have hfired : ∀ k, (sched.deadlines repeats).firedAt k (clocks (calls ++ [.waitTime now])) =
      (sched.deadlines repeats).firedAt k (clocks (calls' ++ [.waitTime now])) := by
    intro k
    cases hk : (sched.deadlines repeats).due now k with
    | false => rw [hnever ho hk, hnever ho' hk]
    | true =>
        obtain ⟨t, ht, hle⟩ := Deadlines.due_iff.mp hk
        exact hpunctual k t ht hle
  have heffects : (sched.deadlines repeats).effects 0 (visits (calls ++ [.waitTime now])) =
      (sched.deadlines repeats).effects 0 (visits (calls' ++ [.waitTime now])) := by
    refine Deadlines.effects_eq ?_ ?_ ?_ ?_
    · rw [visits_clocks]; exact ho.clock
    · rw [visits_clocks]; exact ho'.clock
    · rw [visits_inputs, visits_inputs, offered_append, offered_append, hread]
    · intro k
      rw [visits_clocks, visits_clocks, hfired]
  have hs : OnSchedule (ofArgs sched repeats logging q) := onSchedule_ofArgs repeats logging q
  have hrun := run_effects hs fun t contents hmem => (ho.size t contents hmem).2
  have hrun' := run_effects hs fun t contents hmem => (ho'.size t contents hmem).2
  refine Related.map_eq Twin.departed (hrun.trans Twin.trans ?_)
  exact (heffects ▸ hrun').symm Twin.symm

/-- All packets are read at 0. -/
def readsThenWaits (packets : List Payload) (waits : List Nat) : List Call :=
  packets.map (.readPacket 0) ++ waits.map .waitTime

theorem orderly_readsThenWaits {packets : List Payload} {waits : List Nat} {now : Nat}
    (hsize : ∀ c ∈ packets, 1 ≤ c.length ∧ c.length ≤ PACKET_SIZE)
    (hwaits : (waits ++ [now]).Pairwise (· ≤ ·)) :
    Orderly (readsThenWaits packets waits ++ [.waitTime now]) where
  clock := by
    have hclocks : clocks (readsThenWaits packets waits ++ [.waitTime now]) =
        packets.map (fun _ => 0) ++ (waits ++ [now]) := by
      simp [clocks, readsThenWaits, List.filterMap_map, Function.comp_def, Call.clock?]
    rw [hclocks, List.pairwise_append]
    refine ⟨List.pairwise_map.mpr (List.pairwise_of_forall fun _ _ => le_rfl), hwaits, ?_⟩
    intro t ht _ _
    obtain ⟨_, -, rfl⟩ := List.mem_map.mp ht
    exact Nat.zero_le _
  size t contents hmem := by
    simp only [readsThenWaits, List.mem_append, List.mem_map, List.mem_singleton, reduceCtorEq,
      and_false, exists_false, or_false, Call.readPacket.injEq] at hmem
    obtain ⟨c, hc, -, rfl⟩ := hmem
    exact hsize c hc

/-- Message 1, which may be dropped once it has waited for 15 ms, and a preempting message 2. -/
def preemptiblePair : List Payload :=
  [udpPayload 4433 1 0xc0000001 0x000f0000, udpPayload 4433 2 0xc0000002 0x02000000]

theorem preemptiblePair_size : ∀ c ∈ preemptiblePair, 1 ≤ c.length ∧ c.length ≤ PACKET_SIZE := by
  decide

theorem punctual_departures_eq_preemptiblePair :
    (run Call.step (readsThenWaits preemptiblePair [3, 10, 15] ++ [.waitTime 20])
        (ofArgs everyTen true false (DropBitrateDequeueQueue.ofArgs 100 0 false 0))).map
      (fun s => s.history.departed) =
    (run Call.step (readsThenWaits preemptiblePair [10] ++ [.waitTime 20])
        (ofArgs everyTen true false (DropBitrateDequeueQueue.ofArgs 100 0 false 0))).map
      (fun s => s.history.departed) ∧
    (run Call.step (readsThenWaits preemptiblePair [10] ++ [.waitTime 20])
        (ofArgs everyTen true false (DropBitrateDequeueQueue.ofArgs 100 0 false 0))).map
      (fun s => s.history.departed) = .ok (preemptiblePair.map fun contents => (contents, 10)) := by
  refine ⟨punctual_departures_eq everyTen true false _
    (orderly_readsThenWaits preemptiblePair_size (by decide))
    (orderly_readsThenWaits preemptiblePair_size (by decide)) rfl ?_, by decide +kernel⟩
  intro k t ht hle
  have hk : k < (everyTen.deadlines true).upto 20 :=
    Deadlines.lt_upto_iff.mpr (Deadlines.due_iff.mpr ⟨t, ht, hle⟩)
  have htwo : (everyTen.deadlines true).upto 20 = 2 := by decide
  obtain rfl | rfl : k = 0 ∨ k = 1 := by omega
  · decide
  · decide

/-! ### Runs that do not -/

/-- The departures do not depend on when `wait_time` is called. -/
def TimingIndependent (q : Q) : Prop :=
  ∀ (sched : Schedule) (repeats logging : Bool) (calls calls' : List Call) (now : Nat),
    Orderly (calls ++ [.waitTime now]) → Orderly (calls' ++ [.waitTime now]) →
    offered calls = offered calls' →
    (run Call.step (calls ++ [.waitTime now]) (ofArgs sched repeats logging q)).map
        (fun s => s.history.departed) =
      (run Call.step (calls' ++ [.waitTime now]) (ofArgs sched repeats logging q)).map
        (fun s => s.history.departed)

/-- Target and interval are 5 ms; `control_law` is exact. -/
def codelFive : CODELPacketQueue where
  packetLimit := 100
  byteLimit := 0
  logFd := false
  bandwidth := 0
  target := 5
  interval := 5
  controlLaw t count := t + Nat.sqrt (25 / count)

def fullPackets : List Payload :=
  [List.replicate 1504 1, List.replicate 1504 2, List.replicate 1504 3, List.replicate 1504 4,
    List.replicate 1504 5]

theorem fullPackets_size : ∀ c ∈ fullPackets, 1 ≤ c.length ∧ c.length ≤ PACKET_SIZE := by
  decide +kernel

/-- **A late batch drops other packets**: the discipline sees the clock reading of the batch, not
the times of its opportunities. -/
theorem late_batch_differs :
    ¬ TimingIndependent (DropBitrateDequeueQueue.ofArgs 100 0 false 0) ∧
    ¬ TimingIndependent codelFive := by
  refine ⟨fun h => ?_, fun h => ?_⟩
  · have heq := h everyTen true false (readsThenWaits preemptiblePair [10])
      (readsThenWaits preemptiblePair []) 20
      (orderly_readsThenWaits preemptiblePair_size (by decide))
      (orderly_readsThenWaits preemptiblePair_size (by decide)) rfl
    revert heq
    decide +kernel
  · have heq := h everyTen true false (readsThenWaits fullPackets [10, 20])
      (readsThenWaits fullPackets []) 30 (orderly_readsThenWaits fullPackets_size (by decide))
      (orderly_readsThenWaits fullPackets_size (by decide)) rfl
    revert heq
    decide +kernel

end LinkQueue

end Mahimahi
