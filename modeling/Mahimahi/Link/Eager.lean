import Mahimahi.Library.Server
import Mahimahi.Link.Runs

/-!
# Link — batching changes no departure

The reference link, `eagerDepartures`, is an eager server: it knows all packets, visits the
opportunities one after another, and sends up to `PACKET_SIZE` bytes at each of the packets that
arrived before it.

* `link_is_eager`: over `InfinitePacketQueue` the departures up to any time that a run has reached
  are those of the reference link, which knows nothing of the calls but the packets they read.

The state of the link is that of the server: its `work` is what the visits made so far have left of
the packets read so far (`Served`).  A packet arrives after all of these visits (`serve_late`), and
one opportunity is one visit (`burn_visits`).
-/

open Fallible MachineInt

namespace Mahimahi

namespace LinkQueue

open AbstractPacketQueue

variable {sched : Schedule}

/-- A packet of which nothing has been sent. -/
def whole (p : QueuedPacket) : QueuedPacket × Nat := (p, p.size)

/-- The departures of the reference link up to `now`. -/
def eagerDepartures (sched : Schedule) (repeats : Bool) (now : Nat) (packets : List QueuedPacket) :
    List (Payload × Nat) :=
  (Server.serve QueuedPacket.arrivalTime PACKET_SIZE (sched.upTo repeats now)
    (packets.map whole)).1.map fun x => (x.1.contents, x.2)

/-- The departures of the link up to `now`. -/
def departuresUpTo {Q : Type} (now : Nat) (s : LinkQueue sched Q) : List (Payload × Nat) :=
  s.history.departed.filter fun d => decide (d.2 ≤ now)

/-- What is to be sent: the rest of the packet in transit, and the queue. -/
def work (s : LinkQueue sched InfinitePacketQueue) : List (QueuedPacket × Nat) :=
  (if s.packetInTransitBytesLeft = 0 then []
    else [(s.packetInTransit, s.packetInTransitBytesLeft)]) ++
    s.packetQueue.internalQueue.map whole

theorem work_loading {s : LinkQueue sched InfinitePacketQueue}
    (h : s.packetInTransitBytesLeft = 0) : s.work = s.packetQueue.internalQueue.map whole := by
  rw [work, if_pos h, List.nil_append]

theorem work_sending {s : LinkQueue sched InfinitePacketQueue}
    (h : 0 < s.packetInTransitBytesLeft) : s.work = (s.packetInTransit, s.packetInTransitBytesLeft) ::
      s.packetQueue.internalQueue.map whole := by
  rw [work, if_neg (Nat.ne_of_gt h), List.singleton_append]

/-- The work is well formed, and the queue's counters are right as long as `bound` is small. -/
structure Ready (early : Nat → Prop) (bound : Nat) (s : LinkQueue sched InfinitePacketQueue) :
    Prop where
  counted : s.packetQueue.Counted
  bytes : totalBytes s.packetQueue.internalQueue ≤ bound
  jobs : ∀ j ∈ s.work, 1 ≤ j.2 ∧ j.2 ≤ j.1.size ∧ j.1.size ≤ PACKET_SIZE ∧ early j.1.arrivalTime

theorem Ready.length_le {early : Nat → Prop} {bound : Nat}
    {s : LinkQueue sched InfinitePacketQueue} (h : Ready early bound s) :
    s.packetQueue.internalQueue.length ≤ bound := by
  refine (length_le_totalBytes fun p hp => ?_).trans h.bytes
  exact (h.jobs (whole p) (List.mem_append_right _ (List.mem_map_of_mem hp))).1

/-! ### One opportunity is one visit -/

/-- Loading a packet changes nothing about the work. -/
theorem load_ready {E : LinkFault → Prop} {early : Nat → Prop} {now bound : Nat}
    {s : LinkQueue sched InfinitePacketQueue} (h : Ready early bound s)
    (hbusy : ¬ (s.packetInTransitBytesLeft = 0 ∧ empty s.packetQueue)) :
    Ensures E (fun s' => Ready early bound s' ∧ 0 < s'.packetInTransitBytesLeft ∧
      s'.work = s.work ∧ s'.history.departed = s.history.departed) (s.load now) := by
  unfold load
  split
  · rename_i hzero
    have hempty : s.packetQueue.internalQueue.isEmpty = false := by
      simpa [hzero, empty, CountedQueue.empty] using hbusy
    match hq : s.packetQueue.internalQueue with
    | [] => rw [hq] at hempty; cases hempty
    | p :: rest =>
        have hwork := work_loading hzero
        rw [hq, List.map_cons] at hwork
        have hp := h.jobs (whole p) (by rw [hwork]; exact List.mem_cons_self)
        have hpop := CountedQueue.pop_cons hq
        have hcounted := (CountedQueue.pop_ok hpop).2 h.counted
        have hbytes := h.bytes
        rw [hq, totalBytes_cons] at hbytes
        have hd : dequeue now s.packetQueue = .ok (p, (⟨⟨toI32 (s.packetQueue.queueSizeInBytes - p.size),
            toI32 (s.packetQueue.queueSizeInPackets - 1), rest⟩⟩ : InfinitePacketQueue)) := by
          show InfinitePacketQueue.dequeue s.packetQueue = _
          rw [InfinitePacketQueue.dequeue, hpop]
          rfl
        rw [hd]
        have hwork' := work_sending (s := { s with
          packetInTransit := p, packetInTransitBytesLeft := p.size
          packetQueue := ⟨⟨toI32 (s.packetQueue.queueSizeInBytes - p.size),
            toI32 (s.packetQueue.queueSizeInPackets - 1), rest⟩⟩
          history := { s.history with taken := s.history.taken ++ [p] } }) hp.1
        refine ⟨⟨hcounted, Nat.le_trans (Nat.le_add_left _ _) hbytes, fun j hj => ?_⟩, hp.1,
          hwork'.trans hwork.symm, rfl⟩
        exact h.jobs j (by rw [hwork]; rw [hwork'] at hj; exact hj)
  · exact ⟨h, by omega, rfl, rfl⟩

/-- What a visit with a budget of `b` bytes leads to: the departures, and the work left. -/
def outcome (t b : Nat) (s : LinkQueue sched InfinitePacketQueue) :
    List (Payload × Nat) × List (QueuedPacket × Nat) :=
  (s.history.departed ++
    (Server.visit QueuedPacket.arrivalTime t b s.work).1.map (fun p => (p.contents, t)),
   (Server.visit QueuedPacket.arrivalTime t b s.work).2)

/-- An iteration goes on with the visit. -/
theorem sendSome_visits {E : LinkFault → Prop} {early : Nat → Prop} {now t b bound : Nat}
    {s : LinkQueue sched InfinitePacketQueue} (hE : 2 ^ 31 ≤ bound → ∀ e, E e)
    (hearly : ∀ a, early a → a < t) (h : Ready early bound s) (hpos : 0 < b)
    (hbusy : ¬ (s.packetInTransitBytesLeft = 0 ∧ empty s.packetQueue)) :
    Ensures E (fun r => Ready early bound r.2 ∧ outcome t (b - r.1) r.2 = outcome t b s)
      (s.sendSome now t b) := by
  refine sendSome_ensures ((load_ready h hbusy).mono ?_)
  rintro s₁ ⟨h₁, hleft, hwork, hdep⟩
  have hsame : outcome t b s₁ = outcome t b s := by rw [outcome, outcome, hwork, hdep]
  have hsending := work_sending hleft
  have hjob := h₁.jobs (s₁.packetInTransit, s₁.packetInTransitBytesLeft)
    (by rw [hsending]; exact List.mem_cons_self)
  obtain ⟨-, hle, hsize, hearlier⟩ := hjob
  have harr := hearly _ hearlier
  have hcheck : s₁.checkInTransit t = .ok () :=
    checkInTransit_ok (Nat.le_of_lt harr) hleft hsize hle
  rw [hcheck, ← hsame]
  refine ⟨fun hlt => ?_, fun hfits => ?_⟩
  · -- the opportunity ends with part of the packet sent
    have hrest := work_sending (s := { s₁ with
      packetInTransitBytesLeft := s₁.packetInTransitBytesLeft - b }) (by dsimp only; omega)
    refine ⟨⟨h₁.counted, h₁.bytes, fun j hj => ?_⟩, ?_⟩
    · rw [hrest] at hj
      rcases List.mem_cons.mp hj with rfl | hj
      · exact ⟨by dsimp only; omega, (Nat.sub_le _ b).trans hle, hsize, hearlier⟩
      · exact h₁.jobs j (by rw [hsending]; exact List.mem_cons_of_mem _ hj)
    · rw [outcome, outcome, Nat.sub_self, Server.visit_zero, hrest, hsending,
        Server.visit_start hpos harr hlt]
  · -- the packet departs
    refine depart_ensures (fun f _ hf => ?_) fun log dequeueRate dequeueTrace => ?_
    · -- below 2³¹ bytes `size_packets()` does not fail
      by_contra hne
      have hsmall : ¬ 2 ^ 31 ≤ bound := fun hge => hne (hE hge _)
      have hlen := h₁.length_le
      have := h₁.counted.sizePackets_eq (by omega)
      rw [show sizePackets s₁.packetQueue = _ from this] at hf
      cases hf
    · refine ⟨⟨h₁.counted, h₁.bytes, fun j hj => ?_⟩, ?_⟩
      · rw [work_loading rfl] at hj
        exact h₁.jobs j (by rw [hsending]; exact List.mem_cons_of_mem _ hj)
      · rw [outcome, outcome, work_loading rfl, hsending, Server.visit_finish hpos harr hfits]
        simp

theorem serve_visits {E : LinkFault → Prop} {early : Nat → Prop} {now t bound : Nat}
    {s : LinkQueue sched InfinitePacketQueue} (hE : 2 ^ 31 ≤ bound → ∀ e, E e)
    (hearly : ∀ a, early a → a < t) (h : Ready early bound s) :
    Ensures E (fun r => Ready early bound r.2 ∧
        (r.2.history.departed, r.2.work) = outcome t PACKET_SIZE s)
      (serve now t PACKET_SIZE PACKET_SIZE 0 s) := by
  refine serve_ensures (P := fun b _ s' => Ready early bound s' ∧
    outcome t b s' = outcome t PACKET_SIZE s) ?_ ?_ ?_ le_rfl ⟨h, rfl⟩
  · rintro b sent s' hpos ⟨h', hout⟩ hbusy
    exact (sendSome_visits hE hearly h' hpos hbusy).mono
      fun r hr _ => ⟨hr.1, hr.2.trans hout⟩
  · rintro sent s' ⟨h', hout⟩
    refine ⟨h', ?_⟩
    rw [← hout, outcome, Server.visit_zero, List.map_nil, List.append_nil]
  · rintro b sent s' - ⟨h', hout⟩ hzero hempty
    have hwork : s'.work = [] := by
      rw [work_loading hzero, List.isEmpty_iff.mp hempty, List.map_nil]
    refine ⟨{ h' with }, ?_⟩
    rw [← hout, outcome, hwork, Server.visit_nil, List.map_nil, List.append_nil]
    exact congrArg _ hwork

/-- **An opportunity of the link is a visit of the server.** -/
theorem burn_visits {E : LinkFault → Prop} {now t bound : Nat}
    {s : LinkQueue sched InfinitePacketQueue} (hE : 2 ^ 31 ≤ bound → ∀ e, E e) (hs : OnSchedule s)
    (ht : s.nextDeliveryTime = some t) (h : Ready s.Early bound s) :
    Ensures E (fun s' => Ready s'.Early bound s' ∧ Advanced s s' ∧
      (s'.history.departed, s'.work) = outcome t PACKET_SIZE s) (s.burn now t) := by
  have huse : Ready (· < t) bound s.useADeliveryOpportunity ∧
      outcome t PACKET_SIZE s.useADeliveryOpportunity = outcome t PACKET_SIZE s := by
    obtain ⟨_, _, _, _, hframe⟩ := useADeliveryOpportunity_frame s
    rw [hframe]
    refine ⟨⟨h.counted, h.bytes, fun j hj => ?_⟩, rfl⟩
    obtain ⟨hpos, hle, hsize, hearly⟩ := h.jobs j hj
    exact ⟨hpos, hle, hsize, hearly t ht⟩
  have hburn : Ensures E (fun s' => Ready (· < t) bound s' ∧
      (s'.history.departed, s'.work) = outcome t PACKET_SIZE s) (s.burn now t) := by
    refine burn_ensures ((serve_visits hE (fun _ hlt => hlt) huse.1).mono fun r hr => ?_)
    exact ⟨{ hr.1 with }, hr.2.trans huse.2⟩
  cases hx : s.burn now t with
  | error e => exact hburn.of_error hx
  | ok s' =>
      have hadv := (burn_advanced now hs ht).of_ok hx
      obtain ⟨hready, hout⟩ := hburn.of_ok hx
      refine ⟨⟨hready.counted, hready.bytes, fun j hj => ?_⟩, hadv, hout⟩
      obtain ⟨hpos, hle, hsize, hlt⟩ := hready.jobs j hj
      exact ⟨hpos, hle, hsize, hadv.early hs ht hlt⟩

/-! ### Reading a packet -/

theorem enqueuePacket_returns (now : Nat) (contents : Payload)
    {s : LinkQueue sched InfinitePacketQueue} (hc : s.packetQueue.Counted)
    (hbytes : totalBytes s.packetQueue.internalQueue + contents.length < 2 ^ 31)
    (hlen : s.packetQueue.internalQueue.length + 1 < 2 ^ 31) :
    ∃ s', s.enqueuePacket now contents = .ok s' := by
  obtain ⟨q, hq⟩ : ∃ q, q = s.packetQueue.enqueue { arrivalTime := now, contents } := ⟨_, rfl⟩
  have hc' : q.Counted := hq ▸ hc.push _
  have hsum : totalBytes q.internalQueue =
      totalBytes s.packetQueue.internalQueue + contents.length := by
    simp [hq, InfinitePacketQueue.enqueue, QueuedPacket.size]
  have hcount : q.internalQueue.length = s.packetQueue.internalQueue.length + 1 := by
    simp [hq, InfinitePacketQueue.enqueue]
  have henq : enqueue now { arrivalTime := now, contents } s.packetQueue = .ok q := hq ▸ rfl
  have hb : sizeBytes s.packetQueue = .ok (totalBytes s.packetQueue.internalQueue) :=
    hc.sizeBytes_eq (by omega)
  have hp : sizePackets s.packetQueue = .ok s.packetQueue.internalQueue.length :=
    hc.sizePackets_eq (by omega)
  have hb' : sizeBytes q = .ok (totalBytes q.internalQueue) := hc'.sizeBytes_eq (by omega)
  have hp' : sizePackets q = .ok q.internalQueue.length := hc'.sizePackets_eq (by omega)
  have hone : toU32 (s.packetQueue.internalQueue.length + 1) = q.internalQueue.length := by
    rw [toU32_of_range (by omega) (by omega)]; omega
  cases hx : s.enqueuePacket now contents with
  | ok s' => exact ⟨s', rfl⟩
  | error e =>
      simp only [enqueuePacket, recordArrival, writeLog, hb, hp, ofQueue, ok_bind, henq, hp', hb',
        hone, hsum, Nat.lt_irrefl, if_false] at hx
      cases hx

theorem enqueuePacket_ready {early : Nat → Prop} {bound now : Nat} {contents : Payload}
    {s s' : LinkQueue sched InfinitePacketQueue} (h : Ready early bound s) (hnow : early now)
    (hsize : 1 ≤ contents.length ∧ contents.length ≤ PACKET_SIZE)
    (hx : s.enqueuePacket now contents = .ok s') :
    Ready early (bound + contents.length) s' ∧
    s'.work = s.work ++ [whole { arrivalTime := now, contents }] := by
  obtain ⟨q, log, henq, rfl⟩ := enqueuePacket_ok hx
  cases henq
  have hbytes := h.bytes
  have hwork : work { s with
      packetQueue := s.packetQueue.enqueue { arrivalTime := now, contents }, log } =
      s.work ++ [whole { arrivalTime := now, contents }] := by
    simp [work, InfinitePacketQueue.enqueue]
  refine ⟨⟨h.counted.push _, ?_, fun j hj => ?_⟩, hwork⟩
  · simp only [InfinitePacketQueue.enqueue, CountedQueue.push_internalQueue, totalBytes_append,
      totalBytes_cons, totalBytes_nil, QueuedPacket.size]
    omega
  · rcases List.mem_append.mp (hwork ▸ hj) with hj | hj
    · exact h.jobs j hj
    · rw [List.mem_singleton.mp hj]
      exact ⟨hsize.1, le_rfl, hsize.2, hnow⟩

/-! ### Runs -/

/-- The link is where the server is after the opportunities used so far. -/
structure Served (packets : List QueuedPacket) (s : LinkQueue sched InfinitePacketQueue) :
    Prop where
  ready : Ready s.Early (totalBytes packets) s
  departed : (Server.serve QueuedPacket.arrivalTime PACKET_SIZE (sched.first s.repeats s.used)
    (packets.map whole)).1.map (fun x => (x.1.contents, x.2)) = s.history.departed
  left : (Server.serve QueuedPacket.arrivalTime PACKET_SIZE (sched.first s.repeats s.used)
    (packets.map whole)).2 = s.work

theorem served_burn {E : LinkFault → Prop} {now t : Nat} {packets : List QueuedPacket}
    {s : LinkQueue sched InfinitePacketQueue} (hE : 2 ^ 31 ≤ totalBytes packets → ∀ e, E e)
    (hs : OnSchedule s) (ht : s.nextDeliveryTime = some t) (h : Served packets s) :
    Ensures E (Served packets) (s.burn now t) := by
  refine (burn_visits hE hs ht h.ready).mono ?_
  rintro s' ⟨hready, hadv, hout⟩
  obtain ⟨hdep, hleft⟩ := Prod.ext_iff.mp hout
  have hfirst : sched.first s'.repeats s'.used = sched.first s.repeats s.used ++ [t] := by
    rw [hadv.repeats, hadv.used]
    exact Schedule.first_succ (hs.nextDeliveryTime_eq.symm.trans ht)
  refine ⟨hready, ?_, ?_⟩
  · rw [hfirst, Server.serve_append, Server.serve_singleton, h.left, List.map_append, h.departed,
      List.map_map]
    exact hdep.symm
  · rw [hfirst, Server.serve_append, Server.serve_singleton, h.left]
    exact hleft.symm

/-- A packet that is read arrives after all visits made so far. -/
theorem served_enqueue {E : LinkFault → Prop} {now : Nat} {contents : Payload}
    {packets : List QueuedPacket} {s : LinkQueue sched InfinitePacketQueue}
    (hE : 2 ^ 31 ≤ totalBytes packets + contents.length → ∀ e, E e) (hs : OnSchedule s)
    (hused : s.used = due sched s.repeats now)
    (hsize : 1 ≤ contents.length ∧ contents.length ≤ PACKET_SIZE) (h : Served packets s) :
    Ensures E (Served (packets ++ [{ arrivalTime := now, contents }]))
      (s.enqueuePacket now contents) := by
  cases hx : s.enqueuePacket now contents with
  | error e =>
      refine hE ?_ e
      by_contra hsmall
      have hbytes := h.ready.bytes
      have hlen := h.ready.length_le
      obtain ⟨s', hs'⟩ := enqueuePacket_returns now contents h.ready.counted
        (by omega) (by omega)
      rw [hx] at hs'
      cases hs'
  | ok s' =>
      obtain ⟨hready, hwork⟩ := enqueuePacket_ready h.ready (early_of_due_le hs hused.ge) hsize hx
      obtain ⟨q, log, -, rfl⟩ := enqueuePacket_ok hx
      have hlate : ∀ t ∈ sched.first s.repeats s.used,
          ∀ j ∈ [whole { arrivalTime := now, contents }], t ≤ j.1.arrivalTime := by
        intro t ht j hj
        rw [List.mem_singleton.mp hj]
        rw [hused] at ht
        exact Schedule.le_of_mem_upTo ht
      have hserve := Server.serve_late PACKET_SIZE (packets.map whole) hlate
      refine ⟨?_, ?_, ?_⟩
      · rw [totalBytes_append, totalBytes_cons, totalBytes_nil]
        exact hready
      · rw [List.map_append]
        exact (congrArg (fun r => r.1.map fun x => (x.1.contents, x.2)) hserve).trans h.departed
      · rw [List.map_append, hwork, ← h.left]
        exact congrArg Prod.snd hserve

theorem served_run (sched : Schedule) (repeats logging : Bool) {calls : List Call}
    (ho : Orderly calls) :
    Ensures (fun _ => 2 ^ 31 ≤ totalBytes (offered calls))
      (fun s => Served (offered calls) s ∧ OnSchedule s ∧ s.repeats = repeats ∧
        ∀ now ∈ clocks calls, due sched repeats now ≤ s.used)
      (run Call.step calls (ofArgs sched repeats logging ({} : InfinitePacketQueue))) := by
  have hbytes : ∀ {done : List Call}, done <+: calls →
      totalBytes (offered done) ≤ totalBytes (offered calls) := by
    rintro done ⟨rest, rfl⟩
    rw [offered_append, totalBytes_append]
    exact Nat.le_add_right _ _
  have hread : ∀ (done : List Call) (now : Nat) (contents : Payload),
      offered (done ++ [.readPacket now contents]) =
        offered done ++ [{ arrivalTime := now, contents }] :=
    fun done now contents => offered_append done _
  refine run_ensures (P := fun done s => Served (offered done) s) ?_ ?_ ?_ ?_ ?_ ho
  · exact ⟨⟨CountedQueue.counted_nil, Nat.zero_le _, by simp [work, ofArgs]⟩, rfl, rfl⟩
  · intro done s t now hpre hs h ht _
    exact served_burn (fun hge _ => hge.trans (hbytes hpre)) hs ht h
  · intro done s now contents hpre hs h hsize hused
    have hle := hbytes hpre
    rw [hread, totalBytes_append, totalBytes_cons, totalBytes_nil] at hle
    rw [hread]
    exact served_enqueue (fun hge _ => hge.trans hle) hs hused hsize h
  · intro done s now h
    rw [offered_append]
    exact (List.append_nil (offered done)).symm ▸ h
  · intro done s h
    have hsame : offered (done ++ [.writePackets]) = offered done :=
      (offered_append done _).trans (List.append_nil _)
    rw [hsame]
    exact ⟨{ h.ready with }, h.departed, h.left⟩

/-- **The departures so far are those of the reference link.** -/
theorem departures_eager {repeats logging : Bool} {calls : List Call} (ho : Orderly calls)
    {s : LinkQueue sched InfinitePacketQueue}
    (h : run Call.step calls (ofArgs sched repeats logging {}) = .ok s) {now t : Nat}
    (hnow : now ∈ clocks calls) (ht : t ≤ now) :
    s.departuresUpTo t = eagerDepartures sched repeats t (offered calls) := by
  obtain ⟨hserved, -, rfl, hdue⟩ := (served_run sched repeats logging ho).of_ok h
  obtain ⟨us, hus, hlater⟩ := Schedule.first_split ((due_mono s.repeats ht).trans (hdue now hnow))
  rw [departuresUpTo, ← hserved.departed, List.filter_map, eagerDepartures, hus]
  exact congrArg (List.map _) (Server.finished_upto (fun u hu => Schedule.le_of_mem_upTo hu) hlater)

/-- **The link is an eager link.**  A run stops only once two gibibytes have been read.  What
departs by a time that the run has reached is what departs from the reference link, and so the same
in every run that reads the same packets and has reached that time. -/
theorem link_is_eager (sched : Schedule) (repeats logging : Bool) {calls : List Call}
    (ho : Orderly calls) :
    (∀ e, run Call.step calls (ofArgs sched repeats logging ({} : InfinitePacketQueue)) = .error e →
      2 ^ 31 ≤ totalBytes (offered calls)) ∧
    ∀ s, run Call.step calls (ofArgs sched repeats logging ({} : InfinitePacketQueue)) = .ok s →
      ∀ now ∈ clocks calls, ∀ t ≤ now,
        s.departuresUpTo t = eagerDepartures sched repeats t (offered calls) ∧
        ∀ calls' s', Orderly calls' → offered calls' = offered calls →
          run Call.step calls' (ofArgs sched repeats logging ({} : InfinitePacketQueue)) = .ok s' →
          ∀ now' ∈ clocks calls', t ≤ now' → s'.departuresUpTo t = s.departuresUpTo t := by
  refine ⟨fun e he => (served_run sched repeats logging ho).of_error he, ?_⟩
  intro s hs now hnow t ht
  have heager := departures_eager ho hs hnow ht
  refine ⟨heager, fun calls' s' ho' hsame hs' now' hnow' ht' => ?_⟩
  rw [departures_eager ho' hs' hnow' ht', hsame, heager]

/-- `sharedOpportunity`, and the same packets with one `wait_time` at the end. -/
theorem link_is_eager_sharedOpportunity :
    ∃ s s' : LinkQueue everyTen InfinitePacketQueue,
      run Call.step sharedOpportunity (ofArgs everyTen true false {}) = .ok s ∧
      run Call.step (sharedOpportunity.take 2 ++ [.waitTime 20]) (ofArgs everyTen true false {}) =
        .ok s' ∧
      s.departuresUpTo 20 = [(List.replicate 1000 1, 10), (List.replicate 1000 2, 20)] ∧
      s.departuresUpTo 20 = eagerDepartures everyTen true 20 (offered sharedOpportunity) ∧
      s'.departuresUpTo 20 = s.departuresUpTo 20 := by
  have hrun : (run Call.step sharedOpportunity
      (ofArgs everyTen true false ({} : InfinitePacketQueue))).map (fun s => s.departuresUpTo 20) =
      .ok [(List.replicate 1000 1, 10), (List.replicate 1000 2, 20)] := by decide +kernel
  have hrun' : ((run Call.step (sharedOpportunity.take 2 ++ [.waitTime 20])
      (ofArgs everyTen true false ({} : InfinitePacketQueue))).map (fun s => s.used)) = .ok 2 := by
    decide +kernel
  obtain ⟨s, hs, hdep⟩ := of_map_ok hrun
  obtain ⟨s', hs', -⟩ := of_map_ok hrun'
  obtain ⟨heager, hother⟩ := (link_is_eager everyTen true false orderly_sharedOpportunity).2 s hs 20
    (by decide) 20 le_rfl
  have ho : Orderly (sharedOpportunity.take 2 ++ [.waitTime 20]) :=
    ⟨by decide, fun now contents hmem => orderly_sharedOpportunity.size now contents (by
      rcases List.mem_append.mp hmem with hmem | hmem
      · exact List.mem_of_mem_take hmem
      · cases List.mem_singleton.mp hmem)⟩
  exact ⟨s, s', hs, hs', hdep, heager, hother _ s' ho rfl hs' 20 (by decide) le_rfl⟩

end LinkQueue

end Mahimahi
