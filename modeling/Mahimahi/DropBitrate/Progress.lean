import Mahimahi.DropBitrate.Counters

/-!
# DropBitrate — which runs no assertion stops

The assertions on `frame_counter_` forbid a SOLO packet beside another boundary packet of its port
and number, but nothing keeps such packets apart: a retransmitted copy of a queued SOLO packet is
enough (`solo_copy_faults`, `solo_then_first_faults`).

* `Call.Clean`: the call brings no such pair into the queue, keeps the queue below 2³¹ bytes, and
  dequeues only from a non-empty queue.
* `clean_run_returns`: a run of clean calls meets no fault at all.
* `counters_found`: in no run, clean or not, does a packet that leaves look up a counter that is not
  there, so `at()` never throws.

The invariant is `Steady`.  `steady_enqueue` and `steady_dequeuefront` say that a clean call returns
and keeps it; `run_returns` makes a run of them.
-/

open Fallible MachineInt

namespace Mahimahi

/-- Two boundary packets of one message that a SOLO packet is among. -/
def Stamp.Clashes (σ τ : Stamp) : Prop :=
  σ.port = τ.port ∧ σ.no = τ.no ∧ σ.pos ≠ .mid ∧ τ.pos ≠ .mid ∧ (σ.pos = .solo ∨ τ.pos = .solo)

def QueuedPacket.Clashes (p q : QueuedPacket) : Prop :=
  ∃ σ τ, p.stamp = some σ ∧ q.stamp = some τ ∧ σ.Clashes τ

theorem weight_eq_zero {d : UInt16} {m : Int} {ps : List QueuedPacket}
    (h : ∀ p ∈ ps, ∀ pos, p.stamp = some ⟨d, m, pos⟩ → pos = .mid) : weight d m ps = 0 := by
  induction ps with
  | nil => rfl
  | cons p ps ih =>
      have hp : p.weighs d m = 0 := by
        unfold QueuedPacket.weighs
        match hst : p.stamp with
        | none => rfl
        | some ⟨d', m', pos⟩ =>
            by_cases hd : d' = d ∧ m' = m
            · obtain ⟨rfl, rfl⟩ := hd
              rw [h p (by simp) pos hst]
              simp [PktPos.weight]
            · simp [hd]
      rw [weight_cons, hp, ih fun q hq => h q (by simp [hq])]

namespace DropBitrateDequeueQueue

/-- What every state of a clean run satisfies. -/
structure Steady (s : DropBitrateDequeueQueue) : Prop where
  counted : s.toCountedQueue.Counted
  small : totalBytes s.internalQueue < 2 ^ 31
  long : ∀ p ∈ s.internalQueue, 44 ≤ p.contents.length
  counters : CountersMatch s
  apart : s.internalQueue.Pairwise fun p q => ¬ p.Clashes q

namespace Steady

variable {s : DropBitrateDequeueQueue}

theorem length_lt (hs : Steady s) : s.internalQueue.length < 2 ^ 31 :=
  (length_le_totalBytes fun p hp => Nat.le_trans (by decide) (hs.long p hp)).trans_lt hs.small

theorem fits (hs : Steady s) (p : QueuedPacket) : ∃ b, s.fits p = .ok b :=
  ⟨_, DroppingPacketQueue.fits_eq hs.counted hs.small hs.length_lt p⟩

end Steady

/-- The packet may be offered: it has a header, and if there is room for it, its bytes can be
counted and no queued packet clashes with it. -/
structure Admits (s : DropBitrateDequeueQueue) (p : QueuedPacket) : Prop where
  long : 44 ≤ p.contents.length
  small : s.fits p = .ok true → totalBytes s.internalQueue + p.size < 2 ^ 31
  apart : s.fits p = .ok true → ∀ q ∈ s.internalQueue, ¬ q.Clashes p

/-- The queue with the packet on its back is steady but for the counters. -/
theorem Steady.accepting {s : DropBitrateDequeueQueue} {p : QueuedPacket} (hs : Steady s)
    (hlong : 44 ≤ p.contents.length) (hsmall : totalBytes s.internalQueue + p.size < 2 ^ 31)
    (hapart : ∀ q ∈ s.internalQueue, ¬ q.Clashes p) {s' : DropBitrateDequeueQueue}
    (hq : s'.toCountedQueue = s.toCountedQueue.push p) (hc : CountersMatch s') : Steady s' where
  counted := hq ▸ hs.counted.push p
  small := by simpa [hq] using hsmall
  long := by
    simp only [hq, CountedQueue.push_internalQueue, List.mem_append, List.mem_singleton]
    rintro q (hmem | rfl)
    · exact hs.long q hmem
    · exact hlong
  counters := hc
  apart := by
    simpa [hq, List.pairwise_append] using ⟨hs.apart, hapart⟩

theorem countArrival_returns {header : PacketHeader} {s : DropBitrateDequeueQueue}
    (h : header.pktPos = .solo → s.count header.dstport header.msgNo = none) :
    ∃ s', s.countArrival header = .ok s' := by
  unfold countArrival
  cases hpos : header.pktPos with
  | mid => exact ⟨_, rfl⟩
  | solo => simp [h hpos]
  | first | last => dsimp only; split <;> exact ⟨_, rfl⟩

theorem countDeparture_returns {header : PacketHeader} {s : DropBitrateDequeueQueue}
    (hb : header.pktPos = .first ∨ header.pktPos = .last →
      (s.count header.dstport header.msgNo).isSome)
    (hsolo : header.pktPos = .solo → s.count header.dstport header.msgNo = some 2) :
    ∃ s', s.countDeparture header = .ok s' := by
  unfold countDeparture
  cases hpos : header.pktPos with
  | mid => exact ⟨_, rfl⟩
  | solo => simp [hsolo hpos]
  | first | last =>
      obtain ⟨c, hc⟩ := Option.isSome_iff_exists.mp (hb (by simp [hpos]))
      simp only [hc]
      split <;> exact ⟨_, rfl⟩

/-- No boundary packet of a SOLO packet's message is queued, so it has no counter. -/
theorem Steady.solo_uncounted {s : DropBitrateDequeueQueue} {p : QueuedPacket} (hs : Steady s)
    (hp : s.Admits p) (hfits : s.fits p = .ok true) {header : PacketHeader}
    (hheader : PacketHeader.ofPayload p.contents = .ok header) (hoct : header.isOctopus = true)
    (hsolo : header.pktPos = .solo) : s.count header.dstport header.msgNo = none := by
  have hst : p.stamp = some ⟨header.dstport, header.msgNo, header.pktPos⟩ := by
    simp [QueuedPacket.stamp_of_ok hheader, PacketHeader.stamp, hoct]
  rw [hs.counters, weight_eq_zero, counter, if_pos rfl]
  intro q hq pos hqst
  by_contra hmid
  exact hp.apart hfits q hq ⟨_, _, hqst, hst, rfl, rfl, hmid, by simp [hsolo], .inr hsolo⟩

theorem steady_enqueue (ts : Nat) {s : DropBitrateDequeueQueue} {p : QueuedPacket} (hs : Steady s)
    (hp : s.Admits p) : ∃ s', s.enqueue ts p = .ok s' ∧ Steady s' := by
  obtain ⟨header, hheader⟩ := PacketHeader.ofPayload_ok hp.long
  obtain ⟨fits, hfits⟩ := hs.fits p
  simp only [enqueue, hfits, ok_bind, hheader]
  cases fits with
  | false => exact ⟨s, rfl, hs⟩
  | true =>
      have hsmall := hp.small hfits
      have hlog : (s.accepting p).logLine = .ok () :=
        DroppingPacketQueue.logLine_ok (hs.counted.push p) (by simpa using hsmall)
      have hsteady : ∀ {s' : DropBitrateDequeueQueue},
          s'.toCountedQueue = s.toCountedQueue.push p → CountersMatch s' → Steady s' :=
        hs.accepting hp.long hsmall (hp.apart hfits)
      simp only [if_true]
      cases hoct : header.isOctopus with
      | false =>
          have hs' : Steady (s.accepting p) := hsteady rfl fun d m => by
            simp [QueuedPacket.weighs_of_not_octopus hheader hoct d m, hs.counters d m]
          refine ⟨s.accepting p, ?_, hs'⟩
          change (do (s.accepting p).logLine; (s.accepting p).assertGood; pure (s.accepting p)) = _
          rw [hlog, ok_bind, accepting,
            DroppingPacketQueue.assertGood_accept hs.counted hsmall _ hfits]
          · rfl
          · simpa using hs'.length_lt
      | true =>
          obtain ⟨s₁, hs₁⟩ := countArrival_returns
            (s := (s.accepting p).recordRate ts p.size header.dstport)
            (by simpa using hs.solo_uncounted hp hfits hheader hoct)
          have hret : s.enqueue ts p = .ok (s₁.recordDropper header) := by
            simp only [enqueue, hfits, ok_bind, hheader, hoct, if_true]
            change (do
              ((s.accepting p).recordRate ts p.size header.dstport).logLine
              let s ← ((s.accepting p).recordRate ts p.size header.dstport).countArrival header
              pure (s.recordDropper header)) = _
            rw [recordRate_toDropping, hlog, ok_bind, hs₁]
            rfl
          refine ⟨s₁.recordDropper header, ?_,
            hsteady ?_ (countersMatch_enqueue hs.counters hret)⟩
          · simpa [enqueue, hfits, hheader, hoct] using hret
          · simp [countArrival_toDropping hs₁, accepting, DroppingPacketQueue.accept]

/-- The counter of a boundary packet at the front is there to be counted down. -/
theorem CountersMatch.front_counter {s : DropBitrateDequeueQueue} (hs : CountersMatch s)
    {p : QueuedPacket} {rest : List QueuedPacket} (hq : s.internalQueue = p :: rest)
    {header : PacketHeader} (hheader : PacketHeader.ofPayload p.contents = .ok header)
    (hoct : header.isOctopus = true) (hpos : header.pktPos = .first ∨ header.pktPos = .last) :
    (s.count header.dstport header.msgNo).isSome := by
  rw [hs, hq, weight_cons, QueuedPacket.weighs_of_octopus hheader hoct]
  rcases hpos with hpos | hpos
  · simp [PacketHeader.weighs, PktPos.weight, hpos, counter]
  · simp [PacketHeader.weighs, PktPos.weight, hpos, counter]

/-- In a steady queue that of a SOLO packet is 2. -/
theorem Steady.front_counter {s : DropBitrateDequeueQueue} (hs : Steady s) {p : QueuedPacket}
    {rest : List QueuedPacket} (hq : s.internalQueue = p :: rest) {header : PacketHeader}
    (hheader : PacketHeader.ofPayload p.contents = .ok header) (hoct : header.isOctopus = true)
    (hsolo : header.pktPos = .solo) : s.count header.dstport header.msgNo = some 2 := by
  have hst : p.stamp = some ⟨header.dstport, header.msgNo, header.pktPos⟩ := by
    simp [QueuedPacket.stamp_of_ok hheader, PacketHeader.stamp, hoct]
  rw [hs.counters, hq, weight_cons, QueuedPacket.weighs_of_octopus hheader hoct]
  have hrest : weight header.dstport header.msgNo rest = 0 := by
    refine weight_eq_zero fun q hmem pos hqst => ?_
    by_contra hmid
    have hapart := List.pairwise_cons.mp (hq ▸ hs.apart)
    exact hapart.1 q hmem ⟨_, _, hst, hqst, rfl, rfl, by simp [hsolo], hmid, .inl hsolo⟩
  simp [hrest, PacketHeader.weighs, PktPos.weight, hsolo, counter]

/-- A queue that is not empty gives up its front packet. -/
theorem Steady.dequeuefront_returns (ts : Nat) {s : DropBitrateDequeueQueue} (hs : Steady s)
    {p : QueuedPacket} {rest : List QueuedPacket} (hq : s.internalQueue = p :: rest)
    {c : CountedQueue} (hpop : s.toCountedQueue.pop = .ok (p, c)) :
    ∃ pkt s', s.dequeuefront ts = .ok (pkt, s') ∧ s'.toCountedQueue = c ∧
      pkt.contents = p.contents := by
  obtain ⟨header, hheader⟩ := PacketHeader.ofPayload_ok (hs.long p (by simp [hq]))
  simp only [dequeuefront, DroppingPacketQueue.popFront, hpop, ok_bind]
  cases hoct : header.isOctopus with
  | false =>
      refine ⟨p, s.popped c, ?_, rfl, rfl⟩
      simp [hheader, hoct]
      rfl
  | true =>
      obtain ⟨s', hs'⟩ := countDeparture_returns
        (s := (s.popped c).recordVerdict (s.verdict ts p header) header)
        (by simpa using hs.counters.front_counter hq hheader hoct)
        (by simpa using hs.front_counter hq hheader hoct)
      refine ⟨{ p with isDrop := p.isDrop || (s.verdict ts p header).drops }, s', ?_, ?_, rfl⟩
      · change (do
          let header ← PacketHeader.ofPayload p.contents
          if header.isOctopus then
            let s' ← ((s.popped c).recordVerdict (s.verdict ts p header) header).countDeparture header
            pure (({ p with isDrop := p.isDrop || (s.verdict ts p header).drops } : QueuedPacket), s')
          else pure (p, s.popped c)) = _
        simp only [hheader, hoct, ok_bind, if_true, hs']
        rfl
      · rw [countDeparture_toDropping hs', recordVerdict_toDropping]; rfl

theorem steady_dequeuefront (ts : Nat) {s : DropBitrateDequeueQueue} (hs : Steady s)
    (hne : s.internalQueue ≠ []) : ∃ pkt s', s.dequeuefront ts = .ok (pkt, s') ∧ Steady s' ∧
      44 ≤ pkt.contents.length := by
  obtain ⟨p, rest, hq⟩ := List.exists_cons_of_ne_nil hne
  have hlong : 44 ≤ p.contents.length := hs.long p (by simp [hq])
  obtain ⟨c, hpop, hc⟩ : ∃ c, s.toCountedQueue.pop = .ok (p, c) ∧ c.internalQueue = rest :=
    ⟨_, CountedQueue.pop_cons hq, rfl⟩
  obtain ⟨pkt, s', hret, hqueue, hcont⟩ := hs.dequeuefront_returns ts hq hpop
  have hsmall := hs.small
  have hlongs := hs.long
  have hapart := hs.apart
  rw [hq] at hsmall hlongs hapart
  refine ⟨pkt, s', hret, ⟨?_, ?_, ?_, countersMatch_front hs.counters hret, ?_⟩, hcont ▸ hlong⟩
  · exact hqueue ▸ (CountedQueue.pop_ok hpop).2 hs.counted
  · rw [hqueue, hc]; rw [totalBytes_cons] at hsmall; omega
  · rw [hqueue, hc]; exact fun q hmem => hlongs q (by simp [hmem])
  · rw [hqueue, hc]; exact (List.pairwise_cons.mp hapart).2

theorem dequeueLoop_returns (clock : Nat → Nat) (fuel : Nat) :
    ∀ (dropped : List Front) {f : Front} {s : DropBitrateDequeueQueue}, Steady s →
      44 ≤ f.pkt.contents.length → ∃ dropped' f' s',
        dequeueLoop clock fuel dropped f s = .ok (dropped', f', s') ∧ Steady s' ∧
        44 ≤ f'.pkt.contents.length := by
  induction fuel with
  | zero => intro dropped f s hs hf; exact ⟨dropped, f, s, rfl, hs, hf⟩
  | succ fuel ih =>
      intro dropped f s hs hf
      rw [dequeueLoop]
      split
      · exact ⟨dropped, f, s, rfl, hs, hf⟩
      · rename_i hempty
        obtain ⟨header, hheader⟩ := PacketHeader.ofPayload_ok hf
        rw [hheader, ok_bind]
        split
        · obtain ⟨pkt, s₁, hd, hs₁, hlen⟩ := steady_dequeuefront (clock (dropped.length + 1)) hs
            (by simpa [CountedQueue.empty] using hempty)
          rw [front_of_dequeuefront hd, ok_bind]
          exact ih _ hs₁ hlen
        · exact ⟨dropped, f, s, rfl, hs, hf⟩

theorem steady_dequeueAll (clock : Nat → Nat) {s : DropBitrateDequeueQueue} (hs : Steady s)
    (hne : s.internalQueue ≠ []) :
    ∃ dropped f s', s.dequeueAll clock = .ok (dropped, f, s') ∧ Steady s' := by
  obtain ⟨pkt, s₁, hd, hs₁, hlen⟩ := steady_dequeuefront (clock 0) hs hne
  have hf := front_of_dequeuefront hd
  obtain ⟨dropped, f, s', hloop, hs', hlen'⟩ := dequeueLoop_returns clock
    s₁.internalQueue.length [] (f := ⟨clock 0, s, pkt⟩) hs₁ hlen
  obtain ⟨header, hheader⟩ := PacketHeader.ofPayload_ok hlen'
  have hlog := DroppingPacketQueue.logLine_ok hs'.counted hs'.small
  refine ⟨dropped, f, s', ?_, hs'⟩
  simp only [dequeueAll, hf, ok_bind, hloop, hheader, hlog]
  split <;> rfl

/-! ### Runs of clean calls -/

/-- The call respects what the queue takes for granted. -/
def Call.Clean : Call → DropBitrateDequeueQueue → Prop
  | .enqueue _ arrivalTime contents, s => s.Admits { arrivalTime, contents }
  | .dequeue _, s => s.internalQueue ≠ []
  | .setBandwidth _, _ => True

theorem steady_step {c : Call} {t : Trace} {s : DropBitrateDequeueQueue} (hs : Steady s)
    (hc : c.Clean s) : ∃ t' s', c.step (t, s) = .ok (t', s') ∧ Steady s' := by
  cases c with
  | enqueue ts arrivalTime contents =>
      obtain ⟨s', hret, hs'⟩ := steady_enqueue ts hs hc
      exact ⟨_, s', bind_ok.mpr ⟨s', hret, rfl⟩, hs'⟩
  | dequeue clock =>
      obtain ⟨dropped, f, s', hret, hs'⟩ := steady_dequeueAll clock hs hc
      exact ⟨_, s', bind_ok.mpr ⟨(dropped, f, s'), hret, rfl⟩, hs'⟩
  | setBandwidth bandwidth =>
      exact ⟨t, s.setBandwidth bandwidth, rfl, hs.counted, hs.small, hs.long, hs.counters, hs.apart⟩

theorem steady_ofArgs (packetLimit byteLimit : Nat) (logFd : Bool) (bandwidth : Nat) :
    Steady (ofArgs packetLimit byteLimit logFd bandwidth) where
  counted := CountedQueue.counted_nil
  small := by simp [ofArgs]
  long := by simp [ofArgs]
  counters := fun _ _ => by simp [ofArgs, count, counter]
  apart := .nil

/-- **A run of clean calls meets no fault**: no assertion fails, nothing is thrown, and nothing
undefined is done. -/
theorem clean_run_returns (packetLimit byteLimit : Nat) (logFd : Bool) (bandwidth : Nat)
    (calls : List Call)
    (hclean : ∀ done c rest t s, calls = done ++ c :: rest →
      run Call.step done ({}, ofArgs packetLimit byteLimit logFd bandwidth) = .ok (t, s) →
      c.Clean s) :
    ∃ t s, run Call.step calls ({}, ofArgs packetLimit byteLimit logFd bandwidth) = .ok (t, s) := by
  obtain ⟨⟨t, s⟩, hrun, -⟩ := run_returns
    (P := fun _ (x : Trace × DropBitrateDequeueQueue) => Steady x.2)
    (steady_ofArgs packetLimit byteLimit logFd bandwidth) (fun done x c hs hrun hpre => by
      obtain ⟨rest, hcalls⟩ := hpre
      have hc := hclean done c rest x.1 x.2 (by simpa using hcalls.symm) hrun
      obtain ⟨t', s', hstep, hs'⟩ := steady_step (t := x.1) hs hc
      exact ⟨(t', s'), hstep, hs'⟩)
  exact ⟨t, s, hrun⟩

/-- The SOLO packet of message 5. -/
def solo5 : Payload := udpPayload 4433 1 0xc0000005 0

theorem clean_run_returns_solo : ∃ t s, run Call.step [.enqueue 0 0 solo5, .dequeue fun _ => 3]
    ({}, ofArgs 100 0 false 0) = .ok (t, s) := by
  refine clean_run_returns 100 0 false 0 _ fun done c rest t s hcalls hrun => ?_
  match done, hcalls with
  | [], hcalls =>
      cases hcalls
      cases hrun
      exact ⟨by decide, fun _ => by decide, fun _ q hq => by cases hq⟩
  | [c₀], hcalls =>
      cases hcalls
      have hqueue := (map_ok (f := fun x => x.2.internalQueue.length) hrun).symm.trans
        (by decide : _ = .ok 1)
      exact fun hnil => by simp [hnil] at hqueue
  | _ :: _ :: _, hcalls => simp at hcalls

/-- A retransmitted copy of a queued SOLO packet fails the assertion in `enqueue`. -/
theorem solo_copy_faults : 44 ≤ solo5.length ∧
    run Call.step [.enqueue 0 0 solo5, .enqueue 1 1 solo5] ({}, ofArgs 100 0 false 0)
      = .error .soloCounted :=
  ⟨by decide, of_map_error (f := fun _ => ()) (by decide)⟩

/-- A FIRST packet with the number of a queued SOLO packet fails the assertion in `dequeuefront`. -/
theorem solo_then_first_faults :
    run Call.step [.enqueue 0 0 solo5, .enqueue 1 1 (udpPayload 4433 2 0x80000005 0),
      .dequeue fun _ => 2] ({}, ofArgs 100 0 false 0) = .error .soloCounter :=
  of_map_error (f := fun _ => ()) (by decide)

/-! ### The counters that departures look up -/

/-- Where the counter of a boundary packet is there, only the assertion on a SOLO packet is left. -/
theorem countDeparture_found {header : PacketHeader} {s : DropBitrateDequeueQueue}
    (h : header.pktPos = .first ∨ header.pktPos = .last →
      (s.count header.dstport header.msgNo).isSome) :
    Ensures (· ≠ .outOfRange) (fun _ => True) (s.countDeparture header) := by
  cases hpos : header.pktPos with
  | solo =>
      rw [countDeparture, hpos]
      dsimp only
      split
      · trivial
      · exact (by decide : Fault.soloCounter ≠ .outOfRange)
  | mid =>
      rw [countDeparture, hpos]
      trivial
  | first =>
      obtain ⟨s', hs'⟩ := countDeparture_returns (s := s) h (by simp [hpos])
      rw [hs']
      trivial
  | last =>
      obtain ⟨s', hs'⟩ := countDeparture_returns (s := s) h (by simp [hpos])
      rw [hs']
      trivial

theorem dequeuefront_found (ts : Nat) {s : DropBitrateDequeueQueue} (hs : CountersMatch s) :
    Ensures (· ≠ .outOfRange) (fun r => CountersMatch r.2) (s.dequeuefront ts) := by
  refine Ensures.and_ok ?_ fun r hr => countersMatch_front hs hr
  have hpopped : Ensures (· ≠ .outOfRange)
      (fun r => ∃ c, s.toCountedQueue.pop = .ok (r.1, c) ∧ r.2 = { s.toDroppingPacketQueue with
        toCountedQueue := c }) s.popFront :=
    (s.popFront_faults.mono_fault (by decide)).and_ok fun _ h =>
      DroppingPacketQueue.popFront_ok h
  refine hpopped.bind ?_
  rintro ⟨p, q⟩ ⟨c, hpop, rfl⟩
  refine (((PacketHeader.ofPayload_faults p.contents).mono_fault (by decide)).and_ok
    fun _ h => h).bind fun header hheader => ?_
  dsimp only
  split
  next hoct =>
    refine Ensures.bind (countDeparture_found (s := (s.popped c).recordVerdict
      (s.verdict ts p header) header) ?_) fun _ _ => trivial
    simpa using hs.front_counter (CountedQueue.pop_ok hpop).1 hheader hoct
  next => trivial

theorem front_found (ts : Nat) {s : DropBitrateDequeueQueue} (hs : CountersMatch s) :
    Ensures (· ≠ .outOfRange) (fun r => CountersMatch r.2) (s.front ts) :=
  (dequeuefront_found ts hs).bind fun _ h => h

theorem dequeueLoop_found (clock : Nat → Nat) (fuel : Nat) :
    ∀ (dropped : List Front) (f : Front) {s : DropBitrateDequeueQueue}, CountersMatch s →
      Ensures (· ≠ .outOfRange) (fun r => CountersMatch r.2.2)
        (dequeueLoop clock fuel dropped f s) := by
  induction fuel with
  | zero => exact fun dropped f s hs => hs
  | succ fuel ih =>
      intro dropped f s hs
      rw [dequeueLoop]
      split
      · exact hs
      · refine ((PacketHeader.ofPayload_faults _).mono_fault (by decide)).bind fun header _ => ?_
        split
        · exact (front_found _ hs).bind fun r hr => ih _ _ hr
        · exact hs

theorem dequeueAll_found (clock : Nat → Nat) {s : DropBitrateDequeueQueue}
    (hs : CountersMatch s) :
    Ensures (· ≠ .outOfRange) (fun r => CountersMatch r.2.2) (s.dequeueAll clock) := by
  refine (front_found _ hs).bind fun r hr => (dequeueLoop_found clock _ _ _ hr).bind ?_
  rintro ⟨dropped, f, s'⟩ hs'
  refine ((PacketHeader.ofPayload_faults _).mono_fault (by decide)).bind fun header _ => ?_
  dsimp only
  split
  · exact (s'.logLine_faults.mono_fault (by decide)).bind fun _ _ => hs'
  · exact hs'

theorem enqueue_found (ts : Nat) (p : QueuedPacket) {s : DropBitrateDequeueQueue}
    (hs : CountersMatch s) :
    Ensures (· ≠ .outOfRange) CountersMatch (s.enqueue ts p) := by
  refine Ensures.and_ok ?_ fun s' h => countersMatch_enqueue hs h
  refine ((s.fits_faults p).mono_error ?_).bind fun fits _ => ?_
  · rintro f hf rfl
    revert hf
    decide
  split
  · refine ((PacketHeader.ofPayload_faults _).mono_fault (by decide)).bind fun header _ => ?_
    dsimp only
    split
    · refine ((DroppingPacketQueue.logLine_faults _).mono_fault (by decide)).bind fun _ _ => ?_
      exact ((countArrival_faults _ _).mono_fault (by decide)).bind fun _ _ => trivial
    · refine ((DroppingPacketQueue.logLine_faults _).mono_fault (by decide)).bind fun _ _ => ?_
      refine ((DroppingPacketQueue.assertGood_faults _).mono_error ?_).bind fun _ _ => trivial
      rintro f hf rfl
      revert hf
      decide
  · trivial

/-- **`at()` never throws**, in any run of any calls: as the counters are exact, a packet that
leaves finds its own. -/
theorem counters_found (packetLimit byteLimit : Nat) (logFd : Bool) (bandwidth : Nat)
    (calls : List Call) :
    run Call.step calls ({}, ofArgs packetLimit byteLimit logFd bandwidth) ≠
      .error .outOfRange := by
  have hrun : Ensures (· ≠ .outOfRange) (fun x : Trace × DropBitrateDequeueQueue =>
      CountersMatch x.2)
      (run Call.step calls ({}, ofArgs packetLimit byteLimit logFd bandwidth)) := by
    refine ensures_run (P := fun _ (x : Trace × DropBitrateDequeueQueue) => CountersMatch x.2)
      (steady_ofArgs packetLimit byteLimit logFd bandwidth).counters ?_
    rintro done ⟨t, s⟩ c hs - -
    cases c with
    | enqueue ts arrivalTime contents => exact (enqueue_found ts _ hs).bind fun _ hs' => hs'
    | dequeue clock => exact (dequeueAll_found clock hs).bind fun _ hs' => hs'
    | setBandwidth bandwidth => exact hs
  exact fun h => hrun.of_error h rfl

end DropBitrateDequeueQueue

end Mahimahi
