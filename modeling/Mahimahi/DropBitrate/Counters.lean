import Mahimahi.DropBitrate.Runs

/-!
# DropBitrate — the message counters

`weight d m ps` adds up what the packets `ps` contribute to the counter of port `d` and number `m`:
1 for each FIRST and LAST, 2 for each SOLO.

* `counters_match`: in every reachable state each counter holds the weight of the queued packets,
  and has no entry when that weight is 0.
* `frame_counter_exact`: the same after every call, spelled out in packets of each position.
* `counter_two_complete_iff`: a counter of 2 means that the whole message is queued, except where
  two copies of its FIRST packet, or of its LAST, are.
-/

open Fallible MachineInt

namespace Mahimahi

def QueuedPacket.weighs (p : QueuedPacket) (d : UInt16) (m : Int) : Nat :=
  match p.stamp with
  | some σ => if σ.port = d ∧ σ.no = m then σ.pos.weight else 0
  | none => 0

def weight (d : UInt16) (m : Int) (ps : List QueuedPacket) : Nat :=
  (ps.map fun p => p.weighs d m).sum

@[simp] theorem weight_nil (d : UInt16) (m : Int) : weight d m [] = 0 := rfl

@[simp] theorem weight_cons (d : UInt16) (m : Int) (p : QueuedPacket) (ps : List QueuedPacket) :
    weight d m (p :: ps) = p.weighs d m + weight d m ps := by simp [weight]

@[simp] theorem weight_append (d : UInt16) (m : Int) (ps qs : List QueuedPacket) :
    weight d m (ps ++ qs) = weight d m ps + weight d m qs := by simp [weight]

theorem QueuedPacket.weighs_of_octopus {p : QueuedPacket} {header : PacketHeader}
    (h : PacketHeader.ofPayload p.contents = .ok header) (hoct : header.isOctopus = true)
    (d : UInt16) (m : Int) : p.weighs d m = header.weighs d m := by
  simp [QueuedPacket.weighs, QueuedPacket.stamp_of_ok h, PacketHeader.stamp, hoct,
    PacketHeader.weighs]

theorem QueuedPacket.weighs_of_not_octopus {p : QueuedPacket} {header : PacketHeader}
    (h : PacketHeader.ofPayload p.contents = .ok header) (hoct : header.isOctopus = false)
    (d : UInt16) (m : Int) : p.weighs d m = 0 := by
  simp [QueuedPacket.weighs, QueuedPacket.stamp_of_ok h, PacketHeader.stamp, hoct]

namespace DropBitrateDequeueQueue

/-! ### The counters hold the queue's weights -/

def CountersMatch (s : DropBitrateDequeueQueue) : Prop :=
  ∀ d m, s.count d m = counter (weight d m s.internalQueue)

theorem countersMatch_enqueue {ts : Nat} {p : QueuedPacket} {s s' : DropBitrateDequeueQueue}
    (hs : CountersMatch s) (h : s.enqueue ts p = .ok s') : CountersMatch s' := by
  rcases enqueue_cases h with ⟨-, rfl⟩ | ⟨header, -, hheader, ⟨hoct, rfl⟩ | ⟨hoct, s₁, hcount, rfl⟩⟩
  · exact hs
  · intro d m
    simp [QueuedPacket.weighs_of_not_octopus hheader hoct d m, hs d m]
  · intro d m
    have hadd := countArrival_counter (w := fun d m => weight d m s.internalQueue)
      (fun d m => by simpa using hs d m) hcount d m
    have hq := countArrival_toDropping hcount
    simp [hadd, hq, QueuedPacket.weighs_of_octopus hheader hoct]

theorem countersMatch_front {ts : Nat} {pkt : QueuedPacket} {s s' : DropBitrateDequeueQueue}
    (hs : CountersMatch s) (h : s.dequeuefront ts = .ok (pkt, s')) : CountersMatch s' := by
  obtain ⟨p, c, header, hpop, hheader, hcase⟩ := dequeuefront_cases h
  obtain ⟨hq, -⟩ := CountedQueue.pop_ok hpop
  rcases hcase with ⟨hoct, -, rfl⟩ | ⟨hoct, -, hcount⟩
  · intro d m
    simp [hs d m, hq, QueuedPacket.weighs_of_not_octopus hheader hoct d m]
  · intro d m
    have hsub := countDeparture_counter (w := fun d m => weight d m c.internalQueue)
      (fun d m => by
        simp [hs d m, hq, QueuedPacket.weighs_of_octopus hheader hoct, Nat.add_comm]) hcount d m
    simpa [countDeparture_toDropping hcount] using hsub

/-- **In every reachable state each counter is the weight of the queued packets.** -/
theorem counters_match {h : History} {s : DropBitrateDequeueQueue} (hr : Reachable h s) :
    CountersMatch s := by
  refine hr.induction (P := fun _ s => CountersMatch s) ?_ ?_ ?_ ?_
  · intro _ _ _ _ d m
    simp [ofArgs, count, counter]
  · exact fun _ _ _ _ _ _ hs _ he => countersMatch_enqueue hs he
  · exact fun _ _ _ _ _ _ hs hd => countersMatch_front hs hd
  · exact fun _ _ _ _ hs => hs

/-! ### The counters in packets -/

/-- The number of queued packets with a given stamp. -/
def queued (s : DropBitrateDequeueQueue) (d : UInt16) (m : Int) (pos : PktPos) : Nat :=
  s.internalQueue.countP fun p => p.stamp = some ⟨d, m, pos⟩

theorem weight_eq_queued (s : DropBitrateDequeueQueue) (d : UInt16) (m : Int) :
    weight d m s.internalQueue =
      s.queued d m .first + s.queued d m .last + 2 * s.queued d m .solo := by
  unfold queued
  induction s.internalQueue with
  | nil => rfl
  | cons p ps ih =>
      -- a packet weighs what it adds to the three counts
      have hw : p.weighs d m = (if p.stamp = some ⟨d, m, .first⟩ then 1 else 0) +
          (if p.stamp = some ⟨d, m, .last⟩ then 1 else 0) +
          2 * (if p.stamp = some ⟨d, m, .solo⟩ then 1 else 0) := by
        unfold QueuedPacket.weighs
        rcases p.stamp with _ | ⟨d', m', pos⟩
        · rfl
        · by_cases hd : d' = d ∧ m' = m
          · obtain ⟨rfl, rfl⟩ := hd
            cases pos <;> simp [PktPos.weight]
          · have hne : ∀ pos', some (⟨d', m', pos⟩ : Stamp) ≠ some ⟨d, m, pos'⟩ := fun pos' h => by
              cases h
              exact hd ⟨rfl, rfl⟩
            simp [hd, hne]
      simp only [weight_cons, List.countP_cons, ih, hw, decide_eq_true_eq]
      omega

theorem queued_pos_iff {s : DropBitrateDequeueQueue} {d : UInt16} {m : Int} {pos : PktPos} :
    0 < s.queued d m pos ↔ ∃ p ∈ s.internalQueue, p.stamp = some ⟨d, m, pos⟩ := by
  simp [queued, List.countP_pos_iff]

/-- A counter exists exactly while a boundary packet of its message is queued. -/
theorem count_isSome_iff {h : History} {s : DropBitrateDequeueQueue} (hr : Reachable h s)
    (d : UInt16) (m : Int) : (s.count d m).isSome ↔
      ∃ p ∈ s.internalQueue, ∃ pos, pos ≠ .mid ∧ p.stamp = some ⟨d, m, pos⟩ := by
  have hpos : (s.count d m).isSome ↔
      0 < s.queued d m .first ∨ 0 < s.queued d m .last ∨ 0 < s.queued d m .solo := by
    rw [counters_match hr, weight_eq_queued, counter]
    split <;> simp <;> omega
  simp only [hpos, queued_pos_iff]
  constructor
  · rintro (⟨p, hp, hst⟩ | ⟨p, hp, hst⟩ | ⟨p, hp, hst⟩)
    · exact ⟨p, hp, _, by decide, hst⟩
    · exact ⟨p, hp, _, by decide, hst⟩
    · exact ⟨p, hp, _, by decide, hst⟩
  · rintro ⟨p, hp, pos, hmid, hst⟩
    cases pos with
    | first => exact .inl ⟨p, hp, hst⟩
    | last => exact .inr (.inl ⟨p, hp, hst⟩)
    | mid => exact absurd rfl hmid
    | solo => exact .inr (.inr ⟨p, hp, hst⟩)

/-- It counts the FIRST and LAST packets once and the SOLO packets twice. -/
theorem count_eq_queued {h : History} {s : DropBitrateDequeueQueue} (hr : Reachable h s)
    {d : UInt16} {m v : Int} (hv : s.count d m = some v) :
    v = s.queued d m .first + s.queued d m .last + 2 * s.queued d m .solo := by
  rw [counters_match hr, weight_eq_queued, counter] at hv
  split at hv
  · cases hv
  · cases hv; push_cast; rfl

/-- **The frame counters are exact** after every call of every run that no fault stops. -/
theorem frame_counter_exact {packetLimit byteLimit bandwidth : Nat} {logFd : Bool}
    {calls : List Call} {t : Trace} {s : DropBitrateDequeueQueue}
    (hrun : run Call.step calls ({}, ofArgs packetLimit byteLimit logFd bandwidth) = .ok (t, s))
    (d : UInt16) (m : Int) :
    ((s.count d m).isSome ↔
      ∃ p ∈ s.internalQueue, ∃ pos, pos ≠ .mid ∧ p.stamp = some ⟨d, m, pos⟩) ∧
    ∀ v, s.count d m = some v →
      v = s.queued d m .first + s.queued d m .last + 2 * s.queued d m .solo :=
  ⟨count_isSome_iff (run_reachable hrun) d m, fun _ hv => count_eq_queued (run_reachable hrun) hv⟩

/-- FIRST and LAST of message 5 arrive, then SOLO of message 6, and one packet is dequeued. -/
def threeThenOne : List Call :=
  [.enqueue 0 0 (udpPayload 4433 1 0x80000005 0), .enqueue 0 0 (udpPayload 4433 2 0x40000005 0),
   .enqueue 1 1 (udpPayload 4433 3 0xc0000006 0), .dequeue fun _ => 2]

theorem frame_counter_exact_threeThenOne : ∃ t s,
    run Call.step threeThenOne ({}, ofArgs 100 0 false 0) = .ok (t, s) ∧
    (s.count 4433 5 = some 1 ∧
      (1 : Int) = s.queued 4433 5 .first + s.queued 4433 5 .last + 2 * s.queued 4433 5 .solo) ∧
    ∃ p ∈ s.internalQueue, ∃ pos, pos ≠ .mid ∧ p.stamp = some ⟨4433, 6, pos⟩ := by
  obtain ⟨⟨t, s⟩, hrun, hs⟩ := of_map_ok
    (x := run Call.step threeThenOne ({}, ofArgs 100 0 false 0))
    (f := fun x => (x.2.count 4433 5, x.2.count 4433 6)) (b := (some 1, some 2)) (by decide)
  obtain ⟨h5, h6⟩ := Prod.ext_iff.mp hs
  exact ⟨t, s, hrun, ⟨h5, (frame_counter_exact hrun 4433 5).2 1 h5⟩,
    (frame_counter_exact hrun 4433 6).1.mp (by simp only at h6; rw [h6]; rfl)⟩

/-! ### What a counter of 2 means -/

/-- The message is completely queued: a SOLO packet is, or both a FIRST and a LAST. -/
def FullyQueued (s : DropBitrateDequeueQueue) (d : UInt16) (m : Int) : Prop :=
  (∃ p ∈ s.internalQueue, p.stamp = some ⟨d, m, .solo⟩) ∨
    (∃ p ∈ s.internalQueue, p.stamp = some ⟨d, m, .first⟩) ∧
      ∃ p ∈ s.internalQueue, p.stamp = some ⟨d, m, .last⟩

/-- `dequeuefront` is about to remove a packet with this header, and takes the branch in which its
message's counter is 2. -/
structure DecidesOn (s : DropBitrateDequeueQueue) (header : PacketHeader) : Prop where
  front : ∃ p, s.internalQueue.head? = some p ∧ PacketHeader.ofPayload p.contents = .ok header
  octopus : header.isOctopus = true
  two : s.count header.dstport header.msgNo = some 2

/-- **A counter of 2 means a complete message exactly where no boundary packet is queued twice.** -/
theorem counter_two_complete_iff {h : History} {s : DropBitrateDequeueQueue} (hr : Reachable h s)
    {header : PacketHeader} (hd : s.DecidesOn header) :
    s.FullyQueued header.dstport header.msgNo ↔
      s.queued header.dstport header.msgNo .first ≤ 1 ∧
        s.queued header.dstport header.msgNo .last ≤ 1 := by
  have hsum := count_eq_queued hr hd.two
  simp only [FullyQueued, ← queued_pos_iff]
  omega

/-- The FIRST packet of message 5, and a retransmitted copy of it. -/
def firstTwice : List Action :=
  [.enqueue 0 0 (udpPayload 4433 1 0x80000005 0), .enqueue 1 1 (udpPayload 4433 1 0x80000005 0)]

def firstHeader : PacketHeader := ⟨1, 0x80000005, 0, 0x00110000, 4433⟩

theorem reachable_firstTwice : ∃ h s, Reachable h s ∧ s.DecidesOn firstHeader ∧
    ¬ s.FullyQueued 4433 5 := by
  obtain ⟨⟨h, s⟩, hrun, hs⟩ := of_map_ok (x := run Action.step firstTwice ({}, ofArgs 100 0 false 0))
    (f := fun x => (x.2.internalQueue, x.2.count 4433 5))
    (b := ([⟨0, udpPayload 4433 1 0x80000005 0, false⟩,
      ⟨1, udpPayload 4433 1 0x80000005 0, false⟩], some 2)) (by decide)
  obtain ⟨hq, hcount⟩ := Prod.ext_iff.mp hs
  simp only at hq hcount
  refine ⟨h, s, ⟨100, 0, false, 0, _, hrun⟩, ⟨⟨_, by rw [hq]; rfl, by decide⟩, by decide, hcount⟩, ?_⟩
  simp only [FullyQueued, hq]
  decide

/-- The counter of message 5 is 2 when its FIRST packet leaves, and no LAST packet is queued. -/
theorem counter_two_of_two_firsts : ¬ ∀ h s, Reachable h s → ∀ header, s.DecidesOn header →
    s.FullyQueued header.dstport header.msgNo := by
  obtain ⟨h, s, hr, hd, hno⟩ := reachable_firstTwice
  exact fun hall => hno (hall h s hr firstHeader hd)

theorem counter_two_complete_iff_firstTwice : ∃ h s, Reachable h s ∧
    (s.FullyQueued 4433 5 ↔ s.queued 4433 5 .first ≤ 1 ∧ s.queued 4433 5 .last ≤ 1) := by
  obtain ⟨h, s, hr, hd, -⟩ := reachable_firstTwice
  exact ⟨h, s, hr, counter_two_complete_iff hr hd⟩

end DropBitrateDequeueQueue

end Mahimahi
