import Mahimahi.Link.Delivery
import Mahimahi.Packet.Fifo

/-!
# Link — the order of the packets

Over a first in, first out queue the link may lose packets, but it does not turn them round.

* `taken_offered`: the packets that the queue returned, and behind them those that it holds, are some
  of the packets offered to the link, in their order.
* `run_fits`: the sizes that `read_packet` compares are the queue's, so its assertions hold.
-/

open Fallible

namespace Mahimahi

open AbstractPacketQueue

namespace LinkQueue

variable {sched : Schedule} {Q : Type} [AbstractPacketQueue Q]

/-- What has been taken from the queue and what is in it, oldest first. -/
def entries (F : FifoQueue Q) (s : LinkQueue sched Q) : List (Nat × Payload) :=
  s.history.taken.map QueuedPacket.entry ++ (F.counted s.packetQueue).entries

variable (F : FifoQueue Q) {offers : List (Nat × Payload)}

/-- Nothing but packets that were offered, in order. -/
def OnlyOffered (offers : List (Nat × Payload)) (s : LinkQueue sched Q) : Prop :=
  (s.entries F).Sublist offers

theorem load_offered {now : Nat} {s : LinkQueue sched Q} (h : s.OnlyOffered F offers) :
    Ensures (fun _ => True) (OnlyOffered F offers) (s.load now) :=
  ensures_iff.mpr fun s' hs' => by
    rcases load_ok hs' with ⟨-, p, q, hq, rfl⟩ | ⟨-, rfl⟩
    · refine List.Sublist.trans ?_ h
      have hyields := (F.dequeue_ok hq).entries
      rw [entries, entries, List.map_append, List.append_assoc]
      exact hyields.append_left _
    · exact h

theorem sendSome_offered {now t bytesLeft : Nat} {s : LinkQueue sched Q} (h : s.OnlyOffered F offers) :
    Ensures (fun _ => True) (fun r => OnlyOffered F offers r.2) (s.sendSome now t bytesLeft) := by
  refine sendSome_ensures ((load_offered F h).mono fun s₁ h₁ => ensures_iff.mpr fun _ _ => ?_)
  exact ⟨fun _ => h₁, fun _ => depart_ensures (fun _ _ _ => trivial) fun _ _ _ => h₁⟩

theorem burn_offered {now t : Nat} {s : LinkQueue sched Q} (h : s.OnlyOffered F offers) :
    Ensures (fun _ => True) (OnlyOffered F offers) (s.burn now t) := by
  have h₀ : OnlyOffered F offers s.useADeliveryOpportunity := by
    obtain ⟨_, _, _, _, hframe⟩ := useADeliveryOpportunity_frame s
    rw [hframe, OnlyOffered, entries, F.setBandwidth_eq]
    exact h
  refine burn_ensures ?_
  exact serve_ensures (P := fun _ _ s => OnlyOffered F offers s)
    (fun _ _ _ _ hs _ => (sendSome_offered F hs).mono fun _ hr _ => hr)
    (fun _ _ hs => hs) (fun _ _ _ _ hs _ _ => hs) le_rfl h₀

theorem enqueuePacket_offered {now : Nat} {contents : Payload} {s : LinkQueue sched Q}
    (h : s.OnlyOffered F offers) :
    Ensures (fun _ => True) (OnlyOffered F (offers ++ [(now, contents)]))
      (s.enqueuePacket now contents) :=
  ensures_iff.mpr fun s' hs' => by
    obtain ⟨q, log, hq, rfl⟩ := enqueuePacket_ok hs'
    have hpacket : (F.counted q).entries.Sublist
        ((F.counted s.packetQueue).entries ++ [(now, contents)]) := (F.enqueue_ok hq).sublist
    refine List.Sublist.trans ?_ (h.append_right [(now, contents)])
    show (s.history.taken.map QueuedPacket.entry ++ (F.counted q).entries).Sublist _
    rw [entries, List.append_assoc]
    exact hpacket.append_left _

theorem offered_snoc (done : List Call) (c : Call) :
    (offered (done ++ [c])).map QueuedPacket.entry =
      (offered done).map QueuedPacket.entry ++ (offered [c]).map QueuedPacket.entry := by
  rw [offered_append, List.map_append]

/-- **The link keeps the order of its packets.** -/
theorem taken_offered {q : Q} (hq : (F.counted q).entries = []) {repeats logging : Bool}
    {calls : List Call} (ho : Orderly calls) {s : LinkQueue sched Q}
    (h : run Call.step calls (ofArgs sched repeats logging q) = .ok s) :
    (s.entries F).Sublist ((offered calls).map QueuedPacket.entry) := by
  refine ((run_ensures (E := fun _ => True) (P := fun done (s : LinkQueue sched Q) =>
    OnlyOffered F ((offered done).map QueuedPacket.entry) s) ?_ ?_ ?_ ?_ ?_ ho).of_ok h).1
  · rw [OnlyOffered, entries]
    simp [ofArgs, hq]
  · exact fun _ _ _ _ _ _ hs _ _ => burn_offered F hs
  · intro done s now contents _ _ hs _ _
    rw [offered_snoc]
    exact enqueuePacket_offered F hs
  · intro done s now hs
    rw [offered_snoc, show offered [.waitTime now] = [] from rfl, List.map_nil, List.append_nil]
    exact hs
  · intro done s hs
    rw [offered_snoc, show offered [.writePackets] = [] from rfl, List.map_nil, List.append_nil]
    exact hs

/-! ### The sizes of the queue -/

/-- The queue's counters are its totals, and `size_bytes` can tell them. -/
structure Fits (s : LinkQueue sched Q) : Prop where
  counted : (F.counted s.packetQueue).Counted
  small : totalBytes (F.counted s.packetQueue).internalQueue < 2 ^ 31
  nonempty : ∀ x ∈ (F.counted s.packetQueue).entries, 1 ≤ x.2.length

/-- The assertions of `read_packet` hold. -/
def NotGrown (e : LinkFault) : Prop := e ≠ .packetsGrew ∧ e ≠ .bytesGrew

theorem notGrown_queue (f : Fault) : NotGrown (.queue f) := by simp [NotGrown]

theorem ensures_queue {α : Type} (x : Except Fault α) :
    Ensures NotGrown (x = .ok ·) (ofQueue x) := by
  cases x with
  | error f => exact notGrown_queue f
  | ok a => rfl

variable {F} {s : LinkQueue sched Q}

theorem load_fits {now : Nat} (h : s.Fits F) : Ensures NotGrown (Fits F) (s.load now) := by
  cases hx : s.load now with
  | error e =>
      unfold load at hx
      split at hx
      · rcases bind_error.mp hx with hx | ⟨r, -, hx⟩
        · obtain ⟨f, -, rfl⟩ := ofQueue_error hx
          exact notGrown_queue f
        · cases hx
      · cases hx
  | ok s' =>
      rcases load_ok hx with ⟨-, p, q, hq, rfl⟩ | ⟨-, rfl⟩
      · have hshrinks := (F.dequeue_ok hq).shrinks
        exact ⟨hshrinks.counted h.counted, hshrinks.totalBytes_le.trans_lt h.small,
          fun x hx => h.nonempty x (hshrinks.entries.subset hx)⟩
      · exact h

theorem sendSome_fits {now t bytesLeft : Nat} (h : s.Fits F) :
    Ensures NotGrown (fun r => Fits F r.2) (s.sendSome now t bytesLeft) := by
  refine sendSome_ensures ((load_fits h).mono fun s₁ h₁ => ?_)
  have hcheck : Ensures NotGrown (fun _ => True) (s₁.checkInTransit t) := by
    unfold checkInTransit
    repeat' split
    all_goals trivial
  refine hcheck.mono fun _ _ => ⟨fun _ => ⟨h₁.counted, h₁.small, h₁.nonempty⟩, fun _ => ?_⟩
  exact depart_ensures (fun f _ _ => notGrown_queue f) fun _ _ _ =>
    ⟨h₁.counted, h₁.small, h₁.nonempty⟩

theorem burn_fits {now t : Nat} (h : s.Fits F) : Ensures NotGrown (Fits F) (s.burn now t) := by
  have h₀ : Fits F s.useADeliveryOpportunity := by
    obtain ⟨_, _, _, _, hframe⟩ := useADeliveryOpportunity_frame s
    have hqueue : F.counted s.useADeliveryOpportunity.packetQueue = F.counted s.packetQueue := by
      rw [hframe]
      exact F.setBandwidth_eq _ _
    exact ⟨hqueue ▸ h.counted, hqueue ▸ h.small, hqueue ▸ h.nonempty⟩
  refine burn_ensures ((serve_ensures (P := fun _ _ s => Fits F s) (R := fun r => Fits F r.2)
    (fun _ _ _ _ hs _ => (sendSome_fits hs).mono fun _ hr _ => hr) (fun _ _ hs => hs)
    (fun _ _ _ _ hs _ _ => ⟨hs.counted, hs.small, hs.nonempty⟩) le_rfl h₀).mono fun r hr => ?_)
  exact ⟨hr.counted, hr.small, hr.nonempty⟩

/-- What an `enqueue` leaves: no more than one packet more. -/
theorem enqueue_fits {now : Nat} {p : QueuedPacket} {q : Q} (h : s.Fits F) (hsize : 1 ≤ p.size)
    (hq : enqueue now p s.packetQueue = .ok q) :
    (F.counted q).Counted ∧ (∀ x ∈ (F.counted q).entries, 1 ≤ x.2.length) ∧
      totalBytes (F.counted q).internalQueue ≤
        totalBytes (F.counted s.packetQueue).internalQueue + p.size ∧
      (F.counted q).internalQueue.length ≤ (F.counted s.packetQueue).internalQueue.length + 1 := by
  have hoffered := F.enqueue_ok hq
  refine ⟨hoffered.counted h.counted, fun x hx => ?_, hoffered.totalBytes_le, ?_⟩
  · rcases List.mem_append.mp (hoffered.sublist.subset hx) with hx | hx
    · exact h.nonempty x hx
    · rw [List.mem_singleton.mp hx]
      exact hsize
  · simpa [CountedQueue.entries] using hoffered.sublist.length_le

theorem enqueuePacket_fits {now : Nat} {contents : Payload} (h : s.Fits F)
    (hsize : 1 ≤ contents.length ∧ contents.length ≤ PACKET_SIZE) :
    Ensures NotGrown (Fits F) (s.enqueuePacket now contents) := by
  have hle : contents.length ≤ 1504 := hsize.2
  have hlength := CountedQueue.length_le_of_nonempty h.nonempty
  have hsmall := h.small
  have hbefore : sizeBytes s.packetQueue =
        .ok (totalBytes (F.counted s.packetQueue).internalQueue) ∧
      sizePackets s.packetQueue = .ok (F.counted s.packetQueue).internalQueue.length :=
    ⟨(F.sizeBytes_eq _).trans (h.counted.sizeBytes_eq hsmall),
      (F.sizePackets_eq _).trans (h.counted.sizePackets_eq (by omega))⟩
  unfold enqueuePacket
  dsimp only [recordArrival, writeLog]
  rw [hbefore.1, hbefore.2]
  refine Ensures.bind (P := fun q => enqueue now { arrivalTime := now, contents } s.packetQueue =
    .ok q) (ensures_queue _) fun q hq => ?_
  have hpacket : QueuedPacket.size { arrivalTime := now, contents } = contents.length := rfl
  obtain ⟨hcounted, hnonempty, htotal, hcount⟩ := enqueue_fits h (hpacket ▸ hsize.1) hq
  rw [hpacket] at htotal
  refine (ensures_queue (sizePackets q)).bind fun packets hpackets => ?_
  -- the number of packets is one that an `int` holds
  have hpackets : packets = (F.counted q).internalQueue.length :=
    hcounted.sizePackets_of_ok (by omega) ((F.sizePackets_eq q).symm.trans hpackets)
  rw [if_neg (by rw [MachineInt.toU32]; omega)]
  refine (ensures_queue (sizeBytes q)).bind fun bytes hbytes => ?_
  obtain ⟨hsmall', rfl⟩ :=
    hcounted.sizeBytes_of_ok (by omega) ((F.sizeBytes_eq q).symm.trans hbytes)
  rw [if_neg (by omega)]
  split <;> exact ⟨hcounted, hsmall', hnonempty⟩

/-- **The assertions of `read_packet` hold**, over every first in, first out queue. -/
theorem run_fits {q : Q} (hcounted : (F.counted q).Counted) (hq : (F.counted q).entries = [])
    {repeats logging : Bool} {calls : List Call} (ho : Orderly calls) :
    Ensures NotGrown (Fits F) (run Call.step calls (ofArgs sched repeats logging q)) := by
  have hnew : Fits F (ofArgs sched repeats logging q) := by
    have hnone : (F.counted (ofArgs sched repeats logging q).packetQueue).entries = [] := hq
    refine ⟨hcounted, ?_, fun x hx => ?_⟩
    · rw [CountedQueue.totalBytes_eq_sum, hnone]
      decide
    · rw [hnone] at hx
      cases hx
  exact (run_ensures (P := fun _ s => Fits F s) hnew (fun _ _ _ _ _ _ hs _ _ => burn_fits hs)
    (fun _ _ _ _ _ _ hs hsize _ => enqueuePacket_fits hs hsize) (fun _ _ _ hs => hs)
    (fun _ _ hs => ⟨hs.counted, hs.small, hs.nonempty⟩) ho).mono fun _ hs => hs.1

end LinkQueue

end Mahimahi
