import Mahimahi.Link.Runs
import Mahimahi.Packet.Contract

/-!
# Link — packets go through whole and in order

* `link_delivers`: over a queue that keeps the `PacketContract`, no assertion of `rationalize`
  fails; the packets pushed to the output, and then the one in transit, are those the queue
  returned, in that order; and an opportunity sends fewer than `PACKET_SIZE` bytes only when it
  finds the queue empty.

The invariant is `Sound`, over a bound `early` on arrival times: during an opportunity at `t`
packets arrived before `t`, and between calls before the next opportunity.
-/

open Fallible MachineInt

namespace Mahimahi

open AbstractPacketQueue

namespace LinkQueue

variable {sched : Schedule} {Q : Type} [AbstractPacketQueue Q]

/-- The packet of which bytes are left to be sent. -/
def inTransit (s : LinkQueue sched Q) : List Payload :=
  if s.packetInTransitBytesLeft = 0 then [] else [s.packetInTransit.contents]

/-- Everything that was pushed to `output_queue_`. -/
def pushed (s : LinkQueue sched Q) : List Payload := s.history.written ++ s.outputQueue

/-- The bytes sent by the opportunities so far. -/
def sentBytes (s : LinkQueue sched Q) : Nat := (s.history.opportunities.map Opportunity.sent).sum

/-- The bytes of the packets that the queue returned. -/
def takenBytes (s : LinkQueue sched Q) : Nat := totalBytes s.history.taken

structure Sound (C : PacketContract Q) (early : Nat → Prop) (sent : Nat) (s : LinkQueue sched Q) :
    Prop where
  held : ∀ x ∈ C.held s.packetQueue, (1 ≤ x.2.length ∧ x.2.length ≤ PACKET_SIZE) ∧ early x.1
  transit : 0 < s.packetInTransitBytesLeft →
    s.packetInTransit.size ≤ PACKET_SIZE ∧ early s.packetInTransit.arrivalTime
  left : s.packetInTransitBytesLeft ≤ s.packetInTransit.size
  flow : s.pushed ++ s.inTransit = s.history.taken.map QueuedPacket.contents
  bytes : s.sentBytes + sent + s.packetInTransitBytesLeft = s.takenBytes
  usage : ∀ o ∈ s.history.opportunities,
    o.sent ≤ PACKET_SIZE ∧ (o.sent < PACKET_SIZE → o.queueEmpty = true)

/-- The assertions of `rationalize` hold. -/
def NotAsserted (e : LinkFault) : Prop :=
  e ≠ .arrivedLate ∧ e ≠ .overSize ∧ e ≠ .nothingLeft ∧ e ≠ .overContents

theorem notAsserted_queue (f : Fault) : NotAsserted (.queue f) := by simp [NotAsserted]

theorem Sound.imp {C : PacketContract Q} {early early' : Nat → Prop} {sent : Nat}
    {s : LinkQueue sched Q} (h : Sound C early sent s) (himp : ∀ a, early a → early' a) :
    Sound C early' sent s :=
  { h with
    held := fun x hx => ⟨(h.held x hx).1, himp _ (h.held x hx).2⟩
    transit := fun hpos => ⟨(h.transit hpos).1, himp _ (h.transit hpos).2⟩ }

/-- Loading a packet: afterwards one is in transit. -/
theorem load_sound {C : PacketContract Q} {early : Nat → Prop} {now sent : Nat}
    {s : LinkQueue sched Q} (h : Sound C early sent s)
    (hbusy : ¬ (s.packetInTransitBytesLeft = 0 ∧ empty s.packetQueue)) :
    Ensures NotAsserted (fun s' => Sound C early sent s' ∧ 0 < s'.packetInTransitBytesLeft)
      (s.load now) := by
  unfold load
  split
  · -- a packet is dequeued: it was held, so it is small enough and arrived early enough
    rename_i hzero
    have hempty : empty s.packetQueue = false := by simpa [hzero] using hbusy
    refine Ensures.bind (P := fun r => dequeue now s.packetQueue = .ok r)
      (ensures_ofQueue.mpr ?_) ?_
    · cases hd : dequeue now s.packetQueue with
      | error f => exact notAsserted_queue f
      | ok r => rfl
    · rintro ⟨p, q⟩ hd
      have hheld := C.dequeue_held hempty hd
      have hp := h.held _ (Multiset.mem_of_le hheld (Multiset.mem_cons_self _ _))
      have hflow := h.flow
      have hbytes := h.bytes
      rw [inTransit, if_pos hzero, List.append_nil] at hflow
      have hpos : 0 < p.size := by unfold QueuedPacket.size; exact hp.1.1
      refine ⟨⟨fun x hx => ?_, fun _ => ⟨hp.1.2, hp.2⟩, le_rfl, ?_, ?_, h.usage⟩, hpos⟩
      · exact h.held x (Multiset.mem_of_le hheld (Multiset.mem_cons_of_mem hx))
      · rw [inTransit, if_neg (show p.size ≠ 0 by omega), List.map_append, ← hflow]
        rfl
      · simp only [sentBytes, takenBytes, totalBytes_append, totalBytes_cons, totalBytes_nil] at *
        omega
  · exact ⟨h, by omega⟩

theorem sendSome_sound {C : PacketContract Q} {early : Nat → Prop} {now t bytesLeft sent : Nat}
    {s : LinkQueue sched Q} (hearly : ∀ a, early a → a ≤ t) (h : Sound C early sent s)
    (hbusy : ¬ (s.packetInTransitBytesLeft = 0 ∧ empty s.packetQueue)) :
    Ensures NotAsserted (fun r => Sound C early (sent + r.1) r.2) (s.sendSome now t bytesLeft) := by
  refine sendSome_ensures ((load_sound h hbusy).mono ?_)
  rintro s₁ ⟨h₁, hpos⟩
  obtain ⟨hsize, harr⟩ := h₁.transit hpos
  rw [checkInTransit_ok (hearly _ harr) hpos hsize h₁.left]
  have hbytes := h₁.bytes
  have hflow := h₁.flow
  rw [inTransit, if_neg (by omega)] at hflow
  refine ⟨fun hlt => ⟨h₁.held, fun _ => ⟨hsize, harr⟩, ?_, ?_, ?_, h₁.usage⟩, fun hle => ?_⟩
  · have := h₁.left
    show s₁.packetInTransitBytesLeft - bytesLeft ≤ s₁.packetInTransit.size
    omega
  · rw [inTransit, if_neg (show s₁.packetInTransitBytesLeft - bytesLeft ≠ 0 by omega)]
    exact hflow
  · show s₁.sentBytes + (sent + bytesLeft) + (s₁.packetInTransitBytesLeft - bytesLeft) =
      s₁.takenBytes
    omega
  · -- the packet moves from `inTransit` to `pushed`
    refine depart_ensures (fun f _ _ => notAsserted_queue f) fun _ _ _ =>
      ⟨h₁.held, fun hlt => absurd hlt (Nat.lt_irrefl 0), Nat.zero_le _, ?_, ?_, h₁.usage⟩
    · rw [inTransit, if_pos rfl, List.append_nil, ← hflow]
      simp [pushed]
    · show s₁.sentBytes + (sent + s₁.packetInTransitBytesLeft) + 0 = s₁.takenBytes
      omega

theorem burn_sound {C : PacketContract Q} {now t : Nat} {s : LinkQueue sched Q} (hs : OnSchedule s)
    (h : Sound C s.Early 0 s) (ht : s.nextDeliveryTime = some t) :
    Ensures NotAsserted (fun s' => Sound C s'.Early 0 s') (s.burn now t) := by
  have h₀ : Sound C (· < t) 0 s.useADeliveryOpportunity := by
    have hearly : Sound C (· < t) 0 s := h.imp fun a ha => ha t ht
    obtain ⟨_, _, _, _, hframe⟩ := useADeliveryOpportunity_frame s
    rw [hframe]
    exact { hearly with
      held := fun x hx => hearly.held x (Multiset.mem_of_le (C.setBandwidth_held _ _) hx) }
  have hburn : Ensures NotAsserted (Sound C (· < t) 0) (s.burn now t) := by
    refine burn_ensures ?_
    refine Ensures.mono (P := fun r => Sound C (· < t) r.1 r.2 ∧ r.1 ≤ PACKET_SIZE ∧
      (r.1 < PACKET_SIZE → empty r.2.packetQueue = true)) ?_ ?_
    · refine serve_ensures (P := fun bytesLeft sent s' => Sound C (· < t) sent s' ∧
        sent + bytesLeft = PACKET_SIZE) ?_ ?_ ?_ le_rfl ⟨h₀, Nat.zero_add _⟩
      · rintro bytesLeft sent s' hpos ⟨h', hsum⟩ hbusy
        exact (sendSome_sound (fun _ hlt => Nat.le_of_lt hlt) h' hbusy).mono
          fun r hr hle => ⟨hr, by omega⟩
      · rintro sent s' ⟨h', hsum⟩
        exact ⟨h', by dsimp only; omega, fun hlt => by dsimp only at hlt; omega⟩
      · rintro bytesLeft sent s' hpos ⟨h', hsum⟩ - hempty
        exact ⟨{ h' with }, by dsimp only; omega, fun _ => hempty⟩
    · rintro ⟨sent, s'⟩ ⟨h', hle, hstop⟩
      refine { h' with bytes := ?_, usage := ?_ }
      · have hbytes := h'.bytes
        simp only [sentBytes, takenBytes, List.map_append, List.map_cons, List.map_nil,
          List.sum_append, List.sum_cons, List.sum_nil] at hbytes ⊢
        omega
      · exact List.forall_mem_append.mpr ⟨h'.usage, List.forall_mem_singleton.mpr ⟨hle, hstop⟩⟩
  have hadv := burn_advanced now hs ht
  cases hx : s.burn now t with
  | error e => exact hburn.of_error hx
  | ok s' =>
      have hs' := hadv.of_ok hx
      exact (hburn.of_ok hx).imp fun a ha => hs'.early hs ht ha

theorem enqueuePacket_sound {C : PacketContract Q} {now : Nat} {contents : Payload}
    {s : LinkQueue sched Q} (hs : OnSchedule s) (h : Sound C s.Early 0 s)
    (hsize : 1 ≤ contents.length ∧ contents.length ≤ PACKET_SIZE)
    (hused : s.used = due sched s.repeats now) :
    Ensures NotAsserted (fun s' => Sound C s'.Early 0 s') (s.enqueuePacket now contents) := by
  cases hx : s.enqueuePacket now contents with
  | error e =>
      rcases enqueuePacket_error hx with ⟨f, rfl⟩ | rfl | rfl
      · exact notAsserted_queue f
      · simp [Ensures, NotAsserted]
      · simp [Ensures, NotAsserted]
  | ok s' =>
      obtain ⟨q, log, henq, rfl⟩ := enqueuePacket_ok hx
      refine { h with held := fun x hmem => ?_ }
      rcases Multiset.mem_cons.mp (Multiset.mem_of_le (C.enqueue_held henq) hmem) with rfl | hmem
      · exact ⟨hsize, early_of_due_le hs hused.ge⟩
      · exact h.held x hmem

theorem writePackets_sound {C : PacketContract Q} {s : LinkQueue sched Q}
    (h : Sound C s.Early 0 s) : Sound C s.writePackets.Early 0 s.writePackets :=
  { h with
    flow := by
      show s.history.written ++ s.outputQueue ++ [] ++ s.inTransit = _
      rw [List.append_nil]
      exact h.flow }

/-- **The link delivers what the queue hands it, whole and in order.** -/
theorem link_delivers (C : PacketContract Q) {q : Q} (hq : C.held q = 0) (sched : Schedule)
    (repeats logging : Bool) {calls : List Call} (ho : Orderly calls) :
    (∀ e, run Call.step calls (ofArgs sched repeats logging q) = .error e → NotAsserted e) ∧
    ∀ s, run Call.step calls (ofArgs sched repeats logging q) = .ok s →
      s.pushed ++ s.inTransit = s.history.taken.map QueuedPacket.contents ∧
      s.sentBytes + s.packetInTransitBytesLeft = s.takenBytes ∧
      ∀ o ∈ s.history.opportunities,
        o.sent ≤ PACKET_SIZE ∧ (o.sent < PACKET_SIZE → o.queueEmpty = true) := by
  refine ((run_ensures (P := fun _ s => Sound C s.Early 0 s) ?_ ?_ ?_ ?_ ?_ ho).mono ?_).split
  · exact ⟨by simp [ofArgs, hq], fun hpos => absurd hpos (Nat.lt_irrefl 0), Nat.zero_le _, rfl, rfl,
      by simp [ofArgs]⟩
  · exact fun _ s t now _ hs h ht _ => burn_sound hs h ht
  · exact fun _ s now contents _ hs h hsize hused => enqueuePacket_sound hs h hsize hused
  · exact fun _ s _ h => h
  · exact fun _ s h => writePackets_sound h
  · rintro s ⟨h, -⟩
    exact ⟨h.flow, h.bytes, h.usage⟩

theorem link_delivers_sharedOpportunity : ∃ s : LinkQueue everyTen InfinitePacketQueue,
    run Call.step sharedOpportunity (ofArgs everyTen true false {}) = .ok s ∧
    s.history.opportunities = [⟨10, 1504, true⟩, ⟨20, 496, true⟩] ∧
    s.pushed ++ s.inTransit = s.history.taken.map QueuedPacket.contents ∧
    s.sentBytes + s.packetInTransitBytesLeft = s.takenBytes := by
  have hrun : (run Call.step sharedOpportunity
      (ofArgs everyTen true false ({} : InfinitePacketQueue))).map
        (fun s => s.history.opportunities) =
      .ok [⟨10, 1504, true⟩, ⟨20, 496, true⟩] := by decide +kernel
  obtain ⟨s, hs, hopp⟩ := of_map_ok hrun
  have hnew : InfinitePacketQueue.contract.held {} = 0 := rfl
  obtain ⟨hflow, hbytes, -⟩ := (link_delivers InfinitePacketQueue.contract hnew everyTen true false
    orderly_sharedOpportunity).2 s hs
  exact ⟨s, hs, hopp, hflow, hbytes⟩

end LinkQueue

end Mahimahi
