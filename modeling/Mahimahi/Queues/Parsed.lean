import Mahimahi.Link.Queue
import Mahimahi.Packet.HeaderBytes
import Mahimahi.Queues.Conservation

/-!
# Queues — the packets that are parsed

Nothing between the device and `PacketHeader` looks at a packet's length, and every queue but the
infinite one and `PIEPacketQueue::enqueue` hands packets to the constructor.  `parsed` lists them, in
order, up to the call that a fault stops.

* `readPastEnd_iff`: a run stops at a header that is not there exactly when a packet parsed has less
  than 43 bytes, so the list is complete.
* `readsInside_iff_parsed`: the constructor stays inside the packets of a run exactly when each of
  them that is parsed has 44 bytes or more; and then (`parsed_ofMemory`) what lies behind a packet
  does not show in its header.
-/

open Fallible MachineInt

namespace Mahimahi

/-! ### What a computation parses -/

/-- What is parsed after `x`, if it returns. -/
def andThen {α : Type} (x : Except Fault α) (parsed : α → List Payload) : List Payload :=
  match x with
  | .ok a => parsed a
  | .error _ => []

/-- `parsed` is what `x` parses: it stops at a header exactly when one of them has none. -/
def Parses {α : Type} (parsed : List Payload) (x : Except Fault α) : Prop :=
  x = .error .readPastEnd ↔ ∃ c ∈ parsed, c.length < 43

/-- No header is read. -/
def HeaderFree (f : Fault) : Prop := f ≠ .readPastEnd

instance : DecidablePred HeaderFree := fun f => inferInstanceAs (Decidable (f ≠ .readPastEnd))

section

variable {α β : Type} {x : Except Fault α} {f : α → Except Fault β} {l l' : List Payload}
  {m : α → List Payload}

/-- What reads no header parses nothing. -/
theorem parses_nil (h : Ensures HeaderFree (fun _ => True) x) : Parses [] x :=
  iff_of_false (fun he => h.of_error he rfl) fun ⟨_, hc, _⟩ => by cases hc

/-- Reading a header parses its packet. -/
theorem parses_ofPayload (c : Payload) : Parses [c] (PacketHeader.ofPayload c) := by
  have hiff : PacketHeader.ofPayload c = .error .readPastEnd ↔ c.length < 43 := by
    rw [← Nat.not_le, ← PacketHeader.ofPayload_ok_iff]
    cases h : PacketHeader.ofPayload c with
    | ok header => exact iff_of_false (fun he => by cases he) fun hno => hno ⟨header, rfl⟩
    | error e =>
        have he : e = .readPastEnd := (PacketHeader.ofPayload_faults c).of_error h
        exact iff_of_true (by rw [he]) fun ⟨_, ho⟩ => by cases ho
  simpa [Parses] using hiff

/-- A fault is the right one for what has been parsed. -/
theorem parses_error {e : Fault} :
    Parses l (.error e : Except Fault α) ↔ (e = .readPastEnd ↔ ∃ c ∈ l, c.length < 43) := by
  rw [Parses, Except.error.injEq]

/-- A sequence parses what its first part does, and then what the second part does. -/
theorem Parses.bind (hx : Parses l x) (hf : ∀ a, x = .ok a → Parses (m a) (f a)) :
    Parses (l ++ andThen x m) (x >>= f) := by
  cases x with
  | error e =>
      rw [andThen, List.append_nil]
      exact parses_error.mpr (parses_error.mp hx)
  | ok a =>
      have hl : ¬ ∃ c ∈ l, c.length < 43 := fun h => by cases hx.mpr h
      have ha : f a = .error .readPastEnd ↔ ∃ c ∈ m a, c.length < 43 := hf a rfl
      rw [ok_bind, Parses, ha, andThen]
      refine ⟨fun ⟨c, hc, hlt⟩ => ⟨c, List.mem_append_right _ hc, hlt⟩, fun ⟨c, hc, hlt⟩ => ?_⟩
      rcases List.mem_append.mp hc with hc | hc
      · exact absurd ⟨c, hc, hlt⟩ hl
      · exact ⟨c, hc, hlt⟩

/-- Nothing is parsed before. -/
theorem Parses.after (hx : Ensures HeaderFree (fun _ => True) x)
    (hf : ∀ a, x = .ok a → Parses (m a) (f a)) : Parses (andThen x m) (x >>= f) :=
  (parses_nil hx).bind hf

/-- Nothing is parsed behind. -/
theorem Parses.before (hx : Parses l x) (hf : ∀ a, Ensures HeaderFree (fun _ => True) (f a)) :
    Parses l (x >>= f) := by
  have h := hx.bind (m := fun _ => []) fun a _ => parses_nil (hf a)
  rw [show andThen x (fun _ => []) = [] by cases x <;> rfl, List.append_nil] at h
  exact h

theorem Parses.map (hx : Parses l x) (g : α → β) : Parses l (x.map g) := by
  cases x with
  | error e => exact parses_error.mpr (parses_error.mp hx)
  | ok a => exact iff_of_false (fun h => by cases h) fun h => by cases hx.mpr h

/-- A test parses what its branch does. -/
theorem Parses.ite {c : Prop} [Decidable c] {y : Except Fault α} (hx : c → Parses l x)
    (hy : ¬ c → Parses l' y) : Parses (if c then l else l') (if c then x else y) := by
  by_cases h : c
  · rw [if_pos h, if_pos h]
    exact hx h
  · rw [if_neg h, if_neg h]
    exact hy h

end

/-! ### The base -/

/-- Reading the counter of bytes parses nothing. -/
theorem CountedQueue.sizeBytes_headerFree (q : CountedQueue) :
    Ensures HeaderFree (fun _ => True) q.sizeBytes :=
  q.sizeBytes_faults.mono_fault (by decide)

theorem CountedQueue.sizePackets_headerFree (q : CountedQueue) :
    Ensures HeaderFree (fun _ => True) q.sizePackets :=
  q.sizePackets_faults.mono_fault (by decide)

namespace DroppingPacketQueue

theorem assertGood_headerFree (q : DroppingPacketQueue) :
    Ensures HeaderFree (fun _ => True) q.assertGood := q.assertGood_faults.mono_error (by decide)

/-- Asking whether a packet fits parses nothing. -/
theorem fits_headerFree (q : DroppingPacketQueue) (p : QueuedPacket) :
    Ensures HeaderFree (fun _ => True) (q.fits p) := (q.fits_faults p).mono_error (by decide)

theorem logLine_headerFree (q : DroppingPacketQueue) :
    Ensures HeaderFree (fun _ => True) q.logLine :=
  q.logLine_faults.mono_fault (by decide)

theorem popFront_headerFree (q : DroppingPacketQueue) :
    Ensures HeaderFree (fun _ => True) q.popFront :=
  q.popFront_faults.mono_fault (by decide)

/-- `PacketHeader` of the packet that leaves, for the log line. -/
def dequeueParsed (q : DroppingPacketQueue) : List Payload :=
  andThen q.popFront fun (p, _) => if q.logFd then [p.contents] else []

/-- The common dequeue parses the packet it takes, if there is a log. -/
theorem dequeue_parses (q : DroppingPacketQueue) : Parses q.dequeueParsed q.dequeue := by
  refine .after q.popFront_headerFree fun (p, q') _ => .ite (fun _ => ?_) fun _ => ?_
  · refine (parses_ofPayload _).before fun _ => ?_
    exact q.logLine_headerFree.bind fun _ _ => q'.assertGood_headerFree.bind fun _ _ => trivial
  · exact parses_nil (q'.assertGood_headerFree.bind fun _ _ => trivial)

end DroppingPacketQueue

open DroppingPacketQueue

/-! ### The classes -/

namespace DropTailPacketQueue

/-- Drop tail parses every packet that comes. -/
theorem enqueue_parses (p : QueuedPacket) (s : DropTailPacketQueue) :
    Parses [p.contents] (s.enqueue p) := by
  refine (parses_ofPayload _).before fun _ => s.logLine_headerFree.bind fun _ _ => ?_
  refine (s.fits_headerFree p).bind fun fits _ => ?_
  cases fits with
  | true => exact (assertGood_headerFree _).bind fun _ _ => trivial
  | false =>
      exact s.logLine_headerFree.bind fun _ _ => (assertGood_headerFree _).bind fun _ _ => trivial

end DropTailPacketQueue

namespace DropHeadPacketQueue

/-- The packets that `dropHead` takes off, with a log. -/
def dropHeadParsed : Nat → DroppingPacketQueue → List Payload
  | 0, _ => []
  | fuel + 1, q =>
      andThen q.sizeBytes fun bytes => andThen q.sizePackets fun packets =>
        if q.goodWith bytes packets then []
        else q.dequeueParsed ++ andThen q.dequeue fun (_, q) => dropHeadParsed fuel q

/-- Drop head parses what it drops, if there is a log. -/
theorem dropHead_parses {fuel : Nat} : ∀ {q : DroppingPacketQueue},
    Parses (dropHeadParsed fuel q) (dropHead fuel q) := by
  induction fuel with
  | zero => exact parses_nil trivial
  | succ fuel ih =>
      intro q
      refine .after q.sizeBytes_headerFree fun _ _ => .after q.sizePackets_headerFree fun _ _ => ?_
      refine .ite (fun _ => parses_nil trivial) fun _ => ?_
      exact q.dequeue_parses.bind fun (_, q) _ => ih

/-- What an enqueue of drop head parses. -/
def enqueueParsed (p : QueuedPacket) (s : DropHeadPacketQueue) : List Payload :=
  let q := s.toDroppingPacketQueue.accept p
  dropHeadParsed (q.internalQueue.length + 1) q

theorem enqueue_parses (p : QueuedPacket) (s : DropHeadPacketQueue) :
    Parses (s.enqueueParsed p) (s.enqueue p) := dropHead_parses.before fun _ => trivial

end DropHeadPacketQueue

namespace CODELPacketQueue

/-- What the guarded line of CoDel parses. -/
def logParsed (p : QueuedPacket) (s : CODELPacketQueue) : List Payload :=
  if s.logFd then [p.contents] else []

theorem logPacket_parses (p : QueuedPacket) (s : CODELPacketQueue) :
    Parses (s.logParsed p) (s.logPacket p) := by
  refine .ite (fun hlog => ?_) fun _ => parses_nil trivial
  refine (parses_ofPayload _).before fun _ => s.sizeBytes_headerFree.bind fun _ _ => ?_
  rw [hlog]
  trivial

/-- What an enqueue of CoDel parses: the packet, if it is accepted and there is a log. -/
def enqueueParsed (p : QueuedPacket) (s : CODELPacketQueue) : List Payload :=
  andThen (s.fits p) fun fits => if fits then s.logParsed p else []

theorem enqueue_parses (p : QueuedPacket) (s : CODELPacketQueue) :
    Parses (s.enqueueParsed p) (s.enqueue p) := by
  refine .after (s.fits_headerFree p) fun fits _ => .ite (fun _ => ?_) fun _ => ?_
  · exact (s.logPacket_parses p).before fun _ => (assertGood_headerFree _).bind fun _ _ => trivial
  · exact parses_nil ((assertGood_headerFree _).bind fun _ _ => trivial)

theorem dodequeue_headerFree (now : Nat) (s : CODELPacketQueue) :
    Ensures HeaderFree (fun _ => True) (s.dodequeue now) :=
  (s.dodequeue_faults now).mono_error (by decide)

theorem drop_headerFree (now : Nat) (okToDrop : Bool) (s : CODELPacketQueue) :
    Ensures HeaderFree (fun _ => True) (s.drop now okToDrop) :=
  (s.drop_faults now okToDrop).mono_error (by decide)

/-- What a dequeue of CoDel parses: the packet it returns, if there is a log. -/
def dequeueParsed (now : Nat) (s : CODELPacketQueue) : List Payload :=
  andThen (s.dodequeue now) fun (p, okToDrop, s) =>
    andThen (s.drop now okToDrop) fun s => s.logParsed p

theorem dequeue_parses (now : Nat) (s : CODELPacketQueue) :
    Parses (s.dequeueParsed now) (s.dequeue now) :=
  .after (s.dodequeue_headerFree now) fun (p, okToDrop, s₁) _ =>
    .after (s₁.drop_headerFree now okToDrop) fun s₂ _ =>
      (s₂.logPacket_parses p).before fun _ => trivial

end CODELPacketQueue

namespace PIEPacketQueue

theorem calculateDropProb_headerFree (now : Nat) (s : PIEPacketQueue) :
    Ensures HeaderFree (fun _ => True) (s.calculateDropProb now) :=
  (s.calculateDropProb_faults now).mono_fault (by decide)

theorem dropEarly_headerFree (s : PIEPacketQueue) :
    Ensures HeaderFree (fun _ => True) s.dropEarly := s.dropEarly_faults.mono_fault (by decide)

/-- `PIEPacketQueue::enqueue` parses nothing. -/
theorem enqueue_parses (now : Nat) (p : QueuedPacket) (s : PIEPacketQueue) :
    Parses [] (s.enqueue now p) := by
  refine parses_nil ((s.calculateDropProb_headerFree now).bind fun s₁ _ => ?_)
  refine (s₁.fits_headerFree p).bind fun fits _ => ?_
  cases fits with
  | true =>
      exact s₁.dropEarly_headerFree.bind fun _ _ => (assertGood_headerFree _).bind fun _ _ => trivial
  | false => trivial

/-- PIE parses what the common dequeue does. -/
theorem dequeue_parses (now later : Nat) (s : PIEPacketQueue) :
    Parses s.toDroppingPacketQueue.dequeueParsed (s.dequeue now later) := by
  refine Parses.before (x := s.take now) ?_ fun (_, s₁) =>
    (s₁.calculateDropProb_headerFree later).bind fun _ _ => trivial
  exact s.toDroppingPacketQueue.dequeue_parses.before fun _ =>
    (CountedQueue.sizeBytes_headerFree _).bind fun _ _ => trivial

end PIEPacketQueue

namespace DropBitrateDequeueQueue

theorem countArrival_headerFree (header : PacketHeader) (s : DropBitrateDequeueQueue) :
    Ensures HeaderFree (fun _ => True) (s.countArrival header) :=
  (s.countArrival_faults header).mono_fault (by decide)

theorem countDeparture_headerFree (header : PacketHeader) (s : DropBitrateDequeueQueue) :
    Ensures HeaderFree (fun _ => True) (s.countDeparture header) :=
  (s.countDeparture_faults header).mono_error (by decide)

/-- What an enqueue parses: the packet, if it is accepted. -/
def enqueueParsed (p : QueuedPacket) (s : DropBitrateDequeueQueue) : List Payload :=
  andThen (s.fits p) fun fits => if fits then [p.contents] else []

theorem enqueue_parses (ts : Nat) (p : QueuedPacket) (s : DropBitrateDequeueQueue) :
    Parses (s.enqueueParsed p) (s.enqueue ts p) := by
  refine .after (s.fits_headerFree p) fun fits _ => .ite (fun _ => ?_) fun _ => parses_nil trivial
  refine (parses_ofPayload _).before fun header => ?_
  split
  · exact (logLine_headerFree _).bind fun _ _ =>
      (countArrival_headerFree _ _).bind fun _ _ => trivial
  · exact (logLine_headerFree _).bind fun _ _ => (assertGood_headerFree _).bind fun _ _ => trivial

/-- What `dequeuefront` parses: the first packet. -/
def frontParsed (s : DropBitrateDequeueQueue) : List Payload :=
  andThen s.popFront fun (pkt, _) => [pkt.contents]

theorem front_parses (ts : Nat) (s : DropBitrateDequeueQueue) :
    Parses s.frontParsed (s.front ts) := by
  refine Parses.before (x := s.dequeuefront ts) ?_ fun (_, _) => trivial
  refine .after s.popFront_headerFree fun (pkt, q) _ => (parses_ofPayload _).before fun header => ?_
  dsimp only
  split
  · exact (countDeparture_headerFree _ _).bind fun _ _ => trivial
  · trivial

/-- The loop parses the packet at hand again, and every packet that it takes off. -/
def loopParsed (clock : Nat → Nat) :
    Nat → List Front → Front → DropBitrateDequeueQueue → List Payload
  | 0, _, _, _ => []
  | fuel + 1, dropped, f, s =>
      if s.empty then []
      else [f.pkt.contents] ++ andThen (PacketHeader.ofPayload f.pkt.contents) fun header =>
        if header.isOctopus && f.pkt.isDrop then
          s.frontParsed ++ andThen (s.front (clock (dropped.length + 1))) fun (f', s') =>
            loopParsed clock fuel (dropped ++ [f]) f' s'
        else []

/-- The loop parses every packet it takes, and again to see whether it is marked. -/
theorem dequeueLoop_parses {clock : Nat → Nat} {fuel : Nat} : ∀ {dropped : List Front} {f : Front}
    {s : DropBitrateDequeueQueue},
      Parses (loopParsed clock fuel dropped f s) (dequeueLoop clock fuel dropped f s) := by
  induction fuel with
  | zero => exact parses_nil trivial
  | succ fuel ih =>
      intro dropped f s
      refine .ite (fun _ => parses_nil trivial) fun _ => ?_
      refine (parses_ofPayload _).bind fun header _ => .ite (fun _ => ?_) fun _ => parses_nil trivial
      exact (s.front_parses _).bind fun (f', s') _ => ih

/-- What a dequeue parses: the packets it discards and the one it returns. -/
def dequeueParsed (clock : Nat → Nat) (s : DropBitrateDequeueQueue) : List Payload :=
  s.frontParsed ++ andThen (s.front (clock 0)) fun (f, s) =>
    loopParsed clock s.internalQueue.length [] f s ++
      andThen (dequeueLoop clock s.internalQueue.length [] f s) fun (_, f, _) => [f.pkt.contents]

theorem dequeue_parses (clock : Nat → Nat) (s : DropBitrateDequeueQueue) :
    Parses (s.dequeueParsed clock) (s.dequeue clock) := by
  refine Parses.before (x := s.dequeueAll clock) ?_ fun (_, _, _) => trivial
  refine (s.front_parses _).bind fun (f, s₁) _ => dequeueLoop_parses.bind fun (_, f₂, s₂) _ => ?_
  refine (parses_ofPayload _).before fun header => ?_
  dsimp only
  split
  · exact s₂.logLine_headerFree.bind fun _ _ => trivial
  · trivial

end DropBitrateDequeueQueue

namespace DropActiveNetQueue

theorem logPackets_headerFree (s : DropActiveNetQueue) :
    Ensures HeaderFree (fun _ => True) s.logPackets := s.logPackets_faults.mono_fault (by decide)

/-- `dropStaleFrames` parses every packet of the queue. -/
def dropStaleParsed (toDrop : Nat) (dropperMsg : Int) :
    List QueuedPacket → DropActiveNetQueue → List Payload
  | [], _ => []
  | p :: rest, s =>
      [p.contents] ++ andThen (PacketHeader.ofPayload p.contents) fun header =>
        if (toDrop ≤ header.priority.val ∧ header.msgNo < dropperMsg) ∧
            (header.pktPos = .first ∨ header.pktPos = .solo) then
          let s := { s with msgInDrop := header.msgNo }.discount p
          andThen (fprintf s.logFd) fun _ => dropStaleParsed toDrop dropperMsg rest s
        else if s.msgInDrop = header.msgNo then
          dropStaleParsed toDrop dropperMsg rest (s.discount p)
        else dropStaleParsed toDrop dropperMsg rest s

/-- A purge parses every packet that is queued, up to the one where it fails. -/
theorem dropStaleLoop_parses {toDrop : Nat} {dropperMsg : Int} {ps : List QueuedPacket} :
    ∀ {s : DropActiveNetQueue},
      Parses (dropStaleParsed toDrop dropperMsg ps s) (dropStaleLoop toDrop dropperMsg ps s) := by
  induction ps with
  | nil => exact parses_nil trivial
  | cons p ps ih =>
      intro s
      refine (parses_ofPayload _).bind fun header _ => .ite (fun _ => ?_) fun _ => ?_
      · have hlog : Ensures HeaderFree (fun _ => True)
            (fprintf ({ s with msgInDrop := header.msgNo }.discount p).logFd) := by
          unfold fprintf
          split
          · trivial
          · exact (by decide : HeaderFree .nullLog)
        exact .after hlog fun _ _ => ih.before fun (_, _, _) => trivial
      · exact .ite (fun _ => ih.before fun (_, _, _) => trivial) fun _ =>
          ih.before fun (_, _, _) => trivial

/-- What an enqueue of the active network parses: the packet, and the whole queue if it is purged.
-/
def enqueueParsed (p : QueuedPacket) (s : DropActiveNetQueue) : List Payload :=
  [p.contents] ++ andThen (PacketHeader.ofPayload p.contents) fun header =>
    if header.isUdp then
      andThen (s.fits p) fun fits =>
        if fits then []
        else if header.priority.val = 1 then dropStaleParsed 2 header.msgNo s.internalQueue s
        else []
    else []

theorem enqueue_parses (p : QueuedPacket) (s : DropActiveNetQueue) :
    Parses (s.enqueueParsed p) (s.enqueue p) := by
  refine (parses_ofPayload _).bind fun header _ => .ite (fun _ => ?_) fun _ => parses_nil trivial
  refine Parses.before (x := s.makeRoom p header) ?_ fun s₁ => ?_
  · refine .after (s.fits_headerFree p) fun fits _ => ?_
    refine .ite (fun _ => parses_nil trivial) fun _ => .ite (fun _ => ?_) fun _ => parses_nil trivial
    refine Parses.before (x := s.dropStaleFrames 2 header.msgNo) ?_ fun (_, _) => trivial
    exact dropStaleLoop_parses.before fun (_, _, _) => trivial
  · refine (s₁.fits_headerFree p).bind fun fits _ => ?_
    cases fits with
    | true => exact (logPackets_headerFree _).bind fun _ _ => trivial
    | false => exact (logPackets_headerFree _).bind fun _ _ => trivial

/-- What a dequeue of the active network parses: the packet it returns. -/
def dequeueParsed (s : DropActiveNetQueue) : List Payload :=
  andThen s.popFront fun (ret, _) => [ret.contents]

theorem dequeue_parses (s : DropActiveNetQueue) : Parses s.dequeueParsed s.dequeue := by
  refine .after s.popFront_headerFree fun (ret, q) _ => (parses_ofPayload _).before fun header => ?_
  dsimp only
  split
  · exact s.logPackets_headerFree.bind fun _ _ => (assertGood_headerFree _).bind fun _ _ => trivial
  · exact (assertGood_headerFree _).bind fun _ _ => trivial

end DropActiveNetQueue

/-! ### Runs -/

namespace Discipline

/-- What an enqueue of any discipline parses. -/
def enqueueParsed (p : QueuedPacket) : Discipline → List Payload
  | .infinite _ => []
  | .dropTail _ => [p.contents]
  | .dropHead q => q.enqueueParsed p
  | .codel q => q.enqueueParsed p
  | .pie _ => []
  | .dropBitrateDequeue q => q.enqueueParsed p
  | .dropActiveNet q => q.enqueueParsed p

theorem enqueue_parses (ts : Nat) (p : QueuedPacket) (q : Discipline) :
    Parses (q.enqueueParsed p) (q.enqueue ts p) := by
  cases q with
  | infinite q => exact parses_nil trivial
  | dropTail q => exact (q.enqueue_parses p).map _
  | dropHead q => exact (q.enqueue_parses p).map _
  | codel q => exact (q.enqueue_parses p).map _
  | pie q => exact (q.enqueue_parses ts p).map _
  | dropBitrateDequeue q => exact (q.enqueue_parses ts p).map _
  | dropActiveNet q => exact (q.enqueue_parses p).map _

/-- What a dequeue of any discipline parses. -/
def dequeueParsed (clock : Nat → Nat) : Discipline → List Payload
  | .infinite _ => []
  | .dropTail q => q.toDroppingPacketQueue.dequeueParsed
  | .dropHead q => q.toDroppingPacketQueue.dequeueParsed
  | .codel q => q.dequeueParsed (clock 0)
  | .pie q => q.toDroppingPacketQueue.dequeueParsed
  | .dropBitrateDequeue q => q.dequeueParsed clock
  | .dropActiveNet q => q.dequeueParsed

theorem dequeue_parses (clock : Nat → Nat) (q : Discipline) :
    Parses (q.dequeueParsed clock) (q.dequeue clock) := by
  cases q with
  | infinite q =>
      refine (parses_nil ?_).map _
      exact (q.toCountedQueue.pop_faults.mono_fault (by decide)).bind fun (_, _) _ => trivial
  | dropTail q =>
      exact (q.toDroppingPacketQueue.dequeue_parses.before
        (f := fun r => .ok (r.1, (DropTailPacketQueue.mk r.2))) fun _ => trivial).map _
  | dropHead q =>
      exact (q.toDroppingPacketQueue.dequeue_parses.before
        (f := fun r => .ok (r.1, (DropHeadPacketQueue.mk r.2))) fun _ => trivial).map _
  | codel q => exact (q.dequeue_parses _).map _
  | pie q => exact (q.dequeue_parses _ _).map _
  | dropBitrateDequeue q => exact (q.dequeue_parses _).map _
  | dropActiveNet q => exact q.dequeue_parses.map _

/-- What a call parses. -/
def Call.parsed : Call → Discipline → List Payload
  | .enqueue _ arrivalTime contents, q => q.enqueueParsed { arrivalTime, contents }
  | .dequeue clock, q => q.dequeueParsed clock
  | .setBandwidth _, _ => []

/-- A call fails at a header exactly when it parses a packet that is too short. -/
theorem Call.step_parses (c : Call) (t : Trace) (q : Discipline) :
    Parses (c.parsed q) (c.step (t, q)) := by
  cases c with
  | enqueue ts arrivalTime contents => exact (enqueue_parses ts _ q).before fun _ => trivial
  | dequeue clock => exact (dequeue_parses clock q).before fun (_, _) => trivial
  | setBandwidth bandwidth => exact parses_nil trivial

/-- The packets parsed in a run, up to a call that faults. -/
def parsed : List Call → Trace × Discipline → List Payload
  | [], _ => []
  | c :: cs, x => c.parsed x.2 ++ andThen (c.step x) (parsed cs)

/-- So does a run. -/
theorem run_parses (calls : List Call) :
    ∀ x, Parses (parsed calls x) (run Call.step calls x) := by
  induction calls with
  | nil => exact fun _ => parses_nil trivial
  | cons c cs ih =>
      intro x
      rw [run_cons]
      exact (c.step_parses x.1 x.2).bind fun y _ => ih y

/-- **The packets parsed are all that a header is read of.** -/
theorem readPastEnd_iff (a : QueueArgs) (calls : List Call) :
    run Call.step calls ({}, a.make) = .error .readPastEnd ↔
      ∃ c ∈ parsed calls ({}, a.make), c.length < 43 := run_parses calls _

/-- **The constructor stays inside the packets of a run** exactly when each that is parsed has 44
bytes or more. -/
theorem readsInside_iff_parsed (a : QueueArgs) (calls : List Call) :
    (∀ c ∈ parsed calls ({}, a.make), PacketHeader.ReadsInside c) ↔
      ∀ c ∈ parsed calls ({}, a.make), 44 ≤ c.length :=
  forall₂_congr fun _ _ => PacketHeader.readsInside_iff

/-- In such a run each header read is the constructor's, whatever lies behind the packet. -/
theorem parsed_ofMemory {a : QueueArgs} {calls : List Call}
    (h : ∀ c ∈ parsed calls ({}, a.make), PacketHeader.ReadsInside c) (behind : Nat → UInt8) :
    ∀ c ∈ parsed calls ({}, a.make), PacketHeader.ofPayload c =
      .ok (PacketHeader.ofMemory (PacketHeader.memory c behind)) := by
  intro c hc
  have hlength := PacketHeader.readsInside_iff.mp (h c hc)
  exact PacketHeader.ofPayload_memory (by omega) behind

end Discipline

/-! ### A short packet -/

/-- A hundred bytes at most. -/
def hundredBytes (logFd : Bool) : DroppingArgs :=
  { packetLimit := 0, byteLimit := 100, logFd, bandwidth := 0, limited := by decide }

def everyFive : Schedule := ⟨[5], by decide, by decide, by decide⟩

/-- A UDP datagram without data from port 1 to port 4433, as it is read: the packet information, the
IP header and the UDP header. -/
def emptyDatagram : Payload :=
  [0, 0, 8, 0, 0x45, 0, 0, 28, 0, 0, 0, 0, 64, 17, 0, 0, 100, 64, 0, 1, 100, 64, 0, 2,
    0, 1, 0x11, 0x51, 0, 8, 0, 0]

/-- The link takes a datagram without data, and every class that parses in `enqueue` reads past its
end.  So does a logging `DroppingPacketQueue::dequeue`. -/
theorem emptyDatagram_readPastEnd :
    LinkQueue.readPacket 0 emptyDatagram (.ofArgs everyFive true false
      (QueueArgs.dropTail (hundredBytes false)).make) = .error (.queue .readPastEnd) ∧
    (∀ a ∈ [QueueArgs.dropTail (hundredBytes false), .dropActiveNet (hundredBytes false),
        .dropBitrateDequeue (hundredBytes false),
        .codel { hundredBytes true with
          target := 5, interval := 100, controlLaw := fun t _ => t + 100
          target_ne := by decide, interval_ne := by decide }],
      Discipline.parsed [.enqueue 0 0 emptyDatagram] ({}, a.make) = [emptyDatagram]) ∧
    Discipline.parsed [.enqueue 0 0 emptyDatagram, .dequeue fun _ => 1]
      ({}, (QueueArgs.dropHead (hundredBytes true)).make) = [emptyDatagram] ∧
    ¬ PacketHeader.ReadsInside emptyDatagram := by
  refine ⟨rfl, fun a ha => ?_, by decide +kernel, fun h => ?_⟩
  · simp only [List.mem_cons, List.not_mem_nil, or_false] at ha
    rcases ha with rfl | rfl | rfl | rfl
    all_goals decide +kernel
  · exact absurd (PacketHeader.readsInside_iff.mp h) (by decide)

end Mahimahi
