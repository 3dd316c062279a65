import Mahimahi.Packet.Fifo

/-!
# Packet — the queues that a link can be given

`get_packet_queue` chooses one of seven classes by name; `Discipline` is a queue of any of them, and
its functions are the virtual calls.  `QueueArgs` is what the constructors accept: a dropping queue
has a limit, and CoDel and PIE have both of their parameters.  The argument string that these are
read from is left out.

Every `Discipline` is first in, first out (`Discipline.fifo`), because every class is.
-/

open Fallible

namespace Mahimahi

/-! ### What the constructors accept -/

/-- The arguments of `DroppingPacketQueue`.  `bandwidth_` is not initialised. -/
structure DroppingArgs where
  packetLimit : Nat
  byteLimit : Nat
  logFd : Bool
  bandwidth : Nat
  limited : packetLimit ≠ 0 ∨ byteLimit ≠ 0

/-- The queue that the constructor makes of the common arguments. -/
def DroppingArgs.make (a : DroppingArgs) : DroppingPacketQueue :=
  { packetLimit := a.packetLimit, byteLimit := a.byteLimit, logFd := a.logFd, bandwidth := a.bandwidth }

/-- The arguments of CoDel: those of every dropping queue, a target and an interval. -/
structure CodelArgs extends DroppingArgs where
  target : Nat
  interval : Nat
  controlLaw : Nat → Nat → Nat
  target_ne : target ≠ 0
  interval_ne : interval ≠ 0

/-- What the constructor of CoDel makes of its arguments. -/
def CodelArgs.make (a : CodelArgs) : CODELPacketQueue :=
  { toDroppingPacketQueue := a.toDroppingArgs.make, target := a.target, interval := a.interval,
    controlLaw := a.controlLaw }

/-- `created` is the clock reading of the constructor. -/
structure PieArgs extends DroppingArgs where
  qdelayRef : Nat
  maxBurst : Nat
  random : Nat → ℚ
  created : Nat
  qdelayRef_ne : qdelayRef ≠ 0
  maxBurst_ne : maxBurst ≠ 0

/-- What the constructor of PIE makes of its arguments. -/
def PieArgs.make (a : PieArgs) : PIEPacketQueue :=
  { toDroppingPacketQueue := a.toDroppingArgs.make, qdelayRef := a.qdelayRef, maxBurst := a.maxBurst,
    random := a.random, lastUpdate := a.created }

/-- What `get_packet_queue` is told to make, with its arguments. -/
inductive QueueArgs where
  | infinite
  | dropTail (a : DroppingArgs)
  | dropHead (a : DroppingArgs)
  | codel (a : CodelArgs)
  | pie (a : PieArgs)
  | dropBitrateDequeue (a : DroppingArgs)
  | dropActiveNet (a : DroppingArgs)

/-! ### The virtual calls -/

/-- A packet queue of one of the seven types. -/
inductive Discipline where
  | infinite (q : InfinitePacketQueue)
  | dropTail (q : DropTailPacketQueue)
  | dropHead (q : DropHeadPacketQueue)
  | codel (q : CODELPacketQueue)
  | pie (q : PIEPacketQueue)
  | dropBitrateDequeue (q : DropBitrateDequeueQueue)
  | dropActiveNet (q : DropActiveNetQueue)

/-- The queue that is made.  It is empty, and its counters are zero. -/
def QueueArgs.make : QueueArgs → Discipline
  | .infinite => .infinite {}
  | .dropTail a => .dropTail ⟨a.make⟩
  | .dropHead a => .dropHead ⟨a.make⟩
  | .codel a => .codel a.make
  | .pie a => .pie a.make
  | .dropBitrateDequeue a => .dropBitrateDequeue
      (DropBitrateDequeueQueue.ofArgs a.packetLimit a.byteLimit a.logFd a.bandwidth)
  | .dropActiveNet a => .dropActiveNet { toDroppingPacketQueue := a.make }

namespace Discipline

/-- `internal_queue_`, with its two counters. -/
def counted : Discipline → CountedQueue
  | .infinite q => q.toCountedQueue
  | .dropTail q => q.toCountedQueue
  | .dropHead q => q.toCountedQueue
  | .codel q => q.toCountedQueue
  | .pie q => q.toCountedQueue
  | .dropBitrateDequeue q => q.toCountedQueue
  | .dropActiveNet q => q.toCountedQueue

/-- Every discipline enqueues in its own way. -/
def enqueue (ts : Nat) (p : QueuedPacket) : Discipline → Except Fault Discipline
  | .infinite q => (AbstractPacketQueue.enqueue ts p q).map .infinite
  | .dropTail q => (AbstractPacketQueue.enqueue ts p q).map .dropTail
  | .dropHead q => (AbstractPacketQueue.enqueue ts p q).map .dropHead
  | .codel q => (AbstractPacketQueue.enqueue ts p q).map .codel
  | .pie q => (AbstractPacketQueue.enqueue ts p q).map .pie
  | .dropBitrateDequeue q => (AbstractPacketQueue.enqueue ts p q).map .dropBitrateDequeue
  | .dropActiveNet q => (AbstractPacketQueue.enqueue ts p q).map .dropActiveNet

/-- `clock i` is the `i`-th clock reading of the call: `DropBitrateDequeueQueue` makes one for every
packet it takes off, `PIEPacketQueue` two. -/
def dequeue (clock : Nat → Nat) : Discipline → Except Fault (QueuedPacket × Discipline)
  | .infinite q => (AbstractPacketQueue.dequeue (clock 0) q).map (Prod.map id .infinite)
  | .dropTail q => (AbstractPacketQueue.dequeue (clock 0) q).map (Prod.map id .dropTail)
  | .dropHead q => (AbstractPacketQueue.dequeue (clock 0) q).map (Prod.map id .dropHead)
  | .codel q => (AbstractPacketQueue.dequeue (clock 0) q).map (Prod.map id .codel)
  | .pie q => (q.dequeue (clock 0) (clock 1)).map (Prod.map id .pie)
  | .dropBitrateDequeue q => (q.dequeue clock).map (Prod.map id .dropBitrateDequeue)
  | .dropActiveNet q => (AbstractPacketQueue.dequeue (clock 0) q).map (Prod.map id .dropActiveNet)

/-- Every discipline is told the bandwidth. -/
def setBandwidth (bandwidth : Nat) : Discipline → Discipline
  | .infinite q => .infinite (AbstractPacketQueue.setBandwidth bandwidth q)
  | .dropTail q => .dropTail (AbstractPacketQueue.setBandwidth bandwidth q)
  | .dropHead q => .dropHead (AbstractPacketQueue.setBandwidth bandwidth q)
  | .codel q => .codel (AbstractPacketQueue.setBandwidth bandwidth q)
  | .pie q => .pie (AbstractPacketQueue.setBandwidth bandwidth q)
  | .dropBitrateDequeue q => .dropBitrateDequeue (AbstractPacketQueue.setBandwidth bandwidth q)
  | .dropActiveNet q => .dropActiveNet (AbstractPacketQueue.setBandwidth bandwidth q)

/-- `empty`, `size_bytes` and `size_packets` are the same in all classes. -/
instance : AbstractPacketQueue Discipline where
  enqueue := enqueue
  dequeue ts := dequeue fun _ => ts
  empty q := q.counted.empty
  sizeBytes q := q.counted.sizeBytes
  sizePackets q := q.counted.sizePackets
  setBandwidth := setBandwidth

/-- The packets that are queued, whichever the discipline. -/
def internalQueue (q : Discipline) : List QueuedPacket := q.counted.internalQueue

/-- A queue is made with counters that are right. -/
theorem counted_make (a : QueueArgs) : a.make.counted = {} := by cases a <;> rfl

/-- Whether a packet that is enqueued now is accepted. -/
def accepts (ts : Nat) (p : QueuedPacket) : Discipline → Bool
  | .infinite q => InfinitePacketQueue.fifo.accepts ts p q
  | .dropTail q => DropTailPacketQueue.fifo.accepts ts p q
  | .dropHead q => DropHeadPacketQueue.fifo.accepts ts p q
  | .codel q => CODELPacketQueue.fifo.accepts ts p q
  | .pie q => PIEPacketQueue.fifo.accepts ts p q
  | .dropBitrateDequeue q => DropBitrateDequeueQueue.fifo.accepts ts p q
  | .dropActiveNet q => DropActiveNetQueue.fifo.accepts ts p q

section

variable {Q : Type} [AbstractPacketQueue Q] (F : FifoQueue Q) (mk : Q → Discipline)

/-- A virtual `enqueue` does what the class's own does. -/
theorem offered_of_class (hmk : ∀ q, (mk q).counted = F.counted q) {ts : Nat} {p : QueuedPacket}
    {q : Q} {q' : Discipline} (h : (AbstractPacketQueue.enqueue ts p q).map mk = .ok q') :
    CountedQueue.Offered (F.accepts ts p q) p (F.counted q) q'.counted := by
  obtain ⟨q₁, h₁, rfl⟩ := of_map_ok h
  rw [hmk]
  exact F.enqueue_ok h₁

/-- A virtual `dequeue` takes what the class's own does. -/
theorem yields_of_class {x : Except Fault (QueuedPacket × Q)} {c : CountedQueue}
    (hmk : ∀ q, (mk q).counted = F.counted q)
    (hx : ∀ {p q}, x = .ok (p, q) → c.Yields p (F.counted q)) {p : QueuedPacket}
    {q' : Discipline} (h : x.map (Prod.map id mk) = .ok (p, q')) : c.Yields p q'.counted := by
  obtain ⟨⟨p₁, q₁⟩, h₁, hq⟩ := of_map_ok h
  cases hq
  rw [hmk]
  exact hx h₁

end

/-- An enqueue of any discipline accepts the packet at the end or leaves it, and keeps the order of
the others. -/
theorem enqueue_offered {ts : Nat} {p : QueuedPacket} {q q' : Discipline}
    (h : q.enqueue ts p = .ok q') :
    CountedQueue.Offered (q.accepts ts p) p q.counted q'.counted := by
  cases q with
  | infinite q => exact offered_of_class InfinitePacketQueue.fifo .infinite (fun _ => rfl) h
  | dropTail q => exact offered_of_class DropTailPacketQueue.fifo .dropTail (fun _ => rfl) h
  | dropHead q => exact offered_of_class DropHeadPacketQueue.fifo .dropHead (fun _ => rfl) h
  | codel q => exact offered_of_class CODELPacketQueue.fifo .codel (fun _ => rfl) h
  | pie q => exact offered_of_class PIEPacketQueue.fifo .pie (fun _ => rfl) h
  | dropBitrateDequeue q =>
      exact offered_of_class DropBitrateDequeueQueue.fifo .dropBitrateDequeue (fun _ => rfl) h
  | dropActiveNet q => exact offered_of_class DropActiveNetQueue.fifo .dropActiveNet (fun _ => rfl) h

/-- A dequeue of any discipline takes a packet that is held and discards only packets before it. -/
theorem dequeue_yields {clock : Nat → Nat} {p : QueuedPacket} {q q' : Discipline}
    (h : q.dequeue clock = .ok (p, q')) : q.counted.Yields p q'.counted := by
  cases q with
  | infinite q =>
      exact yields_of_class InfinitePacketQueue.fifo .infinite (fun _ => rfl)
        InfinitePacketQueue.fifo.dequeue_ok h
  | dropTail q =>
      exact yields_of_class DropTailPacketQueue.fifo .dropTail (fun _ => rfl)
        DropTailPacketQueue.fifo.dequeue_ok h
  | dropHead q =>
      exact yields_of_class DropHeadPacketQueue.fifo .dropHead (fun _ => rfl)
        DropHeadPacketQueue.fifo.dequeue_ok h
  | codel q =>
      exact yields_of_class CODELPacketQueue.fifo .codel (fun _ => rfl)
        CODELPacketQueue.fifo.dequeue_ok h
  | pie q =>
      exact yields_of_class PIEPacketQueue.fifo .pie (fun _ => rfl)
        (fun hd => DroppingPacketQueue.dequeue_yields (PIEPacketQueue.dequeue_base hd)) h
  | dropBitrateDequeue q =>
      exact yields_of_class DropBitrateDequeueQueue.fifo .dropBitrateDequeue
        (fun _ => rfl) DropBitrateDequeueQueue.dequeue_yields h
  | dropActiveNet q =>
      exact yields_of_class DropActiveNetQueue.fifo .dropActiveNet (fun _ => rfl)
        DropActiveNetQueue.fifo.dequeue_ok h

/-- The seven disciplines as one first-in-first-out queue. -/
def fifo : FifoQueue Discipline where
  counted := counted
  accepts := accepts
  sizeBytes_eq _ := rfl
  sizePackets_eq _ := rfl
  empty_eq _ := rfl
  enqueue_ok h := enqueue_offered h
  dequeue_ok h := dequeue_yields h
  setBandwidth_eq _ q := by cases q <;> rfl

end Discipline

end Mahimahi
