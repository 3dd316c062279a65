import Mahimahi.Library.Integers
import Mahimahi.Packet.Header

/-!
# Packet — the queues' interface, the infinite queue, the dropping queues' base

`AbstractPacketQueue` is the interface a link sees.  `CountedQueue` is the packet list and the two
`int` counters that `InfinitePacketQueue` and `DroppingPacketQueue` both keep by hand: `push` and
`pop` change list and counters together, so the counters are the list's totals modulo 2³²
(`Counted`).  A size that reads negative is a failed assertion.
-/

open Fallible MachineInt

namespace Mahimahi

/-- The virtual functions of a packet queue.  `enqueue` and `dequeue` are given what `timestamp()`
reads during the call. -/
class AbstractPacketQueue (Q : Type) where
  enqueue : Nat → QueuedPacket → Q → Except Fault Q
  dequeue : Nat → Q → Except Fault (QueuedPacket × Q)
  empty : Q → Bool
  sizeBytes : Q → Except Fault Nat
  sizePackets : Q → Except Fault Nat
  setBandwidth : Nat → Q → Q

/-- The bytes of a packet, with its packet information. -/
def QueuedPacket.size (p : QueuedPacket) : Nat := p.contents.length

/-- The bytes of some packets together. -/
def totalBytes (ps : List QueuedPacket) : Nat := (ps.map QueuedPacket.size).sum

@[simp] theorem totalBytes_nil : totalBytes [] = 0 := rfl

@[simp] theorem totalBytes_cons (p : QueuedPacket) (ps : List QueuedPacket) :
    totalBytes (p :: ps) = p.size + totalBytes ps := by simp [totalBytes]

@[simp] theorem totalBytes_append (ps qs : List QueuedPacket) :
    totalBytes (ps ++ qs) = totalBytes ps + totalBytes qs := by simp [totalBytes]

/-- Packets that are not empty are no more than their bytes. -/
theorem length_le_totalBytes {ps : List QueuedPacket} (h : ∀ p ∈ ps, 1 ≤ p.size) :
    ps.length ≤ totalBytes ps := by
  induction ps with
  | nil => simp
  | cons p ps ih =>
      have hp := h p (by simp)
      have := ih fun q hq => h q (by simp [hq])
      simp only [List.length_cons, totalBytes_cons]
      omega

/-! ### The list and its counters -/

/-- The packets that are queued, and the two counters that are kept beside them. -/
structure CountedQueue where
  queueSizeInBytes : Int := 0
  queueSizeInPackets : Int := 0
  internalQueue : List QueuedPacket := []
  deriving DecidableEq, Repr

namespace CountedQueue

/-- `DroppingPacketQueue::accept`, and the body of `InfinitePacketQueue::enqueue`. -/
def push (p : QueuedPacket) (q : CountedQueue) : CountedQueue where
  queueSizeInBytes := toI32 (q.queueSizeInBytes + p.size)
  queueSizeInPackets := toI32 (q.queueSizeInPackets + 1)
  internalQueue := q.internalQueue ++ [p]

/-- `front()`, `pop_front()` and the two subtractions that every dequeue makes. -/
def pop (q : CountedQueue) : Except Fault (QueuedPacket × CountedQueue) :=
  match q.internalQueue with
  | [] => .error .emptyQueue
  | p :: rest =>
      .ok (p, { queueSizeInBytes := toI32 (q.queueSizeInBytes - p.size)
                queueSizeInPackets := toI32 (q.queueSizeInPackets - 1)
                internalQueue := rest })

/-- The bytes queued, by the counter; the assertion is that it is not negative as an `int`. -/
def sizeBytes (q : CountedQueue) : Except Fault Nat :=
  if 0 ≤ q.queueSizeInBytes then .ok q.queueSizeInBytes.toNat else .error .sizeBytes

/-- The packets queued, by the counter, with the same assertion. -/
def sizePackets (q : CountedQueue) : Except Fault Nat :=
  if 0 ≤ q.queueSizeInPackets then .ok q.queueSizeInPackets.toNat else .error .sizePackets

/-- The queue is empty when its list of packets is, whatever the counters say. -/
def empty (q : CountedQueue) : Bool := q.internalQueue.isEmpty

/-- The counters are the list's totals, as an `int` holds them. -/
structure Counted (q : CountedQueue) : Prop where
  bytes : q.queueSizeInBytes = toI32 (totalBytes q.internalQueue)
  packets : q.queueSizeInPackets = toI32 q.internalQueue.length

theorem sizeBytes_faults (q : CountedQueue) :
    Ensures (· = .sizeBytes) (fun _ => True) q.sizeBytes := by
  unfold sizeBytes
  split
  · trivial
  · rfl

theorem sizePackets_faults (q : CountedQueue) :
    Ensures (· = .sizePackets) (fun _ => True) q.sizePackets := by
  unfold sizePackets
  split
  · trivial
  · rfl

theorem pop_faults (q : CountedQueue) : Ensures (· = .emptyQueue) (fun _ => True) q.pop := by
  unfold pop
  split
  · rfl
  · trivial

theorem counted_nil : Counted {} := ⟨by decide, by decide⟩

@[simp] theorem push_internalQueue (p : QueuedPacket) (q : CountedQueue) :
    (q.push p).internalQueue = q.internalQueue ++ [p] := rfl

/-- Adding a packet keeps the counters right. -/
theorem Counted.push {q : CountedQueue} (h : Counted q) (p : QueuedPacket) :
    Counted (q.push p) where
  bytes := by simp [CountedQueue.push, h.bytes, toI32_add]
  packets := by simp [CountedQueue.push, h.packets, toI32_add]

/-- Taking a packet, when the queue is known. -/
theorem pop_cons {q : CountedQueue} {p : QueuedPacket} {rest : List QueuedPacket}
    (h : q.internalQueue = p :: rest) :
    q.pop = .ok (p, { queueSizeInBytes := toI32 (q.queueSizeInBytes - p.size)
                      queueSizeInPackets := toI32 (q.queueSizeInPackets - 1)
                      internalQueue := rest }) := by
  simp [pop, h]

/-- What a pop that returns has done. -/
theorem pop_ok {q q' : CountedQueue} {p : QueuedPacket} (h : q.pop = .ok (p, q')) :
    q.internalQueue = p :: q'.internalQueue ∧ (Counted q → Counted q') := by
  match hq : q.internalQueue with
  | [] => simp [pop, hq] at h
  | p₀ :: rest =>
      rw [pop_cons hq] at h
      cases h
      refine ⟨rfl, fun hc => ⟨?_, ?_⟩⟩
      · simp only [hc.bytes, hq, toI32_sub, totalBytes_cons]
        congr 1; omega
      · simp only [hc.packets, hq, toI32_sub, List.length_cons]
        congr 1; omega

/-- The counter is read where it is not negative, as an `unsigned int`. -/
theorem Counted.sizeBytes_ok_iff {q : CountedQueue} (h : Counted q) {bytes : Nat} :
    q.sizeBytes = .ok bytes ↔
      0 ≤ toI32 (totalBytes q.internalQueue) ∧ bytes = toU32 (totalBytes q.internalQueue) := by
  rw [sizeBytes, h.bytes]
  split
  next hpos =>
    rw [toI32_toNat hpos, Except.ok.injEq]
    exact ⟨fun h => ⟨hpos, h.symm⟩, fun h => h.2.symm⟩
  next hneg => exact iff_of_false (fun h => by cases h) fun h => hneg h.1

/-- The counter of packets is read when the packets, as an `int`, are not negative. -/
theorem Counted.sizePackets_ok_iff {q : CountedQueue} (h : Counted q) {packets : Nat} :
    q.sizePackets = .ok packets ↔
      0 ≤ toI32 q.internalQueue.length ∧ packets = toU32 q.internalQueue.length := by
  rw [sizePackets, h.packets]
  split
  next hpos =>
    rw [toI32_toNat hpos, Except.ok.injEq]
    exact ⟨fun h => ⟨hpos, h.symm⟩, fun h => h.2.symm⟩
  next hneg => exact iff_of_false (fun h => by cases h) fun h => hneg h.1

/-- Below 2³¹ bytes the byte count is the list's. -/
theorem Counted.sizeBytes_eq {q : CountedQueue} (h : Counted q)
    (hlt : totalBytes q.internalQueue < 2 ^ 31) : q.sizeBytes = .ok (totalBytes q.internalQueue) := by
  have hb : q.queueSizeInBytes = (totalBytes q.internalQueue : Int) := by
    rw [h.bytes, toI32_of_range (by omega) (by exact_mod_cast hlt)]
  simp [sizeBytes, hb]

/-- Below 2³¹ packets, the counter is their number. -/
theorem Counted.sizePackets_eq {q : CountedQueue} (h : Counted q)
    (hlt : q.internalQueue.length < 2 ^ 31) : q.sizePackets = .ok q.internalQueue.length := by
  have hb : q.queueSizeInPackets = (q.internalQueue.length : Int) := by
    rw [h.packets, toI32_of_range (by omega) (by exact_mod_cast hlt)]
  simp [sizePackets, hb]

/-- A byte count that can be read is the list's, unless it is off by 2³². -/
theorem Counted.sizeBytes_of_ok {c : CountedQueue} {bytes : Nat} (hc : c.Counted)
    (hlt : totalBytes c.internalQueue < 2 ^ 32) (h : c.sizeBytes = .ok bytes) :
    totalBytes c.internalQueue < 2 ^ 31 ∧ bytes = totalBytes c.internalQueue := by
  have hsmall : totalBytes c.internalQueue < 2 ^ 31 := by
    by_contra hge
    -- from 2³¹ on the `int` is negative, and the assertion of `size_bytes` fails
    have hneg : c.queueSizeInBytes < 0 := by
      rw [hc.bytes, toI32, Int.bmod_def]
      split <;> omega
    rw [sizeBytes, if_neg (by omega)] at h
    cases h
  refine ⟨hsmall, ?_⟩
  cases (hc.sizeBytes_eq hsmall).symm.trans h
  rfl

/-- The same of the packets. -/
theorem Counted.sizePackets_of_ok {c : CountedQueue} {packets : Nat} (hc : c.Counted)
    (hlt : c.internalQueue.length < 2 ^ 32) (h : c.sizePackets = .ok packets) :
    packets = c.internalQueue.length := by
  have hsmall : c.internalQueue.length < 2 ^ 31 := by
    by_contra hge
    have hneg : c.queueSizeInPackets < 0 := by
      rw [hc.packets, toI32, Int.bmod_def]
      split <;> omega
    rw [sizePackets, if_neg (by omega)] at h
    cases h
  cases (hc.sizePackets_eq hsmall).symm.trans h
  rfl

end CountedQueue

/-! ### The infinite queue -/

/-- The queue without limits. -/
structure InfinitePacketQueue extends CountedQueue where
  deriving DecidableEq, Repr

namespace InfinitePacketQueue

/-- Every packet is accepted. -/
def enqueue (p : QueuedPacket) (q : InfinitePacketQueue) : InfinitePacketQueue :=
  ⟨q.toCountedQueue.push p⟩

def dequeue (q : InfinitePacketQueue) : Except Fault (QueuedPacket × InfinitePacketQueue) := do
  let (p, q) ← q.toCountedQueue.pop
  return (p, ⟨q⟩)

instance : AbstractPacketQueue InfinitePacketQueue where
  enqueue _ p q := .ok (q.enqueue p)
  dequeue _ q := q.dequeue
  empty q := q.empty
  sizeBytes q := q.sizeBytes
  sizePackets q := q.sizePackets
  setBandwidth _ q := q

end InfinitePacketQueue

/-! ### The dropping queues' base -/

/-- A queue with a limit on bytes and one on packets, of which zero means none. -/
structure DroppingPacketQueue extends CountedQueue where
  packetLimit : Nat
  byteLimit : Nat
  /-- whether `log_fd_` is a handle -/
  logFd : Bool
  /-- uninitialised until the first `set_bandwidth` -/
  bandwidth : Nat
  deriving DecidableEq, Repr

/-- `fprintf` to a log handle. -/
def fprintf (logFd : Bool) : Except Fault Unit := if logFd then .ok () else .error .nullLog

namespace DroppingPacketQueue

/-- So many bytes and packets are within both limits. -/
def goodWith (q : DroppingPacketQueue) (sizeInBytes sizeInPackets : Nat) : Bool :=
  (q.byteLimit == 0 || decide (sizeInBytes ≤ q.byteLimit)) &&
    (q.packetLimit == 0 || decide (sizeInPackets ≤ q.packetLimit))

/-- `assert( good() )` -/
def assertGood (q : DroppingPacketQueue) : Except Fault Unit := do
  let bytes ← q.sizeBytes
  let packets ← q.sizePackets
  if q.goodWith bytes packets then return () else throw .notGood

/-- `good_with( size_bytes() + p.contents.size(), size_packets() + 1 )`, whose arguments are
`unsigned int`. -/
def fits (q : DroppingPacketQueue) (p : QueuedPacket) : Except Fault Bool := do
  let bytes ← q.sizeBytes
  let packets ← q.sizePackets
  return q.goodWith (toU32 (bytes + p.size)) (toU32 (packets + 1))

/-- A guarded log line, which evaluates `size_bytes()` among its arguments. -/
def logLine (q : DroppingPacketQueue) : Except Fault Unit :=
  if q.logFd then do
    let _ ← q.sizeBytes
    fprintf q.logFd
  else return ()

def accept (p : QueuedPacket) (q : DroppingPacketQueue) : DroppingPacketQueue :=
  { q with toCountedQueue := q.toCountedQueue.push p }

/-- The first packet is taken, without the check that follows in `dequeue`. -/
def popFront (q : DroppingPacketQueue) : Except Fault (QueuedPacket × DroppingPacketQueue) := do
  let (p, c) ← q.toCountedQueue.pop
  return (p, { q with toCountedQueue := c })

/-- `DroppingPacketQueue::dequeue`.  The log line prints the byte count from before. -/
def dequeue (q : DroppingPacketQueue) : Except Fault (QueuedPacket × DroppingPacketQueue) := do
  let (p, q') ← q.popFront
  if q.logFd then
    let _ ← PacketHeader.ofPayload p.contents
    q.logLine
  q'.assertGood
  return (p, q')

/-- The link tells the queue its bandwidth; most disciplines make no use of it. -/
def setBandwidth (bandwidth : Nat) (q : DroppingPacketQueue) : DroppingPacketQueue :=
  { q with bandwidth }

/-- What the functions above can fault with. -/
theorem assertGood_faults (q : DroppingPacketQueue) :
    Ensures (· ∈ [.sizeBytes, .sizePackets, .notGood]) (fun _ => True) q.assertGood := by
  refine (q.sizeBytes_faults.mono_fault (by decide)).bind fun _ _ => ?_
  refine (q.sizePackets_faults.mono_fault (by decide)).bind fun _ _ => ?_
  split
  · trivial
  · exact (by decide : Fault.notGood ∈ [.sizeBytes, .sizePackets, .notGood])

theorem fits_faults (q : DroppingPacketQueue) (p : QueuedPacket) :
    Ensures (· ∈ [.sizeBytes, .sizePackets]) (fun _ => True) (q.fits p) :=
  (q.sizeBytes_faults.mono_fault (by decide)).bind fun _ _ =>
    (q.sizePackets_faults.mono_fault (by decide)).bind fun _ _ => trivial

theorem logLine_faults (q : DroppingPacketQueue) :
    Ensures (· = .sizeBytes) (fun _ => True) q.logLine := by
  unfold logLine
  split
  next hlog =>
    refine q.sizeBytes_faults.bind fun _ _ => ?_
    rw [hlog]
    trivial
  · trivial

theorem popFront_faults (q : DroppingPacketQueue) :
    Ensures (· = .emptyQueue) (fun _ => True) q.popFront :=
  q.pop_faults.bind fun _ _ => trivial

/-- Taking the first packet changes nothing but the packets and their counters. -/
theorem popFront_ok {q q' : DroppingPacketQueue} {p : QueuedPacket} (h : q.popFront = .ok (p, q')) :
    ∃ c, q.toCountedQueue.pop = .ok (p, c) ∧ q' = { q with toCountedQueue := c } := by
  obtain ⟨⟨p₀, c⟩, hpop, hret⟩ := bind_ok.mp h
  cases hret
  exact ⟨c, hpop, rfl⟩

/-- A dequeue takes the first packet, and the limits hold of what is left. -/
theorem dequeue_ok {q q' : DroppingPacketQueue} {p : QueuedPacket} (h : q.dequeue = .ok (p, q')) :
    (∃ c, q.toCountedQueue.pop = .ok (p, c) ∧ q' = { q with toCountedQueue := c }) ∧
      q'.assertGood = .ok () := by
  obtain ⟨⟨p₀, q₁⟩, hpop, h⟩ := bind_ok.mp h
  have hret : ∀ {x : Except Fault (QueuedPacket × DroppingPacketQueue)},
      x = (q₁.assertGood >>= fun _ => pure (p₀, q₁)) → x = .ok (p, q') →
      q₁.assertGood = .ok () ∧ p₀ = p ∧ q₁ = q' := by
    rintro x rfl h
    obtain ⟨⟨⟩, hgood, h⟩ := bind_ok.mp h
    cases h
    exact ⟨hgood, rfl, rfl⟩
  have hdone : q₁.assertGood = .ok () ∧ p₀ = p ∧ q₁ = q' := by
    dsimp only at h
    split at h
    · obtain ⟨-, -, h⟩ := bind_ok.mp h
      obtain ⟨-, -, h⟩ := bind_ok.mp h
      exact hret rfl h
    · exact hret rfl h
  obtain ⟨hgood, rfl, rfl⟩ := hdone
  exact ⟨popFront_ok hpop, hgood⟩

/-- A line of the log does not fail below 2³¹ bytes. -/
theorem logLine_ok {q : DroppingPacketQueue} (hc : q.Counted)
    (hlt : totalBytes q.internalQueue < 2 ^ 31) : q.logLine = .ok () := by
  unfold logLine
  cases q.logFd with
  | false => rfl
  | true => simp [hc.sizeBytes_eq hlt, fprintf]

/-- Whether a packet fits, in terms of the packets that are queued. -/
theorem fits_eq {q : DroppingPacketQueue} (hc : q.Counted)
    (hbytes : totalBytes q.internalQueue < 2 ^ 31) (hlen : q.internalQueue.length < 2 ^ 31)
    (p : QueuedPacket) : q.fits p = .ok (q.goodWith
      (toU32 (totalBytes q.internalQueue + p.size)) (toU32 (q.internalQueue.length + 1))) := by
  simp only [fits, hc.sizeBytes_eq hbytes, hc.sizePackets_eq hlen, ok_bind]
  rfl

/-- The limits that let a packet in let `assert( good() )` pass after it. -/
theorem assertGood_accept {q : DroppingPacketQueue} {p : QueuedPacket} (hc : q.Counted)
    (hbytes : totalBytes q.internalQueue + p.size < 2 ^ 31)
    (hlen : q.internalQueue.length + 1 < 2 ^ 31) (hfits : q.fits p = .ok true) :
    (q.accept p).assertGood = .ok () := by
  have hb : toU32 (totalBytes q.internalQueue + p.size) = totalBytes q.internalQueue + p.size := by
    rw [toU32_of_range (by omega) (by omega)]; omega
  have hl : toU32 (q.internalQueue.length + 1) = q.internalQueue.length + 1 := by
    rw [toU32_of_range (by omega) (by omega)]; omega
  have hgood : q.goodWith (totalBytes q.internalQueue + p.size) (q.internalQueue.length + 1) = true := by
    simpa [fits_eq hc (by omega) (by omega), hb, hl] using hfits
  have hc' : (q.accept p).Counted := hc.push p
  have hsum : totalBytes (q.accept p).internalQueue = totalBytes q.internalQueue + p.size := by
    simp [accept]
  have hcount : (q.accept p).internalQueue.length = q.internalQueue.length + 1 := by simp [accept]
  have hgood' : (q.accept p).goodWith (totalBytes q.internalQueue + p.size)
      (q.internalQueue.length + 1) = true := hgood
  simp only [assertGood, hc'.sizeBytes_eq (hsum ▸ hbytes), hc'.sizePackets_eq (hcount ▸ hlen), ok_bind,
    hsum, hcount, hgood', if_true]
  rfl

end DroppingPacketQueue

end Mahimahi
