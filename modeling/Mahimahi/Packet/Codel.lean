import Mahimahi.Packet.Dropping

/-!
# Packet — `CODELPacketQueue`

`dodequeue` takes the front packet and says whether the queue has been above the target for an
interval.  `dequeue` returns the packet of its first `dodequeue`; the packets of those it makes
while dropping are lost.

The double arithmetic of `control_law` is a parameter, `controlLaw t count`.
-/

open Fallible MachineInt

namespace Mahimahi

/-- CoDel: when packets have waited too long for an interval, it drops some of those that would
depart, at an increasing rate. -/
structure CODELPacketQueue extends DroppingPacketQueue where
  target : Nat
  interval : Nat
  /-- `control_law( t, count )` -/
  controlLaw : Nat → Nat → Nat
  firstAboveTime : Nat := 0
  dropNext : Nat := 0
  count : Nat := 0
  lastcount : Nat := 0
  dropping : Bool := false

namespace CODELPacketQueue

open DroppingPacketQueue

/-- The size of a full packet, with its packet information. -/
def PACKET_SIZE : Nat := 1504

/-- The log line of `enqueue` and of `dequeue`, with the header and the byte count it prints. -/
def logPacket (p : QueuedPacket) (s : CODELPacketQueue) : Except Fault Unit :=
  if s.logFd then do
    let _ ← PacketHeader.ofPayload p.contents
    let _ ← s.sizeBytes
    fprintf s.logFd
  else return ()

def enqueue (p : QueuedPacket) (s : CODELPacketQueue) : Except Fault CODELPacketQueue := do
  if ← s.fits p then
    s.logPacket p
    let s := { s with toDroppingPacketQueue := s.toDroppingPacketQueue.accept p }
    s.assertGood
    return s
  else
    s.assertGood
    return s

/-- Logging can fail where the header is read, and in the assertion of `size_bytes()`. -/
theorem logPacket_faults (p : QueuedPacket) (s : CODELPacketQueue) :
    Ensures (· ∈ [.readPastEnd, .sizeBytes]) (fun _ => True) (s.logPacket p) := by
  unfold logPacket
  split
  next hlog =>
    refine ((PacketHeader.ofPayload_faults _).mono_fault (by decide)).bind fun _ _ => ?_
    refine (s.sizeBytes_faults.mono_fault (by decide)).bind fun _ _ => ?_
    rw [hlog]
    trivial
  · trivial

/-- The packet taken, and `ok_to_drop`. -/
def dodequeue (now : Nat) (s : CODELPacketQueue) :
    Except Fault (QueuedPacket × Bool × CODELPacketQueue) := do
  let (p, q) ← s.popFront
  let s := { s with toDroppingPacketQueue := q }
  s.assertGood
  if s.empty then return (p, false, { s with firstAboveTime := 0 })
  else
    let sojournTime := toU64 (now - p.arrivalTime)
    let bytes ← s.sizeBytes
    if sojournTime < s.target ∨ bytes ≤ PACKET_SIZE then
      return (p, false, { s with firstAboveTime := 0 })
    else if s.firstAboveTime = 0 then
      return (p, false, { s with firstAboveTime := now + s.interval })
    else return (p, decide (s.firstAboveTime ≤ now), s)

/-- Taking a packet can only fail for an empty queue and in the assertions. -/
theorem dodequeue_faults (now : Nat) (s : CODELPacketQueue) :
    Ensures (· ∈ [.emptyQueue, .sizeBytes, .sizePackets, .notGood]) (fun _ => True)
      (s.dodequeue now) := by
  refine (s.popFront_faults.mono_fault (by decide)).bind fun _ _ => ?_
  refine ((assertGood_faults _).mono_error (by decide)).bind fun _ _ => ?_
  split
  · trivial
  · refine ((CountedQueue.sizeBytes_faults _).mono_fault (by decide)).bind fun _ _ => ?_
    repeat' split
    all_goals trivial

/-- The loop of the dropping state.  Every iteration takes a packet, so the queue's length is fuel
enough. -/
def dropLoop (now : Nat) : Nat → CODELPacketQueue → Except Fault CODELPacketQueue
  | 0, s => .ok s
  | fuel + 1, s =>
      if s.dropNext ≤ now ∧ s.dropping then do
        let (_, okToDrop, s) ← s.dodequeue now
        let s := { s with count := toU32 (s.count + 1) }
        if okToDrop then dropLoop now fuel { s with dropNext := s.controlLaw s.dropNext s.count }
        else dropLoop now fuel { s with dropping := false }
      else .ok s

/-- The two branches on `dropping_`, given `ok_to_drop` of the first `dodequeue`. -/
def drop (now : Nat) (okToDrop : Bool) (s : CODELPacketQueue) : Except Fault CODELPacketQueue :=
  if s.dropping then dropLoop now (s.internalQueue.length + 1) { s with dropping := okToDrop }
  else if okToDrop then do
    let (_, _, s) ← s.dodequeue now
    let delta := toU32 (s.count - s.lastcount)
    let count := if 1 < delta ∧ toU64 (now - s.dropNext) < toU32 (16 * s.interval) then delta else 1
    return { s with dropping := true, count, dropNext := s.controlLaw now count, lastcount := count }
  else return s

theorem dropLoop_faults {now fuel : Nat} : ∀ {s : CODELPacketQueue},
    Ensures (· ∈ [.emptyQueue, .sizeBytes, .sizePackets, .notGood]) (fun _ => True)
      (dropLoop now fuel s) := by
  induction fuel with
  | zero => exact trivial
  | succ fuel ih =>
      intro s
      rw [dropLoop]
      split
      · refine (s.dodequeue_faults now).bind fun (_, okToDrop, s₁) _ => ?_
        cases okToDrop with
        | true => exact ih
        | false => exact ih
      · trivial

theorem drop_faults (now : Nat) (okToDrop : Bool) (s : CODELPacketQueue) :
    Ensures (· ∈ [.emptyQueue, .sizeBytes, .sizePackets, .notGood]) (fun _ => True)
      (s.drop now okToDrop) := by
  unfold drop
  split
  · exact dropLoop_faults
  · split
    · exact (s.dodequeue_faults now).bind fun _ _ => trivial
    · trivial

/-- A packet is taken, and then others may be dropped behind it. -/
def dequeue (now : Nat) (s : CODELPacketQueue) : Except Fault (QueuedPacket × CODELPacketQueue) := do
  let (p, okToDrop, s) ← s.dodequeue now
  let s ← s.drop now okToDrop
  s.logPacket p
  return (p, s)

def setBandwidth (bandwidth : Nat) (s : CODELPacketQueue) : CODELPacketQueue :=
  { s with toDroppingPacketQueue := s.toDroppingPacketQueue.setBandwidth bandwidth }

instance : AbstractPacketQueue CODELPacketQueue where
  enqueue _ p s := s.enqueue p
  dequeue now s := s.dequeue now
  empty s := s.empty
  sizeBytes s := s.sizeBytes
  sizePackets s := s.sizePackets
  setBandwidth := setBandwidth

end CODELPacketQueue

end Mahimahi
