import Mahimahi.Packet.Dropping

/-!
# Packet — `DropTailPacketQueue` and `DropHeadPacketQueue`

The two disciplines that drop only in `enqueue`: one refuses the packet that does not fit, the other
takes it and removes packets from the front.  Both inherit `DroppingPacketQueue::dequeue`.
-/

open Fallible

namespace Mahimahi

/-- Drop tail: a packet that does not fit is dropped. -/
structure DropTailPacketQueue extends DroppingPacketQueue where
  deriving DecidableEq, Repr

namespace DropTailPacketQueue

/-- A packet that does not fit is logged and dropped. -/
def enqueue (p : QueuedPacket) (s : DropTailPacketQueue) : Except Fault DropTailPacketQueue := do
  let _ ← PacketHeader.ofPayload p.contents
  s.logLine
  if ← s.fits p then
    let s : DropTailPacketQueue := ⟨s.toDroppingPacketQueue.accept p⟩
    s.assertGood
    return s
  else
    s.logLine
    s.assertGood
    return s

instance : AbstractPacketQueue DropTailPacketQueue where
  enqueue _ p s := s.enqueue p
  dequeue _ s := do
    let (p, q) ← s.toDroppingPacketQueue.dequeue
    return (p, ⟨q⟩)
  empty s := s.empty
  sizeBytes s := s.sizeBytes
  sizePackets s := s.sizePackets
  setBandwidth bandwidth s := ⟨s.toDroppingPacketQueue.setBandwidth bandwidth⟩

end DropTailPacketQueue

/-- Drop head: packets are dropped at the head for one that comes. -/
structure DropHeadPacketQueue extends DroppingPacketQueue where
  deriving DecidableEq, Repr

namespace DropHeadPacketQueue

/-- `while ( not good() ) dequeue();`.  Every iteration takes a packet off, so the queue's length is
fuel enough. -/
def dropHead : Nat → DroppingPacketQueue → Except Fault DroppingPacketQueue
  | 0, q => .ok q
  | fuel + 1, q => do
      let bytes ← q.sizeBytes
      let packets ← q.sizePackets
      if q.goodWith bytes packets then return q
      else
        let (_, q) ← q.dequeue
        dropHead fuel q

/-- Every packet is accepted; then packets are dropped at the head as long as the limits are
exceeded. -/
def enqueue (p : QueuedPacket) (s : DropHeadPacketQueue) : Except Fault DropHeadPacketQueue := do
  let q := s.toDroppingPacketQueue.accept p
  let q ← dropHead (q.internalQueue.length + 1) q
  return ⟨q⟩

instance : AbstractPacketQueue DropHeadPacketQueue where
  enqueue _ p s := s.enqueue p
  dequeue _ s := do
    let (p, q) ← s.toDroppingPacketQueue.dequeue
    return (p, ⟨q⟩)
  empty s := s.empty
  sizeBytes s := s.sizeBytes
  sizePackets s := s.sizePackets
  setBandwidth bandwidth s := ⟨s.toDroppingPacketQueue.setBandwidth bandwidth⟩

end DropHeadPacketQueue

end Mahimahi
