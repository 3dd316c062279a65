import Mahimahi.Packet.Dropping

/-!
# Packet — `DropActiveNetQueue`

A packet that is not UDP is accepted as it comes.  A UDP packet of priority 1 that does not fit
first purges the queue of older messages of lower importance (`dropStaleFrames`).
-/

open Fallible MachineInt

namespace Mahimahi

/-- A UDP packet of priority 1 that does not fit makes this queue drop the packets of older messages
of a lesser priority. -/
structure DropActiveNetQueue extends DroppingPacketQueue where
  msgInDrop : Int := -1
  deriving DecidableEq, Repr

namespace DropActiveNetQueue

/-- A guarded log line that prints `size_packets()`. -/
def logPackets (s : DropActiveNetQueue) : Except Fault Unit :=
  if s.logFd then do
    let _ ← s.sizePackets
    fprintf s.logFd
  else return ()

theorem logPackets_faults (s : DropActiveNetQueue) :
    Ensures (· = .sizePackets) (fun _ => True) s.logPackets := by
  unfold logPackets
  split
  next hlog =>
    refine s.sizePackets_faults.bind fun _ _ => ?_
    rw [hlog]
    trivial
  · trivial

/-- The counters without `p`. -/
def discount (p : QueuedPacket) (s : DropActiveNetQueue) : DropActiveNetQueue :=
  { s with queueSizeInBytes := toI32 (s.queueSizeInBytes - p.size)
           queueSizeInPackets := toI32 (s.queueSizeInPackets - 1) }

/-- The loop of `dropStaleFrames` over the packets from its iterator on.  It returns how many it
erased, those it leaves, and the queue with `msg_in_drop_` and the counters brought up to date. -/
def dropStaleLoop (toDrop : Nat) (dropperMsg : Int) :
    List QueuedPacket → DropActiveNetQueue →
      Except Fault (Nat × List QueuedPacket × DropActiveNetQueue)
  | [], s => .ok (0, [], s)
  | p :: rest, s => do
      let header ← PacketHeader.ofPayload p.contents
      if (toDrop ≤ header.priority.val ∧ header.msgNo < dropperMsg) ∧
          (header.pktPos = .first ∨ header.pktPos = .solo) then
        let s := { s with msgInDrop := header.msgNo }.discount p
        -- this line is not guarded by `if ( log_fd_ )`
        fprintf s.logFd
        let (dropped, kept, s) ← dropStaleLoop toDrop dropperMsg rest s
        return (dropped + 1, kept, s)
      else if s.msgInDrop = header.msgNo then
        let (dropped, kept, s) ← dropStaleLoop toDrop dropperMsg rest (s.discount p)
        return (dropped + 1, kept, s)
      else
        let (dropped, kept, s) ← dropStaleLoop toDrop dropperMsg rest s
        return (dropped, p :: kept, s)

/-- A pass over the whole queue, which leaves the packets of messages that are still of use. -/
def dropStaleFrames (toDrop : Nat) (dropperMsg : Int) (s : DropActiveNetQueue) :
    Except Fault (Nat × DropActiveNetQueue) := do
  let (dropped, kept, s) ← dropStaleLoop toDrop dropperMsg s.internalQueue s
  return (dropped, { s with internalQueue := kept })

def accept (p : QueuedPacket) (s : DropActiveNetQueue) : DropActiveNetQueue :=
  { s with toDroppingPacketQueue := s.toDroppingPacketQueue.accept p }

/-- The first test of `enqueue` for a UDP packet, and the purge. -/
def makeRoom (p : QueuedPacket) (header : PacketHeader) (s : DropActiveNetQueue) :
    Except Fault DropActiveNetQueue := do
  if ← s.fits p then return s
  else if header.priority.val = 1 then
    let (_, s) ← s.dropStaleFrames 2 header.msgNo
    return s
  else return s

/-- Only UDP packets are held to the limits; any other packet is accepted. -/
def enqueue (p : QueuedPacket) (s : DropActiveNetQueue) : Except Fault DropActiveNetQueue := do
  let header ← PacketHeader.ofPayload p.contents
  if header.isUdp then
    let s ← s.makeRoom p header
    if ← s.fits p then
      let s := s.accept p
      s.logPackets
      return s
    else
      s.logPackets
      return s
  else return s.accept p

/-- The line of the log is for UDP packets, and the limits are asserted behind every packet. -/
def dequeue (s : DropActiveNetQueue) : Except Fault (QueuedPacket × DropActiveNetQueue) := do
  let (ret, q) ← s.popFront
  let header ← PacketHeader.ofPayload ret.contents
  -- the line prints the packet count from before
  if header.isUdp then s.logPackets
  let s := { s with toDroppingPacketQueue := q }
  s.assertGood
  return (ret, s)

instance : AbstractPacketQueue DropActiveNetQueue where
  enqueue _ p s := s.enqueue p
  dequeue _ s := s.dequeue
  empty s := s.empty
  sizeBytes s := s.sizeBytes
  sizePackets s := s.sizePackets
  setBandwidth bandwidth s :=
    { s with toDroppingPacketQueue := s.toDroppingPacketQueue.setBandwidth bandwidth }

end DropActiveNetQueue

end Mahimahi
