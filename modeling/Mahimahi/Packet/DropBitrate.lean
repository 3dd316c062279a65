import Mathlib.Data.List.FinRange
import Mathlib.Logic.Function.Basic
import Std.Data.TreeMap.Lemmas
import Mahimahi.Packet.Dropping

/-!
# Packet — `DropBitrateDequeueQueue`

The Octopus router queue.  `enqueue` tail-drops, and for an accepted Octopus packet it estimates
the port's arrival rate, counts the message's boundary packets in `frame_counter_`, and records
the number of a preempting message in `prio_to_droppers_`.  `dequeuefront` takes the front packet
off and marks it when its message is to be dropped; `dequeue` discards marked Octopus packets until
it finds one to return or the queue is empty.

`dequeuefront` is cut at the source's own paragraphs: `verdict` is the decision of lines 87–144,
`recordVerdict` what that decision writes, `countDeparture` lines 146–165.  A `Front` is one call
of `dequeuefront`: it is not in the source, and it is how a run remembers what was taken off.
-/

open Fallible MachineInt
open Std (TreeMap)

namespace Mahimahi

/-- When it dequeues, it drops the messages of a bit rate above the fair share of their flow and
those that a later message preempts. -/
structure DropBitrateDequeueQueue extends DroppingPacketQueue where
  frameCounter : TreeMap UInt16 (TreeMap Int Int) := ∅
  msgInDrop : TreeMap UInt16 Int := ∅
  prioToDroppers : TreeMap UInt16 (Fin 8 → Int) := ∅
  enqueueTrace : TreeMap UInt16 (List (Nat × Int)) := ∅
  enqueueRate : TreeMap UInt16 Int := ∅

namespace DropBitrateDequeueQueue

/-- The queue as its constructor leaves it. -/
def ofArgs (packetLimit byteLimit : Nat) (logFd : Bool) (bandwidth : Nat) :
    DropBitrateDequeueQueue := { packetLimit, byteLimit, logFd, bandwidth }

/-! ### `frame_counter_` -/

/-- `frame_counter_[dstport].find( msg_no )` -/
def count (s : DropBitrateDequeueQueue) (dstport : UInt16) (msgNo : Int) : Option Int :=
  (s.frameCounter.getD dstport ∅)[msgNo]?

/-- A counter gets a value, and the others keep theirs. -/
def setCount (s : DropBitrateDequeueQueue) (dstport : UInt16) (msgNo value : Int) :
    DropBitrateDequeueQueue :=
  { s with frameCounter :=
      s.frameCounter.insert dstport ((s.frameCounter.getD dstport ∅).insert msgNo value) }

/-- A counter is erased, and the others keep theirs. -/
def eraseCount (s : DropBitrateDequeueQueue) (dstport : UInt16) (msgNo : Int) :
    DropBitrateDequeueQueue :=
  { s with frameCounter :=
      s.frameCounter.insert dstport ((s.frameCounter.getD dstport ∅).erase msgNo) }

/-- What a lookup finds when a counter has been set. -/
theorem count_setCount (s : DropBitrateDequeueQueue) (d d' : UInt16) (m m' v : Int) :
    (s.setCount d m v).count d' m' = if d = d' ∧ m = m' then some v else s.count d' m' := by
  by_cases hd : d = d' <;> by_cases hm : m = m' <;>
    simp [count, setCount, TreeMap.getD_insert, TreeMap.getElem?_insert, hd, hm]

/-- What a lookup finds when a counter has been erased. -/
theorem count_eraseCount (s : DropBitrateDequeueQueue) (d d' : UInt16) (m m' : Int) :
    (s.eraseCount d m).count d' m' = if d = d' ∧ m = m' then none else s.count d' m' := by
  by_cases hd : d = d' <;> by_cases hm : m = m' <;>
    simp [count, eraseCount, TreeMap.getD_insert, TreeMap.getElem?_erase, hd, hm]

/-! ### `enqueue` -/

/-- Lines 27–37.  The loop's sum is lost: `bytes_sent =- …` assigns. -/
def recordRate (ts size : Nat) (dstport : UInt16) (s : DropBitrateDequeueQueue) :
    DropBitrateDequeueQueue :=
  let trace := s.enqueueTrace.getD dstport [] ++ [(ts, toI32 size)]
  let front := trace.headD (ts, toI32 size)
  let s := { s with enqueueTrace := s.enqueueTrace.insert dstport trace }
  if front.1 + 100 < ts then
    let bytesSent := -front.2
    -- `int * 8 / uint64_t`: the quotient is taken in 64 unsigned bits
    let rate := toI32 (toU64 (toI32 (bytesSent * 8)) / (ts - front.1))
    { s with enqueueRate := s.enqueueRate.insert dstport rate }
  else s

/-- Lines 48–57. -/
def countArrival (header : PacketHeader) (s : DropBitrateDequeueQueue) :
    Except Fault DropBitrateDequeueQueue :=
  match header.pktPos with
  | .first | .last =>
      match s.count header.dstport header.msgNo with
      | none => .ok (s.setCount header.dstport header.msgNo 1)
      | some c => .ok (s.setCount header.dstport header.msgNo (c + 1))
  | .solo =>
      if (s.count header.dstport header.msgNo).isSome then .error .soloCounted
      else .ok (s.setCount header.dstport header.msgNo 2)
  | .mid => .ok s

theorem countArrival_faults (header : PacketHeader) (s : DropBitrateDequeueQueue) :
    Ensures (· = .soloCounted) (fun _ => True) (s.countArrival header) := by
  unfold countArrival
  split
  · split
    · trivial
    · trivial
  · split
    · trivial
    · trivial
  · split
    · rfl
    · trivial
  · trivial

/-- Lines 58–70. -/
def recordDropper (header : PacketHeader) (s : DropBitrateDequeueQueue) :
    DropBitrateDequeueQueue :=
  if (header.pktPos = .last ∨ header.pktPos = .solo) ∧ header.isPreempt then
    let dropper := header.msgNo
    let prioThresh := header.priorityThreshold
    let droppers := s.prioToDroppers.getD header.dstport (fun _ => -1)
    let droppers := if droppers prioThresh < dropper
      then Function.update droppers prioThresh dropper else droppers
    { s with prioToDroppers := s.prioToDroppers.insert header.dstport droppers }
  else s

/-- An accepted packet is recorded: its rate, its place in its message, and what it drops. -/
def enqueue (ts : Nat) (p : QueuedPacket) (s : DropBitrateDequeueQueue) :
    Except Fault DropBitrateDequeueQueue := do
  if ← s.fits p then
    let header ← PacketHeader.ofPayload p.contents
    let s := { s with toDroppingPacketQueue := s.toDroppingPacketQueue.accept p }
    if header.isOctopus then
      let s := s.recordRate ts p.size header.dstport
      s.logLine
      let s ← s.countArrival header
      return s.recordDropper header
    else
      s.logLine
      s.assertGood
      return s
  else return s

/-! ### `dequeuefront` -/

/-- Lines 87–103, in `uint32_t` arithmetic. -/
def fairShare (s : DropBitrateDequeueQueue) (dstport : UInt16) : Nat :=
  let ownRate := toU32 (s.enqueueRate.getD dstport 0)
  let total := s.enqueueRate.foldl (fun peerRate _ rate => toU32 (peerRate + rate)) 0
  let peerRate := toU32 (total - ownRate)
  let half := s.bandwidth / 2
  if peerRate = 0 then s.bandwidth
  else if half ≤ peerRate ∧ half ≤ ownRate then half
  else if peerRate ≤ half ∧ ownRate ≤ half then half
  else if peerRate ≤ half ∧ half ≤ ownRate then s.bandwidth - peerRate
  else if half ≤ peerRate ∧ ownRate ≤ half then toU32 (ownRate + 500)
  else 0

/-- Lines 110–114: the largest entry at a threshold not above the packet's priority. -/
def latestDropper (s : DropBitrateDequeueQueue) (dstport : UInt16) (priority : Fin 8) : Int :=
  -- `prio_to_droppers_[dstport]` creates a missing entry, with zeros
  let droppers := s.prioToDroppers.getD dstport (fun _ => 0)
  ((List.finRange 8).filter (· ≤ priority)).foldl
    (fun latest i => if latest < droppers i then droppers i else latest) (-1)

/-- The outcomes of lines 106–144: the two drop rules, the carry-over to the rest of a message,
and no mark. -/
inductive Verdict where
  | bitrate
  | preempt
  | carried
  | keep
  deriving DecidableEq, Repr

def Verdict.drops (v : Verdict) : Bool := v != .keep

/-- One of the two rules drops the packet, and with it the rest of its message. -/
def Verdict.byRule (v : Verdict) : Bool := v == .bitrate || v == .preempt

/-- What becomes of the packet at the front.  The rules are for complete messages, whose counter is
2. -/
def verdict (ts : Nat) (pkt : QueuedPacket) (header : PacketHeader) (s : DropBitrateDequeueQueue) :
    Verdict :=
  if s.count header.dstport header.msgNo = some 2 then
    let sojournTime : Int := ts - pkt.arrivalTime
    if s.fairShare header.dstport < header.bitrate ∧ header.slackTime ≤ sojournTime then .bitrate
    else if header.msgNo < s.latestDropper header.dstport header.priority ∧
        header.slackTime ≤ sojournTime then .preempt
    else .keep
  else if header.msgNo = s.msgInDrop.getD header.dstport 0 then .carried
  else .keep

/-- What the branch taken writes to the maps. -/
def recordVerdict (v : Verdict) (header : PacketHeader) (s : DropBitrateDequeueQueue) :
    DropBitrateDequeueQueue :=
  let droppers := s.prioToDroppers.getD header.dstport (fun _ => 0)
  let s := if s.count header.dstport header.msgNo = some 2 then
      { s with prioToDroppers := s.prioToDroppers.insert header.dstport droppers }
    else s
  if v.byRule then { s with msgInDrop := s.msgInDrop.insert header.dstport header.msgNo } else s

/-- Lines 146–165. -/
def countDeparture (header : PacketHeader) (s : DropBitrateDequeueQueue) :
    Except Fault DropBitrateDequeueQueue :=
  match header.pktPos with
  | .first | .last =>
      match s.count header.dstport header.msgNo with
      | none => .error .outOfRange
      | some c =>
          if c - 1 = 0 then .ok (s.eraseCount header.dstport header.msgNo)
          else .ok (s.setCount header.dstport header.msgNo (c - 1))
  | .solo =>
      if s.count header.dstport header.msgNo = some 2 then
        .ok (s.eraseCount header.dstport header.msgNo)
      else .error .soloCounter
  | .mid => .ok s

/-- Counting a departure fails for a counter that is missing, and in the assertion on the solo
packet. -/
theorem countDeparture_faults (header : PacketHeader) (s : DropBitrateDequeueQueue) :
    Ensures (· ∈ [.outOfRange, .soloCounter]) (fun _ => True) (s.countDeparture header) := by
  have hboundary : Ensures (· ∈ [Fault.outOfRange, .soloCounter]) (fun _ => True)
      (match s.count header.dstport header.msgNo with
        | none => .error .outOfRange
        | some c =>
            if c - 1 = 0 then .ok (s.eraseCount header.dstport header.msgNo)
            else .ok (s.setCount header.dstport header.msgNo (c - 1)) :
        Except Fault DropBitrateDequeueQueue) := by
    split
    · exact List.mem_cons_self
    · split
      · trivial
      · trivial
  unfold countDeparture
  split
  · exact hboundary
  · exact hboundary
  · split
    · trivial
    · exact List.mem_cons_of_mem _ List.mem_cons_self
  · trivial

/-- The packet at the front is taken, judged and counted. -/
def dequeuefront (ts : Nat) (s : DropBitrateDequeueQueue) :
    Except Fault (QueuedPacket × DropBitrateDequeueQueue) := do
  let (pkt, q) ← s.popFront
  let s := { s with toDroppingPacketQueue := q }
  let header ← PacketHeader.ofPayload pkt.contents
  if header.isOctopus then
    let v := s.verdict ts pkt header
    let s ← (s.recordVerdict v header).countDeparture header
    return ({ pkt with isDrop := pkt.isDrop || v.drops }, s)
  else return (pkt, s)

/-! ### `dequeue` -/

/-- One call of `dequeuefront`: the clock it read, the queue it was called on, what it returned. -/
structure Front where
  ts : Nat
  before : DropBitrateDequeueQueue
  pkt : QueuedPacket

/-- A call of `dequeuefront`, with what it read and the queue it was called on. -/
def front (ts : Nat) (s : DropBitrateDequeueQueue) :
    Except Fault (Front × DropBitrateDequeueQueue) := do
  let (pkt, s') ← s.dequeuefront ts
  return (⟨ts, s, pkt⟩, s')

/-- The loop of `dequeue`, with the packets it has discarded so far; `clock i` is the reading of
the `i`-th `dequeuefront`.  Every iteration takes a packet off, so the queue's length is fuel
enough. -/
def dequeueLoop (clock : Nat → Nat) :
    Nat → List Front → Front → DropBitrateDequeueQueue →
      Except Fault (List Front × Front × DropBitrateDequeueQueue)
  | 0, dropped, f, s => .ok (dropped, f, s)
  | fuel + 1, dropped, f, s =>
      if s.empty then .ok (dropped, f, s)
      else do
        let header ← PacketHeader.ofPayload f.pkt.contents
        if header.isOctopus && f.pkt.isDrop then
          let (f', s') ← s.front (clock (dropped.length + 1))
          dequeueLoop clock fuel (dropped ++ [f]) f' s'
        else return (dropped, f, s)

/-- `dequeue`, with the packets it discards and the one it returns. -/
def dequeueAll (clock : Nat → Nat) (s : DropBitrateDequeueQueue) :
    Except Fault (List Front × Front × DropBitrateDequeueQueue) := do
  let (f, s) ← s.front (clock 0)
  let (dropped, f, s) ← dequeueLoop clock s.internalQueue.length [] f s
  let header ← PacketHeader.ofPayload f.pkt.contents
  if header.isOctopus then s.logLine
  return (dropped, f, s)

/-- Packets are taken from the front until one is not dropped or none is left; the last one taken is
what departs. -/
def dequeue (clock : Nat → Nat) (s : DropBitrateDequeueQueue) :
    Except Fault (QueuedPacket × DropBitrateDequeueQueue) := do
  let (_, f, s) ← s.dequeueAll clock
  return (f.pkt, s)

def setBandwidth (bandwidth : Nat) (s : DropBitrateDequeueQueue) : DropBitrateDequeueQueue :=
  { s with toDroppingPacketQueue := s.toDroppingPacketQueue.setBandwidth bandwidth }

instance : AbstractPacketQueue DropBitrateDequeueQueue where
  enqueue := enqueue
  dequeue ts s := s.dequeue (fun _ => ts)
  empty s := s.empty
  sizeBytes s := s.sizeBytes
  sizePackets s := s.sizePackets
  setBandwidth := setBandwidth

end DropBitrateDequeueQueue

end Mahimahi
