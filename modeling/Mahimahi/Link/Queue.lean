import Mahimahi.Link.Schedule
import Mahimahi.Packet.Dropping

/-!
# Link — `LinkQueue`

The emulated link.  `rationalize now` uses up the delivery opportunities up to `now`: each serves
packets of at most `PACKET_SIZE` bytes in all, and a packet that does not fit is finished by the
next one.  `read_packet` and `wait_time` call it first, so the link is brought up to date only when
the event loop does something.

The loops of `rationalize` are cut at the source's own blocks: `serve` is one opportunity,
`measureRate` the rate estimate of lines 332–364.  `timestamp()` is the argument `now`; the packet
queue reads the same clock.  `next_delivery_time()` is `none` for the `-1` of a finished schedule.

`LinkHistory` is not in the source: it remembers what has gone through the link.
-/

open Fallible MachineInt

namespace Mahimahi

/-- What stops a link. -/
inductive LinkFault where
  /-- a fault of the packet queue -/
  | queue (f : Fault)
  /-- `runtime_error( "packet size is greater than maximum" )` -/
  | tooLarge
  /-- `assert( packet_in_transit_.arrival_time <= this_delivery_time )` -/
  | arrivedLate
  /-- `assert( packet_in_transit_bytes_left_ <= PACKET_SIZE )` -/
  | overSize
  /-- `assert( packet_in_transit_bytes_left_ > 0 )` -/
  | nothingLeft
  /-- `assert( packet_in_transit_bytes_left_ <= packet_in_transit_.contents.size() )` -/
  | overContents
  /-- `assert( packet_queue_->size_packets() <= packets_before + 1 )` -/
  | packetsGrew
  /-- `assert( packet_queue_->size_bytes() <= bytes_before + contents.size() )` -/
  | bytesGrew
  deriving DecidableEq, Repr

/-- A line of the log file. -/
inductive LogLine where
  | arrival (time size : Nat)
  | drop (time packets bytes : Nat)
  | opportunity (time size : Nat)
  | departure (time size delay queueSize : Nat)
  deriving DecidableEq, Repr

/-- A delivery opportunity that was used: its time, the bytes it sent, and whether the packet queue
was empty when it ended. -/
structure Opportunity where
  time : Nat
  sent : Nat
  queueEmpty : Bool
  deriving DecidableEq, Repr

structure LinkHistory where
  /-- the packets that `packet_queue_->dequeue()` returned -/
  taken : List QueuedPacket := []
  /-- the packets that departed, each with its departure time -/
  departed : List (Payload × Nat) := []
  opportunities : List Opportunity := []
  /-- what `write_packets` wrote -/
  written : List Payload := []
  deriving DecidableEq, Repr

structure LinkQueue (sched : Schedule) (Q : Type) where
  nextDelivery : Fin sched.size := ⟨0, sched.size_pos⟩
  baseTimestamp : Nat := 0
  packetQueue : Q
  packetInTransit : QueuedPacket := { arrivalTime := 0, contents := [] }
  packetInTransitBytesLeft : Nat := 0
  outputQueue : List Payload := []
  /-- the lines logged so far, if there is a log file -/
  log : Option (List LogLine)
  repeats : Bool
  finished : Bool := false
  dequeueTrace : List (Nat × Int) := []
  dequeueRate : Nat := 0xffffffff
  history : LinkHistory := {}

namespace LinkQueue

variable {sched : Schedule} {Q : Type}

/-- The link as its constructor leaves it. -/
def ofArgs (sched : Schedule) (repeats logging : Bool) (packetQueue : Q) : LinkQueue sched Q where
  packetQueue := packetQueue
  log := if logging then some [] else none
  repeats := repeats

def PACKET_SIZE : Nat := 1504

def ofQueue {α : Type} : Except Fault α → Except LinkFault α
  | .ok a => .ok a
  | .error f => .error (.queue f)

def nextDeliveryTime (s : LinkQueue sched Q) : Option Nat :=
  if s.finished then none else some (sched.entry s.nextDelivery + s.baseTimestamp)

/-! ### The log -/

def writeLog (line : LogLine) (s : LinkQueue sched Q) : LinkQueue sched Q :=
  { s with log := s.log.map (· ++ [line]) }

def recordArrival (arrivalTime pktSize : Nat) (s : LinkQueue sched Q) : LinkQueue sched Q :=
  s.writeLog (.arrival arrivalTime pktSize)

def recordDrop (time pktsDropped bytesDropped : Nat) (s : LinkQueue sched Q) : LinkQueue sched Q :=
  s.writeLog (.drop time pktsDropped bytesDropped)

def recordDepartureOpportunity (s : LinkQueue sched Q) : LinkQueue sched Q :=
  s.writeLog (.opportunity (s.nextDeliveryTime.getD (2 ^ 64 - 1)) PACKET_SIZE)

variable [AbstractPacketQueue Q]

open AbstractPacketQueue

def recordDeparture (departureTime : Nat) (packet : QueuedPacket) (s : LinkQueue sched Q) :
    Except LinkFault (LinkQueue sched Q) :=
  if s.log.isSome then do
    let queueSize ← ofQueue (sizePackets s.packetQueue)
    return s.writeLog
      (.departure departureTime packet.size (departureTime - packet.arrivalTime) queueSize)
  else return s

/-! ### `rationalize` -/

def useADeliveryOpportunity (s : LinkQueue sched Q) : LinkQueue sched Q :=
  let s := s.recordDepartureOpportunity
  let nextDelivery : Fin sched.size :=
    ⟨(s.nextDelivery + 1) % sched.size, Nat.mod_lt _ sched.size_pos⟩
  let packetQueue := setBandwidth s.dequeueRate s.packetQueue
  let s := { s with nextDelivery, packetQueue }
  if nextDelivery.val = 0 then
    if s.repeats then { s with baseTimestamp := s.baseTimestamp + sched.back }
    else { s with finished := true }
  else s

/-- Lines 361–364: at least four entries stay, and all those of the last 50 ms.
`this_delivery_time - interval` wraps below 50. -/
def popOld (deliveryTime : Nat) : List (Nat × Int) → List (Nat × Int)
  | [] => []
  | entry :: rest =>
      if 5 ≤ (entry :: rest).length ∧ entry.1 < toU64 (deliveryTime - 50) then
        popOld deliveryTime rest
      else entry :: rest

/-- Lines 332–364. -/
def measureRate (deliveryTime : Nat) (packetSize : Nat) (s : LinkQueue sched Q) :
    LinkQueue sched Q :=
  let dequeueRate := match s.dequeueTrace with
    | front :: rest =>
        if 4 ≤ (front :: rest).length then
          let totalByte := ((front :: rest).map Prod.snd).sum - front.2 + packetSize
          if deliveryTime = front.1 then 0xffffffff
          -- the quotient of two integers, which the conversion from `double` truncates
          else toU32 (totalByte * 8 / (deliveryTime - front.1))
        else 0xffffffff
    | [] => 0xffffffff
  let dequeueTrace := popOld deliveryTime (s.dequeueTrace ++ [(deliveryTime, (packetSize : Int))])
  { s with dequeueRate, dequeueTrace }

/-- Lines 324–365: the packet in transit has been sent. -/
def depart (deliveryTime : Nat) (s : LinkQueue sched Q) : Except LinkFault (LinkQueue sched Q) := do
  let s ← s.recordDeparture deliveryTime s.packetInTransit
  let contents := s.packetInTransit.contents
  let history := { s.history with departed := s.history.departed ++ [(contents, deliveryTime)] }
  let s := { s with outputQueue := s.outputQueue ++ [contents], history }
  return s.measureRate deliveryTime contents.length

/-- Lines 300–305, which `break` out of the opportunity. -/
def foundEmpty (s : LinkQueue sched Q) : LinkQueue sched Q :=
  { s with dequeueTrace := [], dequeueRate := 0xffffffff }

/-- Lines 299 and 306–307. -/
def load (now : Nat) (s : LinkQueue sched Q) : Except LinkFault (LinkQueue sched Q) :=
  if s.packetInTransitBytesLeft = 0 then do
    let (packet, packetQueue) ← ofQueue (dequeue now s.packetQueue)
    let history := { s.history with taken := s.history.taken ++ [packet] }
    return { s with packetInTransit := packet, packetInTransitBytesLeft := packet.size,
                    packetQueue, history }
  else return s

/-- The four assertions of lines 310–313. -/
def checkInTransit (deliveryTime : Nat) (s : LinkQueue sched Q) : Except LinkFault Unit :=
  if deliveryTime < s.packetInTransit.arrivalTime then .error .arrivedLate
  else if PACKET_SIZE < s.packetInTransitBytesLeft then .error .overSize
  else if s.packetInTransitBytesLeft = 0 then .error .nothingLeft
  else if s.packetInTransit.size < s.packetInTransitBytesLeft then .error .overContents
  else .ok ()

/-- Lines 306–365: an iteration that does not `break`.  It returns the bytes sent. -/
def sendSome (now deliveryTime bytesLeft : Nat) (s : LinkQueue sched Q) :
    Except LinkFault (Nat × LinkQueue sched Q) := do
  let s ← s.load now
  s.checkInTransit deliveryTime
  let amountToSend := min bytesLeft s.packetInTransitBytesLeft
  let left := s.packetInTransitBytesLeft - amountToSend
  let s := { s with packetInTransitBytesLeft := left }
  let s ← if left = 0 then s.depart deliveryTime else .ok s
  return (amountToSend, s)

/-- The loop over `bytes_left_in_this_delivery`, which every iteration but the last shortens.  It
returns the bytes sent. -/
def serve (now deliveryTime : Nat) :
    Nat → Nat → Nat → LinkQueue sched Q → Except LinkFault (Nat × LinkQueue sched Q)
  | 0, _, sent, s => .ok (sent, s)
  | fuel + 1, bytesLeft, sent, s =>
      if bytesLeft = 0 then .ok (sent, s)
      else if s.packetInTransitBytesLeft = 0 ∧ empty s.packetQueue then .ok (sent, s.foundEmpty)
      else do
        let (amountToSend, s) ← s.sendSome now deliveryTime bytesLeft
        serve now deliveryTime fuel (bytesLeft - amountToSend) (sent + amountToSend) s

/-- One delivery opportunity. -/
def burn (now deliveryTime : Nat) (s : LinkQueue sched Q) :
    Except LinkFault (LinkQueue sched Q) := do
  let (sent, s) ← s.useADeliveryOpportunity.serve now deliveryTime PACKET_SIZE PACKET_SIZE 0
  let opportunities := s.history.opportunities ++ [⟨deliveryTime, sent, empty s.packetQueue⟩]
  return { s with history := { s.history with opportunities } }

def rationalizeLoop (now : Nat) : Nat → LinkQueue sched Q → Except LinkFault (LinkQueue sched Q)
  | 0, s => .ok s
  | fuel + 1, s =>
      match s.nextDeliveryTime with
      | some t => if t ≤ now then s.burn now t >>= rationalizeLoop now fuel else .ok s
      | none => .ok s

/-- There are fewer than `passes now` opportunities up to `now`. -/
def rationalize (now : Nat) (s : LinkQueue sched Q) : Except LinkFault (LinkQueue sched Q) :=
  rationalizeLoop now (sched.passes now) s

/-! ### The calls of the event loop -/

/-- `read_packet` after `rationalize`. -/
def enqueuePacket (now : Nat) (contents : Payload) (s : LinkQueue sched Q) :
    Except LinkFault (LinkQueue sched Q) := do
  let s := s.recordArrival now contents.length
  let bytesBefore ← ofQueue (sizeBytes s.packetQueue)
  let packetsBefore ← ofQueue (sizePackets s.packetQueue)
  let packet : QueuedPacket := { arrivalTime := now, contents }
  let packetQueue ← ofQueue (enqueue now packet s.packetQueue)
  let packetsAfter ← ofQueue (sizePackets packetQueue)
  if toU32 (packetsBefore + 1) < packetsAfter then .error .packetsGrew
  else do
    let bytesAfter ← ofQueue (sizeBytes packetQueue)
    if bytesBefore + contents.length < bytesAfter then .error .bytesGrew
    else do
      let missingPackets := toU32 (packetsBefore + 1 - packetsAfter)
      let missingBytes := toU32 (bytesBefore + contents.length - bytesAfter)
      let s := { s with packetQueue }
      return if 0 < missingPackets ∨ 0 < missingBytes
        then s.recordDrop now missingPackets missingBytes else s

def readPacket (now : Nat) (contents : Payload) (s : LinkQueue sched Q) :
    Except LinkFault (LinkQueue sched Q) :=
  if PACKET_SIZE < contents.length then .error .tooLarge
  else s.rationalize now >>= enqueuePacket now contents

def writePackets (s : LinkQueue sched Q) : LinkQueue sched Q :=
  { s with outputQueue := []
           history := { s.history with written := s.history.written ++ s.outputQueue } }

/-- The result is `unsigned int`. -/
def waitTime (now : Nat) (s : LinkQueue sched Q) : Except LinkFault (Nat × LinkQueue sched Q) := do
  let s ← s.rationalize now
  return (match s.nextDeliveryTime with
    | some t => if t ≤ now then 0 else toU32 (t - now)
    | none => toU32 (2 ^ 64 - 1 - now), s)

/-- A call of the event loop. -/
inductive Call where
  | readPacket (now : Nat) (contents : Payload)
  | waitTime (now : Nat)
  | writePackets

def Call.step : Call → LinkQueue sched Q → Except LinkFault (LinkQueue sched Q)
  | .readPacket now contents, s => s.readPacket now contents
  | .waitTime now, s => (s.waitTime now).map Prod.snd
  | .writePackets, s => .ok s.writePackets

end LinkQueue

end Mahimahi
