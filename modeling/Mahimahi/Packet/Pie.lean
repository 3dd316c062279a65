import Mathlib.Algebra.Order.Ring.Rat
import Mahimahi.Packet.Dropping

/-!
# Packet — `PIEPacketQueue`

`calculate_drop_prob` repeats one `update` for every period of `T_UPDATE` milliseconds that has gone
by since the last one.  `enqueue` calls it first; `dequeue` calls it last, after the packet has left
and the dequeue rate has been measured.

`drop_prob_` is a rational number: the double arithmetic is taken as exact.  The draws of
`uniform_generator_( prng_ )` are the sequence `random`.
-/

open Fallible MachineInt

namespace Mahimahi

/-- `(uint32_t)-1` -/
def DQ_COUNT_INVALID : Nat := 2 ^ 32 - 1

/-- PIE: it drops packets that come with a probability that follows the delay of the queue. -/
structure PIEPacketQueue extends DroppingPacketQueue where
  qdelayRef : Nat
  maxBurst : Nat
  /-- the draws -/
  random : Nat → ℚ
  /-- how many of them have been used -/
  drawn : Nat := 0
  dropProb : ℚ := 0
  burstAllowance : Nat := 0
  qdelayOld : Nat := 0
  currentQdelay : Nat := 0
  dqCount : Nat := DQ_COUNT_INVALID
  dqTstamp : Nat := 0
  avgDqRate : Nat := 0
  lastUpdate : Nat

namespace PIEPacketQueue

/-- The size of a full packet, with its packet information. -/
def PACKET_SIZE : Nat := 1504

/-- How much the probability follows the distance of the delay from its target. -/
def ALPHA : ℚ := 1 / 8

/-- How much the probability follows the change of the delay. -/
def BETA : ℚ := 5 / 4

/-- `t_update_`, in milliseconds -/
def T_UPDATE : Nat := 30

/-- `dq_threshold_`, in bytes -/
def DQ_THRESHOLD : Nat := 16384

/-! ### `calculate_drop_prob` -/

/-- The body of the loop, given `size_bytes()`. -/
def update (bytes : Nat) (s : PIEPacketQueue) : PIEPacketQueue :=
  let qdelayOld := s.currentQdelay
  let currentQdelay := if 0 < s.avgDqRate then bytes / s.avgDqRate else 0
  let updateProb := !(currentQdelay == 0 && bytes != 0)
  let p : ℚ := ALPHA * toI32 (currentQdelay - s.qdelayRef) + BETA * toI32 (currentQdelay - qdelayOld)
  let p := if s.dropProb < 1 / 100 then p / 128 else if s.dropProb < 1 / 10 then p / 32 else p / 16
  let dropProb := s.dropProb + p
  let updateProb := updateProb && decide (dropProb ≤ 1)
  let dropProb := if dropProb < 0 then 0 else if 1 < dropProb then 1 else dropProb
  let dropProb := if currentQdelay = 0 ∧ qdelayOld = 0 ∧ updateProb then dropProb * (98 / 100)
    else dropProb
  let burstAllowance := (max 0 (toI32 s.burstAllowance - T_UPDATE)).toNat
  let lastUpdate := s.lastUpdate + T_UPDATE
  let s := { s with qdelayOld, currentQdelay, dropProb, burstAllowance, lastUpdate }
  if dropProb = 0 ∧ currentQdelay < s.qdelayRef / 2 ∧ qdelayOld < s.qdelayRef / 2 ∧ 0 < s.avgDqRate
    then { s with dqCount := DQ_COUNT_INVALID, avgDqRate := 0, burstAllowance := s.maxBurst }
  else s

/-- The updates that were missed since the last one, made one after the other. -/
def calculateLoop (now : Nat) : Nat → PIEPacketQueue → Except Fault PIEPacketQueue
  | 0, s => .ok s
  | fuel + 1, s =>
      if T_UPDATE < toU64 (now - s.lastUpdate) then do
        let bytes ← s.sizeBytes
        calculateLoop now fuel (s.update bytes)
      else .ok s

/-- The difference of the two times is fuel enough: every period shortens it. -/
def calculateDropProb (now : Nat) (s : PIEPacketQueue) : Except Fault PIEPacketQueue :=
  calculateLoop now (toU64 (now - s.lastUpdate)) s

/-- Updating fails only in the assertion on the bytes. -/
theorem calculateLoop_faults {now fuel : Nat} : ∀ {s : PIEPacketQueue},
    Ensures (· = .sizeBytes) (fun _ => True) (calculateLoop now fuel s) := by
  induction fuel with
  | zero => exact trivial
  | succ fuel ih =>
      intro s
      rw [calculateLoop]
      split
      · exact s.sizeBytes_faults.bind fun _ _ => ih
      · trivial

theorem calculateDropProb_faults (now : Nat) (s : PIEPacketQueue) :
    Ensures (· = .sizeBytes) (fun _ => True) (s.calculateDropProb now) := calculateLoop_faults

/-! ### `enqueue` -/

/-- Whether the packet is to be dropped. -/
def dropEarly (s : PIEPacketQueue) : Except Fault (Bool × PIEPacketQueue) :=
  if 0 < s.burstAllowance then .ok (false, s)
  else if s.qdelayOld < s.qdelayRef / 2 ∧ s.dropProb < 1 / 5 then .ok (false, s)
  else do
    let bytes ← s.sizeBytes
    if bytes < 2 * PACKET_SIZE then return (false, s)
    else return (decide (s.random s.drawn < s.dropProb), { s with drawn := s.drawn + 1 })

theorem dropEarly_faults (s : PIEPacketQueue) :
    Ensures (· = .sizeBytes) (fun _ => True) s.dropEarly := by
  unfold dropEarly
  split
  · trivial
  · split
    · trivial
    · refine s.sizeBytes_faults.bind fun _ _ => ?_
      split
      · trivial
      · trivial

def accept (p : QueuedPacket) (s : PIEPacketQueue) : PIEPacketQueue :=
  { s with toDroppingPacketQueue := s.toDroppingPacketQueue.accept p }

/-- `enqueue` after `calculate_drop_prob()`. -/
def offer (p : QueuedPacket) (s : PIEPacketQueue) : Except Fault PIEPacketQueue := do
  if ← s.fits p then
    let (drop, s) ← s.dropEarly
    let s := if drop then s else s.accept p
    s.assertGood
    return s
  else return s

/-- The probability is brought up to date first; then the packet is offered. -/
def enqueue (now : Nat) (p : QueuedPacket) (s : PIEPacketQueue) : Except Fault PIEPacketQueue :=
  s.calculateDropProb now >>= offer p

/-! ### `dequeue` -/

/-- What `dequeue` writes when a packet of `size` bytes has left, given `size_bytes()` after it. -/
def measureRate (now size bytes : Nat) (s : PIEPacketQueue) : PIEPacketQueue :=
  let s := if DQ_THRESHOLD ≤ bytes ∧ s.dqCount = DQ_COUNT_INVALID then
      { s with dqTstamp := now, dqCount := 0 }
    else s
  if s.dqCount ≠ DQ_COUNT_INVALID then
    let s := { s with dqCount := toU32 (s.dqCount + size) }
    let dtime := toU32 (now - s.dqTstamp)
    if DQ_THRESHOLD < s.dqCount ∧ 0 < dtime then
      let rateSample := s.dqCount / dtime
      let avgDqRate := if s.avgDqRate = 0 then rateSample
        else toU32 ((s.avgDqRate - s.avgDqRate / 8 + rateSample / 8 : Nat))
      let burstAllowance := if dtime < s.burstAllowance then s.burstAllowance - dtime else 0
      let s := { s with avgDqRate, burstAllowance }
      if bytes < DQ_THRESHOLD then { s with dqCount := DQ_COUNT_INVALID }
      else { s with dqCount := 0, dqTstamp := now }
    else s
  else s

/-- `dequeue` before `calculate_drop_prob()`.  The clock reading is kept in 32 bits. -/
def take (now : Nat) (s : PIEPacketQueue) : Except Fault (QueuedPacket × PIEPacketQueue) := do
  let (ret, q) ← s.toDroppingPacketQueue.dequeue
  let s := { s with toDroppingPacketQueue := q }
  let bytes ← s.sizeBytes
  return (ret, s.measureRate (toU32 now) ret.size bytes)

/-- `now` is the reading for the rate, `later` that of `calculate_drop_prob()`. -/
def dequeue (now later : Nat) (s : PIEPacketQueue) :
    Except Fault (QueuedPacket × PIEPacketQueue) := do
  let (ret, s) ← s.take now
  let s ← s.calculateDropProb later
  return (ret, s)

instance : AbstractPacketQueue PIEPacketQueue where
  enqueue := enqueue
  dequeue ts s := s.dequeue ts ts
  empty s := s.empty
  sizeBytes s := s.sizeBytes
  sizePackets s := s.sizePackets
  setBandwidth bandwidth s :=
    { s with toDroppingPacketQueue := s.toDroppingPacketQueue.setBandwidth bandwidth }

end PIEPacketQueue

end Mahimahi
