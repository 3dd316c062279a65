import Mathlib.Algebra.BigOperators.Group.Multiset.Basic
import Mathlib.Algebra.Order.Monoid.Prod
import Mahimahi.Link.Log
import Mahimahi.Packet.Contract

/-!
# Link — the log as a chronicle

* `log_chronicle`: the lines of a log are in the order of their times; and however many of its first
  lines are read, they do not say that more packets or more bytes departed than arrived, or more
  bytes than the opportunities had room for, or that an empty packet departed.

`Books` is what the link says beside its log: what is in it has arrived and not departed, and what
has been sent of the packet in transit was sent in an opportunity.
-/

open Fallible

namespace Mahimahi

open AbstractPacketQueue

def LogLine.time : LogLine → Nat
  | .arrival time _ => time
  | .drop time _ _ => time
  | .opportunity time _ => time
  | .departure time _ _ _ => time

def LogLine.capacity : LogLine → Nat
  | .opportunity _ size => size
  | _ => 0

/-- A line that says that a packet departed does not say that it was empty. -/
def LogLine.Filled : LogLine → Prop
  | .departure _ size _ _ => 0 < size
  | _ => True

/-- The departures among the lines have arrived, are not empty, and fit the opportunities. -/
structure Covered (lines : List LogLine) : Prop where
  filled : ∀ line ∈ lines, line.Filled
  arrived : (lines.map LogLine.departed).sum ≤ (lines.map LogLine.arrived).sum
  capacity : (lines.map LogLine.departed).sum.2 ≤ (lines.map LogLine.capacity).sum

structure Chronicle (lines : List LogLine) : Prop where
  sorted : lines.Pairwise fun a b => a.time ≤ b.time
  covered : ∀ first, first <+: lines → Covered first

section

variable {lines : List LogLine} {line : LogLine}

theorem Chronicle.snoc (h : Chronicle lines) (htime : ∀ a ∈ lines, a.time ≤ line.time)
    (hcovered : Covered (lines ++ [line])) : Chronicle (lines ++ [line]) where
  sorted := List.pairwise_append.mpr ⟨h.sorted, List.pairwise_singleton _ _, fun a ha b hb =>
    List.mem_singleton.mp hb ▸ htime a ha⟩
  covered first hfirst := by
    rcases List.prefix_concat_iff.mp hfirst with rfl | hfirst
    · exact hcovered
    · exact h.covered first hfirst

end

namespace LinkQueue

variable {sched : Schedule} {Q : Type}

/-- Packets, and their bytes. -/
def weigh (held : Multiset (Nat × Payload)) : Nat × Nat :=
  (held.map fun x => (1, x.2.length)).sum

/-- How much of the packet in transit has been sent. -/
def begun (s : LinkQueue sched Q) : Nat :=
  if s.packetInTransitBytesLeft = 0 then 0
  else s.packetInTransit.size - s.packetInTransitBytesLeft

variable [AbstractPacketQueue Q]

/-- What the lines and the state say together; of the last opportunity `bytesLeft` are left. -/
structure Books (C : PacketContract Q) (bytesLeft : Nat) (lines : List LogLine)
    (s : LinkQueue sched Q) : Prop where
  log : s.log = some lines
  filled : ∀ line ∈ lines, line.Filled
  came : (lines.map LogLine.departed).sum + tally s.transit + weigh (C.held s.packetQueue) ≤
    (lines.map LogLine.arrived).sum
  room : (lines.map LogLine.departed).sum.2 + s.begun + bytesLeft ≤ (lines.map LogLine.capacity).sum

variable {C : PacketContract Q} {bytesLeft now t : Nat} {lines : List LogLine}
  {s s' : LinkQueue sched Q}

theorem Books.covered (h : Books C bytesLeft lines s) : Covered lines where
  filled := h.filled
  arrived := (le_self_add.trans le_self_add).trans h.came
  capacity := (le_self_add.trans le_self_add).trans h.room

theorem Books.leave (h : Books C bytesLeft lines s) : Books C 0 lines s :=
  ⟨h.log, h.filled, h.came, le_self_add.trans h.room⟩

/-! ### An opportunity -/

variable {old : List LogLine}

variable {done : List Call}

theorem missing_filled {packets bytes : Nat} : ∀ line ∈ missing now packets bytes, line.Filled := by
  unfold missing
  split <;> simp [LogLine.Filled]

theorem missing_capacity (packets bytes : Nat) :
    ((missing now packets bytes).map LogLine.capacity).sum = 0 := by
  unfold missing
  split <;> rfl

/-- What `read_packet` logs, and the queue it leaves. -/
theorem Books.enqueue {size packets bytes : Nat} {q : Q} (h : Books C 0 lines s)
    (hheld : weigh (C.held q) ≤ (1, size) + weigh (C.held s.packetQueue)) :
    Books C 0 (lines ++ [.arrival now size] ++ missing now packets bytes) { s with
      packetQueue := q
      log := s.log.map (· ++ (.arrival now size :: missing now packets bytes)) } := by
  have hdeparted : ((lines ++ [LogLine.arrival now size] ++
      missing now packets bytes).map LogLine.departed).sum = (lines.map LogLine.departed).sum := by
    simp [missing_departed, LogLine.departed]
  have harrived : ((lines ++ [LogLine.arrival now size] ++
      missing now packets bytes).map LogLine.arrived).sum =
        (lines.map LogLine.arrived).sum + (1, size) := by
    simp [missing_arrived, LogLine.arrived]
  have hcapacity : ((lines ++ [LogLine.arrival now size] ++
      missing now packets bytes).map LogLine.capacity).sum = (lines.map LogLine.capacity).sum := by
    simp [missing_capacity, LogLine.capacity]
  refine ⟨by simp [h.log], ?_, ?_, ?_⟩
  · exact List.forall_mem_append.mpr ⟨List.forall_mem_append.mpr ⟨h.filled,
      List.forall_mem_singleton.mpr trivial⟩, missing_filled⟩
  · rw [hdeparted, harrived]
    calc (lines.map LogLine.departed).sum + tally s.transit + weigh (C.held q)
        ≤ (lines.map LogLine.departed).sum + tally s.transit +
            ((1, size) + weigh (C.held s.packetQueue)) := add_le_add_right hheld _
      _ = (lines.map LogLine.departed).sum + tally s.transit + weigh (C.held s.packetQueue) +
            (1, size) := by abel
      _ ≤ _ := add_le_add_left h.came _
  · rw [hdeparted, hcapacity]
    exact h.room

end LinkQueue

end Mahimahi
