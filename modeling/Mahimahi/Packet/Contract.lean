import Mathlib.Data.Multiset.AddSub
import Mahimahi.Packet.Disciplines

/-!
# Packet — what a link relies on of its queue

`PacketContract` is all of it: what a queue holds only grows by the packet that is enqueued, and the
packet that `dequeue` returns was held.

Every first in, first out queue keeps it: it holds the packets of its list.  A drop discipline may
lose several packets in a `dequeue`.
-/

open Fallible

namespace Mahimahi

open AbstractPacketQueue

/-- `held` are the packets enqueued and not yet removed. -/
structure PacketContract (Q : Type) [AbstractPacketQueue Q] where
  held : Q → Multiset (Nat × Payload)
  enqueue_held : ∀ {ts : Nat} {p : QueuedPacket} {q q' : Q}, enqueue ts p q = .ok q' →
    held q' ≤ p.entry ::ₘ held q
  dequeue_held : ∀ {ts : Nat} {p : QueuedPacket} {q q' : Q}, empty q = false →
    dequeue ts q = .ok (p, q') → p.entry ::ₘ held q' ≤ held q
  setBandwidth_held : ∀ (bandwidth : Nat) (q : Q), held (setBandwidth bandwidth q) ≤ held q

/-- The packets of the list. -/
def CountedQueue.held (q : CountedQueue) : Multiset (Nat × Payload) :=
  Multiset.ofList (q.internalQueue.map QueuedPacket.entry)

namespace CountedQueue

/-- An enqueue adds no other packet to those that are held. -/
theorem held_offered {accepted : Bool} {p : QueuedPacket} {c c' : CountedQueue}
    (h : Offered accepted p c c') : c'.held ≤ p.entry ::ₘ c.held := by
  have hperm : (c.entries ++ [p.entry]).Perm (p.entry :: c.entries) :=
    List.perm_append_singleton p.entry c.entries
  exact h.sublist.subperm.trans hperm.subperm

/-- What is taken was held, with everything that is still held. -/
theorem held_yields {p : QueuedPacket} {c c' : CountedQueue} (h : c.Yields p c') :
    p.entry ::ₘ c'.held ≤ c.held := h.entries.subperm

end CountedQueue

/-- A first-in-first-out queue that counts what it holds meets the contract. -/
def FifoQueue.contract {Q : Type} [AbstractPacketQueue Q] (F : FifoQueue Q) : PacketContract Q where
  held q := (F.counted q).held
  enqueue_held h := CountedQueue.held_offered (F.enqueue_ok h)
  dequeue_held _ h := CountedQueue.held_yields (F.dequeue_ok h)
  setBandwidth_held _ _ := le_of_eq (congrArg CountedQueue.held (F.setBandwidth_eq _ _))

def InfinitePacketQueue.contract : PacketContract InfinitePacketQueue where
  held q := q.held
  enqueue_held h := fifo.contract.enqueue_held h
  dequeue_held hempty h := fifo.contract.dequeue_held hempty h
  setBandwidth_held _ _ := le_rfl

def DropBitrateDequeueQueue.contract : PacketContract DropBitrateDequeueQueue where
  held s := s.held
  enqueue_held h := fifo.contract.enqueue_held h
  dequeue_held hempty h := fifo.contract.dequeue_held hempty h
  setBandwidth_held _ _ := le_rfl

def CODELPacketQueue.contract : PacketContract CODELPacketQueue where
  held s := s.held
  enqueue_held h := fifo.contract.enqueue_held h
  dequeue_held hempty h := fifo.contract.dequeue_held hempty h
  setBandwidth_held _ _ := le_rfl

end Mahimahi
