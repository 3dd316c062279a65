import Mathlib.Algebra.Order.BigOperators.Group.List
import Mahimahi.DropBitrate.Runs
import Mahimahi.Packet.ActiveNet
import Mahimahi.Packet.Codel
import Mahimahi.Packet.Pie
import Mahimahi.Packet.TailHead

/-!
# Packet — every discipline is first in, first out

`Shrinks c c'` says that `c'` is left when packets are taken out of `c` anywhere.  `FifoQueue` is
what the disciplines share: `enqueue` shrinks the queue with the packet on its back, or without it,
and the packet that `dequeue` returns was ahead of all those that stay.

There is an instance for each of the seven classes.  They remove packets at different places, so
each is proved from what its own functions do.
-/

open Fallible MachineInt

namespace Mahimahi

open AbstractPacketQueue

/-- What no queue changes of a packet. -/
def QueuedPacket.entry (p : QueuedPacket) : Nat × Payload := (p.arrivalTime, p.contents)

/-- A result, with a fault read as `false`. -/
def holds : Except Fault Bool → Bool
  | .ok b => b
  | .error _ => false

namespace CountedQueue

/-- The packets that are queued, each with the time at which it came. -/
def entries (c : CountedQueue) : List (Nat × Payload) := c.internalQueue.map QueuedPacket.entry

@[simp] theorem entries_push (p : QueuedPacket) (c : CountedQueue) :
    (c.push p).entries = c.entries ++ [p.entry] := by simp [entries]

/-- What is taken was first. -/
theorem entries_pop {c c' : CountedQueue} {p : QueuedPacket} (h : c.pop = .ok (p, c')) :
    c.entries = p.entry :: c'.entries := by simp [entries, (pop_ok h).1]

/-- The bytes, by the entries alone. -/
theorem totalBytes_eq_sum (c : CountedQueue) :
    totalBytes c.internalQueue = (c.entries.map fun x => x.2.length).sum := by
  rw [entries, List.map_map]
  rfl

/-- Packets that are not empty are no more than their bytes, by the entries alone. -/
theorem length_le_of_nonempty {c : CountedQueue} (h : ∀ x ∈ c.entries, 1 ≤ x.2.length) :
    c.internalQueue.length ≤ totalBytes c.internalQueue :=
  length_le_totalBytes fun p hp => h p.entry (List.mem_map_of_mem hp)

/-- Packets have been taken out of `c`, and counted out. -/
structure Shrinks (c c' : CountedQueue) : Prop where
  counted : c.Counted → c'.Counted
  entries : c'.entries.Sublist c.entries

namespace Shrinks

theorem refl (c : CountedQueue) : c.Shrinks c := ⟨id, .refl _⟩

theorem trans {c₁ c₂ c₃ : CountedQueue} (h : c₁.Shrinks c₂) (h' : c₂.Shrinks c₃) :
    c₁.Shrinks c₃ := ⟨h'.counted ∘ h.counted, h'.entries.trans h.entries⟩

theorem length_le {c c' : CountedQueue} (h : c.Shrinks c') :
    c'.internalQueue.length ≤ c.internalQueue.length := by
  simpa [CountedQueue.entries] using h.entries.length_le

theorem totalBytes_le {c c' : CountedQueue} (h : c.Shrinks c') :
    totalBytes c'.internalQueue ≤ totalBytes c.internalQueue := by
  rw [totalBytes_eq_sum, totalBytes_eq_sum]
  exact (h.entries.map fun x : Nat × Payload => x.2.length).sum_le_sum (by simp)

theorem of_pop {c c' : CountedQueue} {p : QueuedPacket} (h : c.pop = .ok (p, c')) :
    c.Shrinks c' where
  counted := (pop_ok h).2
  entries := entries_pop h ▸ List.sublist_cons_self _ _

end Shrinks

/-- A packet has been taken out of `c` and those ahead of it: what stays was behind it. -/
structure Yields (c : CountedQueue) (p : QueuedPacket) (c' : CountedQueue) : Prop where
  counted : c.Counted → c'.Counted
  entries : (p.entry :: c'.entries).Sublist c.entries

namespace Yields

theorem of_pop {c c' : CountedQueue} {p : QueuedPacket} (h : c.pop = .ok (p, c')) :
    c.Yields p c' := ⟨(pop_ok h).2, entries_pop h ▸ .refl _⟩

theorem shrinks {c c' : CountedQueue} {p : QueuedPacket} (h : c.Yields p c') : c.Shrinks c' :=
  ⟨h.counted, (List.sublist_cons_self _ _).trans h.entries⟩

/-- Packets may be discarded before one is taken. -/
theorem after {c₁ c₂ c₃ : CountedQueue} {p : QueuedPacket} (h : c₁.Shrinks c₂)
    (h' : c₂.Yields p c₃) : c₁.Yields p c₃ := ⟨h'.counted ∘ h.counted, h'.entries.trans h.entries⟩

/-- Packets may be discarded behind one that is taken. -/
theorem before {c₁ c₂ c₃ : CountedQueue} {p : QueuedPacket} (h : c₁.Yields p c₂)
    (h' : c₂.Shrinks c₃) : c₁.Yields p c₃ :=
  ⟨h'.counted ∘ h.counted, (h'.entries.cons_cons _).trans h.entries⟩

end Yields

/-- `p` has been put on the back of `c`, or not, and then packets have been taken out. -/
structure Offered (accepted : Bool) (p : QueuedPacket) (c c' : CountedQueue) : Prop where
  counted : c.Counted → c'.Counted
  entries : c'.entries.Sublist (c.entries ++ if accepted then [p.entry] else [])

namespace Offered

/-- An enqueue that adds an accepted packet at the end and does nothing else. -/
theorem of_eq {accepted : Bool} {p : QueuedPacket} {c c' : CountedQueue}
    (h : c' = if accepted then c.push p else c) : Offered accepted p c c' := by
  subst h
  cases accepted with
  | true => exact ⟨fun hc => hc.push p, by simp⟩
  | false => exact ⟨id, by simp⟩

/-- An `enqueue` adds nothing but the packet offered. -/
theorem sublist {accepted : Bool} {p : QueuedPacket} {c c' : CountedQueue}
    (h : Offered accepted p c c') : c'.entries.Sublist (c.entries ++ [p.entry]) := by
  refine h.entries.trans (.append_left ?_ _)
  split
  · exact .refl _
  · exact List.nil_sublist _

/-- An offer adds at most the bytes of the packet. -/
theorem totalBytes_le {accepted : Bool} {p : QueuedPacket} {c c' : CountedQueue}
    (h : Offered accepted p c c') :
    totalBytes c'.internalQueue ≤ totalBytes c.internalQueue + p.size := by
  have hle := (h.sublist.map fun x : Nat × Payload => x.2.length).sum_le_sum (by simp)
  rw [List.map_append, List.sum_append] at hle
  rw [totalBytes_eq_sum, totalBytes_eq_sum]
  exact hle

/-- Packets may be discarded behind an offer. -/
theorem before {accepted : Bool} {p : QueuedPacket} {c₁ c₂ c₃ : CountedQueue}
    (h : Offered accepted p c₁ c₂) (h' : c₂.Shrinks c₃) : Offered accepted p c₁ c₃ :=
  ⟨h'.counted ∘ h.counted, h'.entries.trans h.entries⟩

/-- Packets may be discarded before an offer. -/
theorem after {accepted : Bool} {p : QueuedPacket} {c₁ c₂ c₃ : CountedQueue}
    (h : c₁.Shrinks c₂) (h' : Offered accepted p c₂ c₃) : Offered accepted p c₁ c₃ :=
  ⟨h'.counted ∘ h.counted, h'.entries.trans (h.entries.append_right _)⟩

end Offered

end CountedQueue

/-- A discipline: what it accepts, and what it does to its list and counters. -/
structure FifoQueue (Q : Type) [AbstractPacketQueue Q] where
  counted : Q → CountedQueue
  /-- whether `enqueue` puts the packet on the back -/
  accepts : Nat → QueuedPacket → Q → Bool
  sizeBytes_eq : ∀ q, sizeBytes q = (counted q).sizeBytes
  sizePackets_eq : ∀ q, sizePackets q = (counted q).sizePackets
  empty_eq : ∀ q, empty q = (counted q).empty
  enqueue_ok : ∀ {ts : Nat} {p : QueuedPacket} {q q' : Q}, enqueue ts p q = .ok q' →
    CountedQueue.Offered (accepts ts p q) p (counted q) (counted q')
  dequeue_ok : ∀ {ts : Nat} {p : QueuedPacket} {q q' : Q}, dequeue ts q = .ok (p, q') →
    (counted q).Yields p (counted q')
  setBandwidth_eq : ∀ (bandwidth : Nat) (q : Q), counted (setBandwidth bandwidth q) = counted q

open CountedQueue

/-! ### The infinite queue, and the queues that drop in `enqueue` -/

/-- The queue without limits is first-in-first-out. -/
def InfinitePacketQueue.fifo : FifoQueue InfinitePacketQueue where
  counted q := q.toCountedQueue
  accepts _ _ _ := true
  sizeBytes_eq _ := rfl
  sizePackets_eq _ := rfl
  empty_eq _ := rfl
  enqueue_ok h := by cases h; exact .of_eq rfl
  dequeue_ok h := by
    obtain ⟨⟨p₀, c⟩, hpop, hret⟩ := bind_ok.mp h
    cases hret
    exact .of_pop hpop
  setBandwidth_eq _ _ := rfl

namespace DroppingPacketQueue

theorem dequeue_yields {q q' : DroppingPacketQueue} {p : QueuedPacket}
    (h : q.dequeue = .ok (p, q')) : q.toCountedQueue.Yields p q'.toCountedQueue := by
  obtain ⟨⟨c, hpop, rfl⟩, -⟩ := dequeue_ok h
  exact .of_pop hpop

end DroppingPacketQueue

namespace DropTailPacketQueue

/-- An enqueue of drop tail accepts a packet that fits and leaves any other; the limits hold behind
it. -/
theorem enqueue_cases {p : QueuedPacket} {s s' : DropTailPacketQueue} (h : s.enqueue p = .ok s') :
    s'.assertGood = .ok () ∧
      ((s.fits p = .ok true ∧ s' = ⟨s.toDroppingPacketQueue.accept p⟩) ∨
        (s.fits p = .ok false ∧ s' = s)) := by
  obtain ⟨-, -, h⟩ := bind_ok.mp h
  obtain ⟨-, -, h⟩ := bind_ok.mp h
  obtain ⟨fits, hfits, h⟩ := bind_ok.mp h
  cases fits with
  | true =>
      obtain ⟨⟨⟩, hgood, h⟩ := bind_ok.mp h
      cases h
      exact ⟨hgood, .inl ⟨hfits, rfl⟩⟩
  | false =>
      obtain ⟨-, -, h⟩ := bind_ok.mp h
      obtain ⟨⟨⟩, hgood, h⟩ := bind_ok.mp h
      cases h
      exact ⟨hgood, .inr ⟨hfits, rfl⟩⟩

/-- What an enqueue of drop tail comes to, for the counters. -/
theorem enqueue_counted {p : QueuedPacket} {s s' : DropTailPacketQueue}
    (h : s.enqueue p = .ok s') : s'.toCountedQueue =
      if holds (s.fits p) then s.toCountedQueue.push p else s.toCountedQueue := by
  rcases (enqueue_cases h).2 with ⟨hfits, rfl⟩ | ⟨hfits, rfl⟩
  · rw [hfits]; rfl
  · rw [hfits]; rfl

/-- Drop tail is first-in-first-out. -/
def fifo : FifoQueue DropTailPacketQueue where
  counted s := s.toCountedQueue
  accepts _ p s := holds (s.fits p)
  sizeBytes_eq _ := rfl
  sizePackets_eq _ := rfl
  empty_eq _ := rfl
  enqueue_ok h := .of_eq (enqueue_counted h)
  dequeue_ok h := by
    obtain ⟨⟨p, q⟩, hd, hret⟩ := bind_ok.mp h
    cases hret
    exact DroppingPacketQueue.dequeue_yields hd
  setBandwidth_eq _ _ := rfl

end DropTailPacketQueue

namespace DropHeadPacketQueue

/-- Dropping at the head only shrinks the queue. -/
theorem dropHead_shrinks {fuel : Nat} : ∀ {q q' : DroppingPacketQueue},
    dropHead fuel q = .ok q' → q.toCountedQueue.Shrinks q'.toCountedQueue := by
  induction fuel with
  | zero => intro q q' h; cases h; exact .refl _
  | succ fuel ih =>
      intro q q' h
      obtain ⟨bytes, -, h⟩ := bind_ok.mp h
      obtain ⟨packets, -, h⟩ := bind_ok.mp h
      split at h
      · cases h; exact .refl _
      · obtain ⟨⟨p, q₁⟩, hd, h⟩ := bind_ok.mp h
        exact (DroppingPacketQueue.dequeue_yields hd).shrinks.trans (ih h)

/-- Drop head is first-in-first-out. -/
def fifo : FifoQueue DropHeadPacketQueue where
  counted s := s.toCountedQueue
  accepts _ _ _ := true
  sizeBytes_eq _ := rfl
  sizePackets_eq _ := rfl
  empty_eq _ := rfl
  enqueue_ok h := by
    obtain ⟨q, hdrop, hret⟩ := bind_ok.mp h
    cases hret
    exact .before (.of_eq rfl) (dropHead_shrinks hdrop)
  dequeue_ok h := by
    obtain ⟨⟨p, q⟩, hd, hret⟩ := bind_ok.mp h
    cases hret
    exact DroppingPacketQueue.dequeue_yields hd
  setBandwidth_eq _ _ := rfl

end DropHeadPacketQueue

/-! ### CoDel -/

namespace CODELPacketQueue

/-- An enqueue of CoDel accepts a packet that fits and leaves any other; the limits hold behind it.
-/
theorem enqueue_cases {p : QueuedPacket} {s s' : CODELPacketQueue} (h : s.enqueue p = .ok s') :
    s'.assertGood = .ok () ∧
      ((s.fits p = .ok true ∧
          s' = { s with toDroppingPacketQueue := s.toDroppingPacketQueue.accept p }) ∨
        (s.fits p = .ok false ∧ s' = s)) := by
  obtain ⟨fits, hfits, h⟩ := bind_ok.mp h
  cases fits with
  | true =>
      obtain ⟨-, -, h⟩ := bind_ok.mp h
      obtain ⟨⟨⟩, hgood, h⟩ := bind_ok.mp h
      cases h
      exact ⟨hgood, .inl ⟨hfits, rfl⟩⟩
  | false =>
      obtain ⟨⟨⟩, hgood, h⟩ := bind_ok.mp h
      cases h
      exact ⟨hgood, .inr ⟨hfits, rfl⟩⟩

theorem enqueue_counted {p : QueuedPacket} {s s' : CODELPacketQueue} (h : s.enqueue p = .ok s') :
    s'.toCountedQueue =
      if holds (s.fits p) then s.toCountedQueue.push p else s.toCountedQueue := by
  rcases (enqueue_cases h).2 with ⟨hfits, rfl⟩ | ⟨hfits, rfl⟩
  · rw [hfits]; rfl
  · rw [hfits]; rfl

/-- A `dodequeue` that returns: the front packet is off, and only `first_above_time_` may have
changed beside the list. -/
theorem dodequeue_cases {now : Nat} {p : QueuedPacket} {okToDrop : Bool} {s s' : CODELPacketQueue}
    (h : s.dodequeue now = .ok (p, okToDrop, s')) :
    ∃ c firstAboveTime, s.toCountedQueue.pop = .ok (p, c) ∧
      s' = { s with toCountedQueue := c, firstAboveTime } ∧ s'.assertGood = .ok () := by
  obtain ⟨⟨p₀, q⟩, hpop, h⟩ := bind_ok.mp h
  obtain ⟨c, hc, rfl⟩ := DroppingPacketQueue.popFront_ok hpop
  obtain ⟨⟨⟩, hgood, h⟩ := bind_ok.mp h
  dsimp only at h
  split at h
  · cases h; exact ⟨c, _, hc, rfl, hgood⟩
  · obtain ⟨bytes, -, h⟩ := bind_ok.mp h
    split at h
    · cases h; exact ⟨c, _, hc, rfl, hgood⟩
    · split at h
      · cases h; exact ⟨c, _, hc, rfl, hgood⟩
      · cases h; exact ⟨c, s.firstAboveTime, hc, rfl, hgood⟩

/-- What `dodequeue` takes was held. -/
theorem dodequeue_yields {now : Nat} {p : QueuedPacket} {okToDrop : Bool} {s s' : CODELPacketQueue}
    (h : s.dodequeue now = .ok (p, okToDrop, s')) :
    s.toCountedQueue.Yields p s'.toCountedQueue := by
  obtain ⟨c, _, hpop, rfl, -⟩ := dodequeue_cases h
  exact .of_pop hpop

/-- The loop that drops only shrinks the queue. -/
theorem dropLoop_shrinks {now fuel : Nat} : ∀ {s s' : CODELPacketQueue},
    dropLoop now fuel s = .ok s' → s.toCountedQueue.Shrinks s'.toCountedQueue := by
  induction fuel with
  | zero => intro s s' h; cases h; exact .refl _
  | succ fuel ih =>
      intro s s' h
      rw [dropLoop] at h
      split at h
      · obtain ⟨⟨p, okToDrop, s₁⟩, hd, h⟩ := bind_ok.mp h
        have hs₁ := (dodequeue_yields hd).shrinks
        dsimp only at h
        split at h
        · have hrest := ih h
          exact hs₁.trans hrest
        · have hrest := ih h
          exact hs₁.trans hrest
      · cases h; exact .refl _

/-- What is done behind a taken packet only shrinks the queue. -/
theorem drop_shrinks {now : Nat} {okToDrop : Bool} {s s' : CODELPacketQueue}
    (h : s.drop now okToDrop = .ok s') : s.toCountedQueue.Shrinks s'.toCountedQueue := by
  unfold drop at h
  split at h
  · exact dropLoop_shrinks (s := { s with dropping := okToDrop }) h
  · split at h
    · obtain ⟨⟨p, _, s₁⟩, hd, h⟩ := bind_ok.mp h
      cases h
      exact (dodequeue_yields hd).shrinks
    · cases h; exact .refl _

/-- A dequeue of CoDel is `dodequeue`, and what is done behind it. -/
theorem dequeue_split {now : Nat} {p : QueuedPacket} {s s' : CODELPacketQueue}
    (h : s.dequeue now = .ok (p, s')) :
    ∃ okToDrop s₁, s.dodequeue now = .ok (p, okToDrop, s₁) ∧ s₁.drop now okToDrop = .ok s' := by
  obtain ⟨⟨p₀, okToDrop, s₁⟩, hd, h⟩ := bind_ok.mp h
  obtain ⟨s₂, hdrop, h⟩ := bind_ok.mp h
  obtain ⟨-, -, h⟩ := bind_ok.mp h
  cases h
  exact ⟨okToDrop, s₁, hd, hdrop⟩

/-- CoDel is first-in-first-out. -/
def fifo : FifoQueue CODELPacketQueue where
  counted s := s.toCountedQueue
  accepts _ p s := holds (s.fits p)
  sizeBytes_eq _ := rfl
  sizePackets_eq _ := rfl
  empty_eq _ := rfl
  enqueue_ok h := .of_eq (enqueue_counted h)
  dequeue_ok h := by
    obtain ⟨okToDrop, s₁, hd, hdrop⟩ := dequeue_split h
    exact (dodequeue_yields hd).before (drop_shrinks hdrop)
  setBandwidth_eq _ _ := rfl

end CODELPacketQueue

/-! ### PIE -/

namespace PIEPacketQueue

/-- An update of the drop probability does not touch the packets. -/
@[simp] theorem update_toDropping (bytes : Nat) (s : PIEPacketQueue) :
    (s.update bytes).toDroppingPacketQueue = s.toDroppingPacketQueue := by
  simp only [update, apply_ite PIEPacketQueue.toDroppingPacketQueue, ite_self]

@[simp] theorem measureRate_toDropping (now size bytes : Nat) (s : PIEPacketQueue) :
    (s.measureRate now size bytes).toDroppingPacketQueue = s.toDroppingPacketQueue := by
  unfold measureRate
  dsimp only
  repeat' split
  all_goals rfl

/-- The updates that were missed do not touch the packets. -/
theorem calculateLoop_toDropping {now fuel : Nat} : ∀ {s s' : PIEPacketQueue},
    calculateLoop now fuel s = .ok s' → s'.toDroppingPacketQueue = s.toDroppingPacketQueue := by
  induction fuel with
  | zero => intro s s' h; cases h; rfl
  | succ fuel ih =>
      intro s s' h
      rw [calculateLoop] at h
      split at h
      · obtain ⟨bytes, -, h⟩ := bind_ok.mp h
        rw [ih h, update_toDropping]
      · cases h; rfl

theorem calculateDropProb_toDropping {now : Nat} {s s' : PIEPacketQueue}
    (h : s.calculateDropProb now = .ok s') : s'.toDroppingPacketQueue = s.toDroppingPacketQueue :=
  calculateLoop_toDropping h

/-- A draw changes nothing but how many draws have been made. -/
theorem dropEarly_frame {s s' : PIEPacketQueue} {drop : Bool} (h : s.dropEarly = .ok (drop, s')) :
    ∃ drawn, s' = { s with drawn } := by
  unfold dropEarly at h
  split at h
  · cases h; exact ⟨_, rfl⟩
  · split at h
    · cases h; exact ⟨_, rfl⟩
    · obtain ⟨bytes, -, h⟩ := bind_ok.mp h
      split at h
      · cases h; exact ⟨_, rfl⟩
      · cases h; exact ⟨_, rfl⟩

/-- Whether `enqueue` accepts: the limits are met and `drop_early()` does not fire. -/
def accepts (now : Nat) (p : QueuedPacket) (s : PIEPacketQueue) : Bool :=
  holds do
    let s ← s.calculateDropProb now
    if ← s.fits p then
      let (drop, _) ← s.dropEarly
      return !drop
    else return false

/-- An enqueue of PIE updates the drop probability first.  Only a packet that fits may be dropped
early. -/
theorem enqueue_cases {now : Nat} {p : QueuedPacket} {s s' : PIEPacketQueue}
    (h : s.enqueue now p = .ok s') :
    ∃ s₁, s.calculateDropProb now = .ok s₁ ∧
      ((s₁.fits p = .ok false ∧ s' = s₁) ∨
        ∃ drop s₂, s₁.fits p = .ok true ∧ s₁.dropEarly = .ok (drop, s₂) ∧
          s' = (if drop then s₂ else s₂.accept p) ∧ s'.assertGood = .ok ()) := by
  obtain ⟨s₁, hs₁, h⟩ := bind_ok.mp h
  obtain ⟨fits, hfits, h⟩ := bind_ok.mp h
  refine ⟨s₁, hs₁, ?_⟩
  cases fits with
  | false => cases h; exact .inl ⟨hfits, rfl⟩
  | true =>
      obtain ⟨⟨drop, s₂⟩, hdrop, h⟩ := bind_ok.mp h
      obtain ⟨⟨⟩, hgood, h⟩ := bind_ok.mp h
      cases h
      exact .inr ⟨drop, s₂, hfits, hdrop, rfl, hgood⟩

theorem enqueue_counted {now : Nat} {p : QueuedPacket} {s s' : PIEPacketQueue}
    (h : s.enqueue now p = .ok s') : s'.toCountedQueue =
      if s.accepts now p then s.toCountedQueue.push p else s.toCountedQueue := by
  obtain ⟨s₁, hs₁, hcase⟩ := enqueue_cases h
  have hbase : s₁.toCountedQueue = s.toCountedQueue :=
    congrArg DroppingPacketQueue.toCountedQueue (calculateDropProb_toDropping hs₁)
  rcases hcase with ⟨hfits, rfl⟩ | ⟨drop, s₂, hfits, hdrop, rfl, -⟩
  · have hno : s.accepts now p = false := by simp only [accepts, hs₁, ok_bind, hfits]; rfl
    rw [hno, hbase]; rfl
  · have hdrop' : s.accepts now p = !drop := by
      simp only [accepts, hs₁, ok_bind, hfits, if_true, hdrop]; rfl
    obtain ⟨drawn, rfl⟩ := dropEarly_frame hdrop
    rw [hdrop', ← hbase]
    cases drop <;> rfl

/-- Taking a packet is the common dequeue, as far as the packets go. -/
theorem take_ok {now : Nat} {p : QueuedPacket} {s s' : PIEPacketQueue}
    (h : s.take now = .ok (p, s')) :
    s.toDroppingPacketQueue.dequeue = .ok (p, s'.toDroppingPacketQueue) := by
  obtain ⟨⟨p₀, q⟩, hd, h⟩ := bind_ok.mp h
  obtain ⟨bytes, -, h⟩ := bind_ok.mp h
  cases h
  rw [measureRate_toDropping]
  exact hd

/-- A dequeue of PIE is the common one, as far as the packets go. -/
theorem dequeue_base {now later : Nat} {p : QueuedPacket} {s s' : PIEPacketQueue}
    (h : s.dequeue now later = .ok (p, s')) :
    s.toDroppingPacketQueue.dequeue = .ok (p, s'.toDroppingPacketQueue) := by
  obtain ⟨⟨p₀, s₁⟩, ht, h⟩ := bind_ok.mp h
  obtain ⟨s₂, hs₂, h⟩ := bind_ok.mp h
  cases h
  rw [calculateDropProb_toDropping hs₂]
  exact take_ok ht

/-- PIE is first-in-first-out. -/
def fifo : FifoQueue PIEPacketQueue where
  counted s := s.toCountedQueue
  accepts := accepts
  sizeBytes_eq _ := rfl
  sizePackets_eq _ := rfl
  empty_eq _ := rfl
  enqueue_ok h := .of_eq (enqueue_counted h)
  dequeue_ok h := DroppingPacketQueue.dequeue_yields (dequeue_base h)
  setBandwidth_eq _ _ := rfl

end PIEPacketQueue

/-! ### The Octopus queue -/

namespace DropBitrateDequeueQueue

theorem enqueue_counted {ts : Nat} {p : QueuedPacket} {s s' : DropBitrateDequeueQueue}
    (h : s.enqueue ts p = .ok s') : s'.toCountedQueue =
      if holds (s.fits p) then s.toCountedQueue.push p else s.toCountedQueue := by
  rcases enqueue_cases h with ⟨hfits, rfl⟩ | ⟨header, hfits, -, ⟨-, rfl⟩ | ⟨-, s₁, hcount, rfl⟩⟩
  · rw [hfits]; rfl
  · rw [hfits]; rfl
  · have hbase : (s₁.recordDropper header).toDroppingPacketQueue =
        (s.accepting p).toDroppingPacketQueue := by
      rw [recordDropper_toDropping, countArrival_toDropping hcount, recordRate_toDropping]
    rw [hfits, hbase]; rfl

/-- The first packet is taken; nothing but its mark may change. -/
theorem dequeuefront_counted {ts : Nat} {pkt : QueuedPacket} {s s' : DropBitrateDequeueQueue}
    (h : s.dequeuefront ts = .ok (pkt, s')) :
    ∃ p, s.toCountedQueue.pop = .ok (p, s'.toCountedQueue) ∧ pkt.entry = p.entry := by
  obtain ⟨p, c, header, hpop, -, ⟨-, rfl, rfl⟩ | ⟨-, rfl, hcount⟩⟩ := dequeuefront_cases h
  · exact ⟨pkt, hpop, rfl⟩
  · have hbase : s'.toDroppingPacketQueue = (s.popped c).toDroppingPacketQueue := by
      rw [countDeparture_toDropping hcount, recordVerdict_toDropping]
    exact ⟨p, by rw [hbase]; exact hpop, rfl⟩

theorem dequeuefront_yields {ts : Nat} {pkt : QueuedPacket} {s s' : DropBitrateDequeueQueue}
    (h : s.dequeuefront ts = .ok (pkt, s')) : s.toCountedQueue.Yields pkt s'.toCountedQueue := by
  obtain ⟨p, hpop, hentry⟩ := dequeuefront_counted h
  exact ⟨(pop_ok hpop).2, by rw [entries_pop hpop, hentry]⟩

/-- A dequeue looks at the front and goes on while it is dropped. -/
theorem dequeue_split {clock : Nat → Nat} {p : QueuedPacket} {s s' : DropBitrateDequeueQueue}
    (h : s.dequeue clock = .ok (p, s')) : ∃ f₀ s₀ dropped f, s.front (clock 0) = .ok (f₀, s₀) ∧
      dequeueLoop clock s₀.internalQueue.length [] f₀ s₀ = .ok (dropped, f, s') ∧ f.pkt = p := by
  obtain ⟨⟨dropped, f, s₁⟩, hall, hret⟩ := bind_ok.mp h
  cases hret
  obtain ⟨⟨f₀, s₀⟩, hf₀, h⟩ := bind_ok.mp hall
  obtain ⟨⟨dropped₁, f₁, s₁⟩, hloop, h⟩ := bind_ok.mp h
  obtain ⟨header, -, h⟩ := bind_ok.mp h
  dsimp only at h
  split at h
  · obtain ⟨-, -, h⟩ := bind_ok.mp h
    cases h
    exact ⟨f₀, s₀, dropped, f, hf₀, hloop, rfl⟩
  · cases h
    exact ⟨f₀, s₀, dropped, f, hf₀, hloop, rfl⟩

/-- What `dequeue` discards was ahead of the packet it returns. -/
theorem dequeue_yields {clock : Nat → Nat} {p : QueuedPacket} {s s' : DropBitrateDequeueQueue}
    (h : s.dequeue clock = .ok (p, s')) : s.toCountedQueue.Yields p s'.toCountedQueue := by
  obtain ⟨f₀, s₀, dropped, f, hf₀, hloop, rfl⟩ := dequeue_split h
  refine dequeueLoop_induction
    (P := fun _ f s' => s.toCountedQueue.Yields f.pkt s'.toCountedQueue) ?_
    (dequeuefront_yields (front_ok.mp hf₀).2.2) hloop
  intro _ f s₁ _ _ f' s₂ hP _ _ _ hf
  exact .after hP.shrinks (dequeuefront_yields (front_ok.mp hf).2.2)

/-- The queue that drops by bit rate is first-in-first-out. -/
def fifo : FifoQueue DropBitrateDequeueQueue where
  counted s := s.toCountedQueue
  accepts _ p s := holds (s.fits p)
  sizeBytes_eq _ := rfl
  sizePackets_eq _ := rfl
  empty_eq _ := rfl
  enqueue_ok h := .of_eq (enqueue_counted h)
  dequeue_ok h := dequeue_yields h
  setBandwidth_eq _ _ := rfl

end DropBitrateDequeueQueue

/-! ### The active-network queue -/

namespace DropActiveNetQueue

/-- The purge keeps some of the packets and counts the others out. -/
structure Purged (ps kept : List QueuedPacket) (s s' : DropActiveNetQueue) : Prop where
  sublist : kept.Sublist ps
  bytes : ∀ b : Int, s.queueSizeInBytes = toI32 (b + totalBytes ps) →
    s'.queueSizeInBytes = toI32 (b + totalBytes kept)
  packets : ∀ n : Int, s.queueSizeInPackets = toI32 (n + ps.length) →
    s'.queueSizeInPackets = toI32 (n + kept.length)
  frame : ∃ msgInDrop queueSizeInBytes queueSizeInPackets,
    s' = { s with msgInDrop, queueSizeInBytes, queueSizeInPackets }

/-- The first packet is erased, and the purge goes on. -/
theorem Purged.erase {p : QueuedPacket} {ps kept : List QueuedPacket} {s s₁ s' : DropActiveNetQueue}
    {msgInDrop : Int} (hs₁ : s₁ = { s with msgInDrop }.discount p) (h : Purged ps kept s₁ s') :
    Purged (p :: ps) kept s s' where
  sublist := h.sublist.cons _
  bytes b hb := by
    have hsum : b + totalBytes (p :: ps) - p.size = b + totalBytes ps := by
      rw [totalBytes_cons]; omega
    exact h.bytes b (by rw [hs₁, discount, hb, toI32_sub, hsum])
  packets n hn := by
    have hsum : n + (p :: ps).length - 1 = n + ps.length := by rw [List.length_cons]; omega
    exact h.packets n (by rw [hs₁, discount, hn, toI32_sub, hsum])
  frame := by
    obtain ⟨m, b, n, rfl⟩ := h.frame
    exact ⟨m, b, n, by rw [hs₁]; rfl⟩

/-- The first packet is kept, and the purge goes on. -/
theorem Purged.keep {p : QueuedPacket} {ps kept : List QueuedPacket} {s s' : DropActiveNetQueue}
    (h : Purged ps kept s s') : Purged (p :: ps) (p :: kept) s s' where
  sublist := h.sublist.cons_cons _
  bytes b hb := by
    have hsum : ∀ qs : List QueuedPacket, b + totalBytes (p :: qs) = b + p.size + totalBytes qs :=
      fun qs => by rw [totalBytes_cons]; omega
    rw [hsum]
    exact h.bytes (b + p.size) (by rw [hb, hsum])
  packets n hn := by
    have hsum : ∀ qs : List QueuedPacket, n + (p :: qs).length = n + 1 + qs.length :=
      fun qs => by rw [List.length_cons]; omega
    rw [hsum]
    exact h.packets (n + 1) (by rw [hn, hsum])
  frame := h.frame

/-- The pass over the queue is a purge. -/
theorem dropStaleLoop_purged {toDrop : Nat} {dropperMsg : Int} {ps : List QueuedPacket} :
    ∀ {s s' : DropActiveNetQueue} {dropped : Nat} {kept : List QueuedPacket},
      dropStaleLoop toDrop dropperMsg ps s = .ok (dropped, kept, s') → Purged ps kept s s' := by
  induction ps with
  | nil =>
      intro s s' dropped kept h
      cases h
      exact ⟨.refl _, fun _ hb => hb, fun _ hn => hn, _, _, _, rfl⟩
  | cons p ps ih =>
      intro s s' dropped kept h
      obtain ⟨header, -, h⟩ := bind_ok.mp h
      split at h
      · obtain ⟨-, -, h⟩ := bind_ok.mp h
        obtain ⟨⟨d, k, s₁⟩, hrest, h⟩ := bind_ok.mp h
        cases h
        exact (ih hrest).erase rfl
      · split at h
        · obtain ⟨⟨d, k, s₁⟩, hrest, h⟩ := bind_ok.mp h
          cases h
          exact (ih hrest).erase rfl
        · obtain ⟨⟨d, k, s₁⟩, hrest, h⟩ := bind_ok.mp h
          cases h
          exact (ih hrest).keep

/-- What the purge before an `enqueue` leaves alone. -/
structure MadeRoom (s s' : DropActiveNetQueue) : Prop where
  shrinks : s.toCountedQueue.Shrinks s'.toCountedQueue
  sublist : s'.internalQueue.Sublist s.internalQueue
  frame : ∃ msgInDrop c, s' = { s with toCountedQueue := c, msgInDrop }

/-- A purge makes room and does nothing else. -/
theorem dropStaleFrames_madeRoom {toDrop dropped : Nat} {dropperMsg : Int}
    {s s' : DropActiveNetQueue} (h : s.dropStaleFrames toDrop dropperMsg = .ok (dropped, s')) :
    MadeRoom s s' := by
  obtain ⟨⟨d, kept, s₁⟩, hloop, h⟩ := bind_ok.mp h
  cases h
  have hp := dropStaleLoop_purged hloop
  refine ⟨⟨fun hc => ⟨?_, ?_⟩, hp.sublist.map _⟩, hp.sublist, ?_⟩
  · have hbytes := hp.bytes 0 (by rw [hc.bytes, zero_add])
    rwa [zero_add] at hbytes
  · have hpackets := hp.packets 0 (by rw [hc.packets, zero_add])
    rwa [zero_add] at hpackets
  · obtain ⟨m, b, n, rfl⟩ := hp.frame
    exact ⟨_, _, rfl⟩

/-- Making room for a packet does nothing else. -/
theorem makeRoom_madeRoom {p : QueuedPacket} {header : PacketHeader} {s s' : DropActiveNetQueue}
    (h : s.makeRoom p header = .ok s') : MadeRoom s s' := by
  have hrefl : MadeRoom s s := ⟨.refl _, .refl _, _, _, rfl⟩
  obtain ⟨fits, -, h⟩ := bind_ok.mp h
  split at h
  · cases h; exact hrefl
  · split at h
    · obtain ⟨⟨d, s₁⟩, hdrop, h⟩ := bind_ok.mp h
      cases h
      exact dropStaleFrames_madeRoom hdrop
    · cases h; exact hrefl

/-- Whether `enqueue` accepts: the packet is not UDP, or it fits after the purge. -/
def accepts (p : QueuedPacket) (s : DropActiveNetQueue) : Bool :=
  holds do
    let header ← PacketHeader.ofPayload p.contents
    if header.isUdp then
      let s ← s.makeRoom p header
      s.fits p
    else return true

/-- An enqueue accepts every packet that is not UDP; for others it makes room and asks whether they
fit. -/
theorem enqueue_cases {p : QueuedPacket} {s s' : DropActiveNetQueue} (h : s.enqueue p = .ok s') :
    ∃ header, PacketHeader.ofPayload p.contents = .ok header ∧
      ((header.isUdp = false ∧ s' = s.accept p) ∨
        (header.isUdp = true ∧ ∃ s₁ fits, s.makeRoom p header = .ok s₁ ∧ s₁.fits p = .ok fits ∧
          s' = if fits then s₁.accept p else s₁)) := by
  obtain ⟨header, hheader, h⟩ := bind_ok.mp h
  refine ⟨header, hheader, ?_⟩
  cases hudp : header.isUdp with
  | false =>
      rw [hudp, if_neg (by decide)] at h
      cases h
      exact .inl ⟨rfl, rfl⟩
  | true =>
      rw [hudp, if_pos rfl] at h
      obtain ⟨s₁, hroom, h⟩ := bind_ok.mp h
      obtain ⟨fits, hfits, h⟩ := bind_ok.mp h
      refine .inr ⟨rfl, s₁, fits, hroom, hfits, ?_⟩
      cases fits with
      | true =>
          obtain ⟨-, -, h⟩ := bind_ok.mp h
          cases h; rfl
      | false =>
          obtain ⟨-, -, h⟩ := bind_ok.mp h
          cases h; rfl

theorem enqueue_offered {p : QueuedPacket} {s s' : DropActiveNetQueue} (h : s.enqueue p = .ok s') :
    Offered (s.accepts p) p s.toCountedQueue s'.toCountedQueue := by
  obtain ⟨header, hheader, ⟨hudp, rfl⟩ | ⟨hudp, s₁, fits, hroom, hfits, rfl⟩⟩ := enqueue_cases h
  · have haccepts : s.accepts p = true := by
      simp only [accepts, hheader, ok_bind, hudp]; rfl
    exact .of_eq (by rw [haccepts]; rfl)
  · have haccepts : s.accepts p = fits := by
      simp only [accepts, hheader, ok_bind, hudp, if_true, hroom, hfits]; rfl
    rw [haccepts]
    refine .after (makeRoom_madeRoom hroom).shrinks (.of_eq ?_)
    cases fits <;> rfl

/-- A dequeue takes the first packet and changes nothing else. -/
theorem dequeue_cases {p : QueuedPacket} {s s' : DropActiveNetQueue}
    (h : s.dequeue = .ok (p, s')) :
    ∃ c, s.toCountedQueue.pop = .ok (p, c) ∧ s' = { s with toCountedQueue := c } ∧
      s'.assertGood = .ok () := by
  obtain ⟨⟨p₀, q⟩, hpop, h⟩ := bind_ok.mp h
  obtain ⟨c, hc, rfl⟩ := DroppingPacketQueue.popFront_ok hpop
  obtain ⟨header, -, h⟩ := bind_ok.mp h
  have hret : ∀ {x : Except Fault (QueuedPacket × DropActiveNetQueue)},
      x = (({ s with toCountedQueue := c } : DropActiveNetQueue).assertGood >>= fun _ =>
        pure (p₀, { s with toCountedQueue := c })) → x = .ok (p, s') →
      p₀ = p ∧ s' = { s with toCountedQueue := c } ∧ s'.assertGood = .ok () := by
    rintro x rfl h
    obtain ⟨⟨⟩, hgood, h⟩ := bind_ok.mp h
    cases h
    exact ⟨rfl, rfl, hgood⟩
  have hdone : p₀ = p ∧ s' = { s with toCountedQueue := c } ∧ s'.assertGood = .ok () := by
    dsimp only at h
    split at h
    · obtain ⟨-, -, h⟩ := bind_ok.mp h
      exact hret rfl h
    · exact hret rfl h
  obtain ⟨rfl, hs', hgood⟩ := hdone
  exact ⟨c, hc, hs', hgood⟩

/-- The queue of an active network is first-in-first-out. -/
def fifo : FifoQueue DropActiveNetQueue where
  counted s := s.toCountedQueue
  accepts _ := accepts
  sizeBytes_eq _ := rfl
  sizePackets_eq _ := rfl
  empty_eq _ := rfl
  enqueue_ok h := enqueue_offered h
  dequeue_ok h := by
    obtain ⟨c, hpop, rfl, -⟩ := dequeue_cases h
    exact .of_pop hpop
  setBandwidth_eq _ _ := rfl

end DropActiveNetQueue

end Mahimahi
