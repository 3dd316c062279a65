import Mathlib.Algebra.Order.BigOperators.Group.List
import Mahimahi.Queues.Conservation

/-!
# Queues — the limits are kept

* `limits_kept`: in every state that a run reaches, `good()` holds of a drop-tail, CoDel, PIE or
  Octopus queue, and no assertion on `good()` can fail there; `enqueue` appends a packet exactly when
  the queue would meet both limits with it (and PIE's `drop_early()` does not fire), and otherwise
  leaves the packets and both counters alone.

The run holds fewer than 2³¹ bytes, and packets, at any time: the counters are `int`s.

The invariant is `Sound`.  Taking packets out keeps it (`Reduced`), and the limits themselves let a
packet in only where it is kept.
-/

open Fallible MachineInt

namespace Mahimahi

/-- What the two `int` counters can count. -/
def Small (ps : List QueuedPacket) : Prop := totalBytes ps < 2 ^ 31 ∧ ps.length < 2 ^ 31

/-- No assertion on `good()` has failed. -/
def NotGoodFree (f : Fault) : Prop := f ≠ .notGood

instance : DecidablePred NotGoodFree := fun f => inferInstanceAs (Decidable (f ≠ .notGood))

/-- Reading the counter cannot fail in `assert( good() )`. -/
theorem CountedQueue.sizeBytes_notGoodFree (c : CountedQueue) :
    Ensures NotGoodFree (fun _ => True) c.sizeBytes :=
  c.sizeBytes_faults.mono_fault (by decide)

/-- Nor can reading a header. -/
theorem ofPayload_notGoodFree (payload : Payload) :
    Ensures NotGoodFree (fun _ => True) (PacketHeader.ofPayload payload) :=
  (PacketHeader.ofPayload_faults payload).mono_fault (by decide)

namespace DroppingPacketQueue

/-- Both limits are met, by exact sizes. -/
def Within (q : DroppingPacketQueue) (bytes packets : Nat) : Prop :=
  (q.byteLimit = 0 ∨ bytes ≤ q.byteLimit) ∧ (q.packetLimit = 0 ∨ packets ≤ q.packetLimit)

/-- What `good_with` computes, as inequalities. -/
theorem goodWith_iff {q : DroppingPacketQueue} {bytes packets : Nat} :
    q.goodWith bytes packets = true ↔ q.Within bytes packets := by
  simp [goodWith, Within]

/-- Fewer bytes and packets are within the limits, too. -/
theorem Within.mono {q : DroppingPacketQueue} {b b' n n' : Nat} (h : q.Within b n) (hb : b' ≤ b)
    (hn : n' ≤ n) : q.Within b' n' :=
  ⟨h.1.imp_right hb.trans, h.2.imp_right hn.trans⟩

/-- The queue together with `p` meets both limits. -/
def WithinWith (q : DroppingPacketQueue) (p : QueuedPacket) : Prop :=
  q.Within (totalBytes q.internalQueue + p.size) (q.internalQueue.length + 1)

instance (q : DroppingPacketQueue) (p : QueuedPacket) : Decidable (q.WithinWith p) :=
  inferInstanceAs (Decidable (_ ∧ _))

/-- The invariant of a queue that checks its limits. -/
structure Sound (q : DroppingPacketQueue) : Prop where
  counted : q.Counted
  small : Small q.internalQueue
  within : q.Within (totalBytes q.internalQueue) q.internalQueue.length

/-- The assertion holds of a sound queue. -/
theorem Sound.assertGood {q : DroppingPacketQueue} (h : q.Sound) : q.assertGood = .ok () := by
  rw [DroppingPacketQueue.assertGood, h.counted.sizeBytes_eq h.small.1,
    h.counted.sizePackets_eq h.small.2, ok_bind, ok_bind, if_pos (goodWith_iff.mpr h.within)]
  rfl

/-- The two limits, which no call changes. -/
def limits (q : DroppingPacketQueue) : Nat × Nat := (q.packetLimit, q.byteLimit)

/-- Being within the limits depends on the limits alone. -/
theorem within_congr {q q' : DroppingPacketQueue} (h : q'.limits = q.limits) {bytes packets : Nat} :
    q'.Within bytes packets ↔ q.Within bytes packets := by
  simp only [limits, Prod.mk.injEq] at h
  rw [Within, Within, h.1, h.2]

/-- Packets have been taken out. -/
structure Reduced (q q' : DroppingPacketQueue) : Prop where
  shrinks : q.toCountedQueue.Shrinks q'.toCountedQueue
  limits : q'.limits = q.limits

theorem Reduced.trans {q₁ q₂ q₃ : DroppingPacketQueue} (h : q₁.Reduced q₂) (h' : q₂.Reduced q₃) :
    q₁.Reduced q₃ := ⟨h.shrinks.trans h'.shrinks, h'.limits.trans h.limits⟩

theorem Reduced.refl (q : DroppingPacketQueue) : q.Reduced q := ⟨.refl _, rfl⟩

/-- A sound queue that is reduced stays sound. -/
theorem Sound.reduced {q q' : DroppingPacketQueue} (h : q.Sound) (hr : q.Reduced q') :
    q'.Sound where
  counted := hr.shrinks.counted h.counted
  small := ⟨Nat.lt_of_le_of_lt hr.shrinks.totalBytes_le h.small.1,
    Nat.lt_of_le_of_lt hr.shrinks.length_le h.small.2⟩
  within := (within_congr hr.limits).mpr
    (h.within.mono hr.shrinks.totalBytes_le hr.shrinks.length_le)

/-- Taking the first packet reduces the queue. -/
theorem popFront_reduced (q : DroppingPacketQueue) :
    Ensures NotGoodFree (fun r => q.Reduced r.2) q.popFront := by
  refine (q.popFront_faults.mono_fault (by decide)).and_ok fun r hr => ?_
  obtain ⟨c, hpop, hc⟩ := popFront_ok hr
  rw [hc]
  exact ⟨.of_pop hpop, rfl⟩

theorem logLine_notGoodFree (q : DroppingPacketQueue) :
    Ensures NotGoodFree (fun _ => True) q.logLine := q.logLine_faults.mono_fault (by decide)

/-- A dequeue of a sound queue passes its assertion, and reduces the queue. -/
theorem dequeue_reduced {q : DroppingPacketQueue} (h : q.Sound) :
    Ensures NotGoodFree (fun r => q.Reduced r.2) q.dequeue := by
  refine q.popFront_reduced.bind fun r hr => ?_
  have hgood := (h.reduced hr).assertGood
  dsimp only
  split
  · refine (ofPayload_notGoodFree _).bind fun _ _ => q.logLine_notGoodFree.bind fun _ _ => ?_
    rw [hgood]
    exact hr
  · rw [hgood]
    exact hr

/-! ### Letting a packet in -/

/-- Whether a packet fits a sound queue, in terms of the packets. -/
theorem Sound.fits_eq {q : DroppingPacketQueue} (h : q.Sound) (p : QueuedPacket) :
    q.fits p = .ok (q.goodWith (toU32 (totalBytes q.internalQueue + p.size))
      (toU32 (q.internalQueue.length + 1))) :=
  DroppingPacketQueue.fits_eq h.counted h.small.1 h.small.2 p

/-- The 32-bit sums are at most the exact ones, so a packet within the limits fits. -/
theorem Sound.fits_of_withinWith {q : DroppingPacketQueue} (h : q.Sound) {p : QueuedPacket}
    (hw : q.WithinWith p) : q.fits p = .ok true := by
  rw [h.fits_eq, goodWith_iff.mpr (hw.mono (by exact_mod_cast toU32_le _)
    (by exact_mod_cast toU32_le _))]

/-- What fits by the 32-bit sums is within the limits, if the sums are small enough not to wrap
around. -/
theorem Sound.withinWith_of_fits {q : DroppingPacketQueue} (h : q.Sound) {p : QueuedPacket}
    (hs : Small (q.internalQueue ++ [p])) (hf : q.fits p = .ok true) : q.WithinWith p := by
  have hb : toU32 (totalBytes q.internalQueue + p.size) = totalBytes q.internalQueue + p.size := by
    have := hs.1
    simp only [totalBytes_append, totalBytes_cons, totalBytes_nil] at this
    rw [toU32_of_range (by omega) (by omega)]
    omega
  have hl : toU32 (q.internalQueue.length + 1) = q.internalQueue.length + 1 := by
    have := hs.2
    simp only [List.length_append, List.length_singleton] at this
    rw [toU32_of_range (by omega) (by omega)]
    omega
  rw [h.fits_eq, hb, hl] at hf
  exact goodWith_iff.mp (Except.ok.inj hf)

/-- A sound queue that accepts a packet within its limits stays sound. -/
theorem Sound.accept {q : DroppingPacketQueue} (h : q.Sound) {p : QueuedPacket}
    (hs : Small (q.internalQueue ++ [p])) (hw : q.WithinWith p) : (q.accept p).Sound where
  counted := h.counted.push p
  small := hs
  within := by
    have hbytes : totalBytes (q.accept p).internalQueue = totalBytes q.internalQueue + p.size := by
      simp [DroppingPacketQueue.accept]
    have hpackets : (q.accept p).internalQueue.length = q.internalQueue.length + 1 := by
      simp [DroppingPacketQueue.accept]
    rw [hbytes, hpackets]
    exact hw

/-- What is read of a counter that has wrapped around. -/
theorem sizeBytes_wrapped {c : CountedQueue} {x : Int} (h : c.queueSizeInBytes = toI32 x) :
    Ensures NotGoodFree (· = toU32 x) c.sizeBytes := by
  unfold CountedQueue.sizeBytes
  rw [h]
  split
  · rename_i hx
    exact toI32_toNat hx
  · exact fun h => nomatch h

/-- The same for the packets. -/
theorem sizePackets_wrapped {c : CountedQueue} {x : Int} (h : c.queueSizeInPackets = toI32 x) :
    Ensures NotGoodFree (· = toU32 x) c.sizePackets := by
  unfold CountedQueue.sizePackets
  rw [h]
  split
  · rename_i hx
    exact toI32_toNat hx
  · exact fun h => nomatch h

/-- `good()` cannot fail where the packet has just been found to fit. -/
theorem Sound.accept_notGoodFree {q : DroppingPacketQueue} (h : q.Sound) {p : QueuedPacket}
    (hf : q.fits p = .ok true) : Ensures NotGoodFree (fun _ => True) (q.accept p).assertGood := by
  rw [h.fits_eq] at hf
  have hc : (q.accept p).Counted := h.counted.push p
  have hb : (q.accept p).queueSizeInBytes = toI32 (totalBytes q.internalQueue + p.size) := by
    rw [hc.bytes]
    simp [DroppingPacketQueue.accept]
  have hn : (q.accept p).queueSizeInPackets = toI32 (q.internalQueue.length + 1) := by
    rw [hc.packets]
    simp [DroppingPacketQueue.accept]
  refine (sizeBytes_wrapped hb).bind fun _ hb => (sizePackets_wrapped hn).bind fun _ hn => ?_
  have hgood : (q.accept p).goodWith (toU32 (totalBytes q.internalQueue + p.size))
      (toU32 (q.internalQueue.length + 1)) = true := Except.ok.inj hf
  rw [hb, hn, if_pos hgood]
  trivial

end DroppingPacketQueue

open DroppingPacketQueue

/-! ### The four disciplines -/

namespace DropTailPacketQueue

/-- Drop tail keeps its limits. -/
theorem enqueue_limits {s : DropTailPacketQueue} (h : s.Sound) (p : QueuedPacket) :
    Ensures NotGoodFree (fun s' => s'.limits = s.limits) (s.enqueue p) := by
  refine (ofPayload_notGoodFree _).bind fun _ _ => s.logLine_notGoodFree.bind fun _ _ => ?_
  rw [h.fits_eq]
  cases hfits : s.goodWith (toU32 (totalBytes s.internalQueue + p.size))
      (toU32 (s.internalQueue.length + 1)) with
  | true => exact (h.accept_notGoodFree (h.fits_eq p ▸ hfits ▸ rfl)).bind fun _ _ => rfl
  | false =>
      refine s.logLine_notGoodFree.bind fun _ _ => ?_
      rw [h.assertGood]
      rfl

end DropTailPacketQueue

namespace CODELPacketQueue

theorem logPacket_notGoodFree (p : QueuedPacket) (s : CODELPacketQueue) :
    Ensures NotGoodFree (fun _ => True) (s.logPacket p) :=
  (s.logPacket_faults p).mono_error (by decide)

/-- CoDel keeps its limits when it enqueues. -/
theorem enqueue_limits {s : CODELPacketQueue} (h : s.Sound) (p : QueuedPacket) :
    Ensures NotGoodFree (fun s' => s'.limits = s.limits) (s.enqueue p) := by
  unfold enqueue
  rw [h.fits_eq]
  cases hfits : s.goodWith (toU32 (totalBytes s.internalQueue + p.size))
      (toU32 (s.internalQueue.length + 1)) with
  | true =>
      refine (s.logPacket_notGoodFree p).bind fun _ _ => ?_
      exact (h.accept_notGoodFree (h.fits_eq p ▸ hfits ▸ rfl)).bind fun _ _ => rfl
  | false =>
      show Ensures _ _ (s.assertGood >>= _)
      rw [h.assertGood]
      rfl

/-- Taking a packet of a sound CoDel queue passes the assertion. -/
theorem dodequeue_reduced {s : CODELPacketQueue} (h : s.Sound) (now : Nat) :
    Ensures NotGoodFree (fun r => s.Reduced r.2.2.toDroppingPacketQueue) (s.dodequeue now) := by
  refine s.popFront_reduced.bind fun r hr => ?_
  have hgood := (h.reduced hr).assertGood
  dsimp only
  rw [hgood, ok_bind]
  split
  · exact hr
  · refine (CountedQueue.sizeBytes_notGoodFree _).bind fun bytes _ => ?_
    repeat' split
    all_goals exact hr

/-- So does dropping more of them. -/
theorem dropLoop_reduced {now fuel : Nat} : ∀ {s : CODELPacketQueue}, s.Sound →
    Ensures NotGoodFree (fun s' => s.Reduced s'.toDroppingPacketQueue) (dropLoop now fuel s) := by
  induction fuel with
  | zero => exact fun _ => .refl _
  | succ fuel ih =>
      intro s h
      rw [dropLoop]
      split
      · refine (dodequeue_reduced h now).bind fun r hr => ?_
        have hs : r.2.2.Sound := h.reduced hr
        dsimp only
        split
        · exact (ih (s := { r.2.2 with
            count := toU32 (r.2.2.count + 1)
            dropNext := r.2.2.controlLaw r.2.2.dropNext (toU32 (r.2.2.count + 1)) }) hs).mono
              fun s' hs' => hr.trans hs'
        · exact (ih (s := { r.2.2 with count := toU32 (r.2.2.count + 1), dropping := false })
            hs).mono fun s' hs' => hr.trans hs'
      · exact .refl _

/-- A dequeue of a sound CoDel queue passes every assertion. -/
theorem dequeue_reduced {s : CODELPacketQueue} (h : s.Sound) (now : Nat) :
    Ensures NotGoodFree (fun r => s.Reduced r.2.toDroppingPacketQueue) (s.dequeue now) := by
  refine (dodequeue_reduced h now).bind fun r hr => ?_
  have hs : r.2.2.Sound := h.reduced hr
  refine Ensures.bind (P := fun s' => r.2.2.Reduced s'.toDroppingPacketQueue) ?_ fun s' hs' =>
    (s'.logPacket_notGoodFree r.1).bind fun _ _ => hr.trans hs'
  unfold drop
  split
  · exact dropLoop_reduced (s := { r.2.2 with dropping := r.2.1 }) hs
  · split
    · exact (dodequeue_reduced hs now).bind fun r' hr' => hr'
    · exact .refl _

end CODELPacketQueue

namespace PIEPacketQueue

/-- Bringing the probability up to date touches neither packets nor limits. -/
theorem calculateDropProb_notGoodFree (now : Nat) (s : PIEPacketQueue) :
    Ensures NotGoodFree (fun s' => s'.toDroppingPacketQueue = s.toDroppingPacketQueue)
      (s.calculateDropProb now) :=
  ((s.calculateDropProb_faults now).mono_fault (by decide)).and_ok fun _ =>
    calculateDropProb_toDropping

theorem dropEarly_notGoodFree (s : PIEPacketQueue) :
    Ensures NotGoodFree (fun r => r.2.toDroppingPacketQueue = s.toDroppingPacketQueue)
      s.dropEarly :=
  (s.dropEarly_faults.mono_fault (by decide)).and_ok fun _ hr => by
    obtain ⟨drawn, hs⟩ := dropEarly_frame hr
    rw [hs]

/-- PIE keeps its limits when it enqueues. -/
theorem enqueue_limits {s : PIEPacketQueue} (h : s.Sound) (now : Nat) (p : QueuedPacket) :
    Ensures NotGoodFree (fun s' => s'.limits = s.limits) (s.enqueue now p) := by
  refine (s.calculateDropProb_notGoodFree now).bind fun s₁ hs₁ => ?_
  have hfits := h.fits_eq p
  rw [← hs₁] at h hfits ⊢
  unfold offer
  cases hfit : s₁.goodWith (toU32 (totalBytes s₁.internalQueue + p.size))
      (toU32 (s₁.internalQueue.length + 1)) with
  | true =>
      rw [hfits, hfit]
      refine s₁.dropEarly_notGoodFree.bind fun r hr => ?_
      have hgood : Ensures NotGoodFree (fun _ => True)
          (if r.1 = true then r.2 else r.2.accept p).assertGood := by
        split
        · rw [hr, h.assertGood]
          trivial
        · show Ensures _ _ (r.2.toDroppingPacketQueue.accept p).assertGood
          rw [hr]
          exact h.accept_notGoodFree (hfits.trans (by rw [hfit]))
      refine hgood.bind fun _ _ => ?_
      show DroppingPacketQueue.limits _ = _
      rw [← hr]
      split <;> rfl
  | false =>
      rw [hfits, hfit]
      rfl

/-- A dequeue of a sound PIE queue passes the assertion. -/
theorem dequeue_reduced {s : PIEPacketQueue} (h : s.Sound) (now later : Nat) :
    Ensures NotGoodFree (fun r => s.Reduced r.2.toDroppingPacketQueue) (s.dequeue now later) := by
  refine Ensures.bind (P := fun r => s.Reduced r.2.toDroppingPacketQueue) ?_ fun r hr =>
    (r.2.calculateDropProb_notGoodFree later).bind fun s' hs' => ?_
  · refine (DroppingPacketQueue.dequeue_reduced h).bind fun r hr => ?_
    refine (CountedQueue.sizeBytes_notGoodFree _).bind fun bytes _ => ?_
    show s.Reduced (measureRate _ _ _ _).toDroppingPacketQueue
    rw [measureRate_toDropping]
    exact hr
  · show s.Reduced s'.toDroppingPacketQueue
    rw [hs']
    exact hr

end PIEPacketQueue

namespace DropBitrateDequeueQueue

theorem countArrival_notGoodFree (header : PacketHeader) (s : DropBitrateDequeueQueue) :
    Ensures NotGoodFree (fun s' => s'.toDroppingPacketQueue = s.toDroppingPacketQueue)
      (s.countArrival header) :=
  ((s.countArrival_faults header).mono_fault (by decide)).and_ok fun _ => countArrival_toDropping

theorem countDeparture_notGoodFree (header : PacketHeader) (s : DropBitrateDequeueQueue) :
    Ensures NotGoodFree (fun s' => s'.toDroppingPacketQueue = s.toDroppingPacketQueue)
      (s.countDeparture header) :=
  ((s.countDeparture_faults header).mono_error (by decide)).and_ok fun _ =>
    countDeparture_toDropping

/-- The queue that drops by bit rate keeps its limits when it enqueues. -/
theorem enqueue_limits {s : DropBitrateDequeueQueue} (h : s.Sound) (ts : Nat) (p : QueuedPacket) :
    Ensures NotGoodFree (fun s' => s'.limits = s.limits) (s.enqueue ts p) := by
  unfold enqueue
  have hfits := h.fits_eq p
  cases hfit : s.goodWith (toU32 (totalBytes s.internalQueue + p.size))
      (toU32 (s.internalQueue.length + 1)) with
  | true =>
      rw [hfits, hfit]
      refine (ofPayload_notGoodFree _).bind fun header _ => ?_
      split
      · refine (logLine_notGoodFree _).bind fun _ _ => ?_
        refine (countArrival_notGoodFree header _).bind fun s₁ hs₁ => ?_
        rw [recordRate_toDropping] at hs₁
        show (s₁.recordDropper header).limits = _
        rw [recordDropper_toDropping, hs₁]
        rfl
      · refine (logLine_notGoodFree _).bind fun _ _ => ?_
        exact (h.accept_notGoodFree (hfits.trans (by rw [hfit]))).bind fun _ _ => rfl
  | false =>
      rw [hfits, hfit]
      rfl

/-- Taking a packet of the queue that drops by bit rate reduces it.  There is no assertion on the
limits here. -/
theorem dequeuefront_reduced (s : DropBitrateDequeueQueue) (ts : Nat) :
    Ensures NotGoodFree (fun r => s.Reduced r.2.toDroppingPacketQueue) (s.dequeuefront ts) := by
  refine s.popFront_reduced.bind fun r hr => (ofPayload_notGoodFree _).bind fun header _ => ?_
  dsimp only
  split
  · refine (countDeparture_notGoodFree header _).bind fun s₁ hs₁ => ?_
    rw [recordVerdict_toDropping] at hs₁
    show s.Reduced s₁.toDroppingPacketQueue
    rw [hs₁]
    exact hr
  · exact hr

theorem front_reduced (s : DropBitrateDequeueQueue) (ts : Nat) :
    Ensures NotGoodFree (fun r => s.Reduced r.2.toDroppingPacketQueue) (s.front ts) :=
  (dequeuefront_reduced s ts).bind fun (_, _) hr => hr

/-- Taking more of them reduces it further. -/
theorem dequeueLoop_reduced {clock : Nat → Nat} {fuel : Nat} :
    ∀ (dropped : List Front) (f : Front) (s : DropBitrateDequeueQueue),
      Ensures NotGoodFree (fun r => s.Reduced r.2.2.toDroppingPacketQueue)
        (dequeueLoop clock fuel dropped f s) := by
  induction fuel with
  | zero => exact fun _ _ _ => .refl _
  | succ fuel ih =>
      intro dropped f s
      rw [dequeueLoop]
      split
      · exact .refl _
      · refine (ofPayload_notGoodFree _).bind fun header _ => ?_
        split
        · exact (front_reduced s _).bind fun r hr => (ih _ _ _).mono fun _ hr' => hr.trans hr'
        · exact .refl _

/-- A dequeue of the queue that drops by bit rate reduces it. -/
theorem dequeue_reduced (s : DropBitrateDequeueQueue) (clock : Nat → Nat) :
    Ensures NotGoodFree (fun r => s.Reduced r.2.toDroppingPacketQueue) (s.dequeue clock) := by
  refine Ensures.bind (P := fun r => s.Reduced r.2.2.toDroppingPacketQueue) ?_
    (by rintro ⟨_, _, _⟩ hr; exact hr)
  refine (front_reduced s _).bind fun r hr => (dequeueLoop_reduced _ _ _).bind fun r' hr' => ?_
  refine (ofPayload_notGoodFree _).bind fun header _ => ?_
  dsimp only
  split
  · exact (logLine_notGoodFree _).bind fun _ _ => hr.trans hr'
  · exact hr.trans hr'

end DropBitrateDequeueQueue

/-! ### Every state of a run -/

/-- The disciplines that accept what their limits allow. -/
def QueueArgs.limited? : QueueArgs → Option DroppingArgs
  | .dropTail a => some a
  | .codel a => some a.toDroppingArgs
  | .pie a => some a.toDroppingArgs
  | .dropBitrateDequeue a => some a
  | .infinite | .dropHead _ | .dropActiveNet _ => none

namespace Discipline

/-- The base of the four disciplines that are held to their limits. -/
def limited? : Discipline → Option DroppingPacketQueue
  | .dropTail q => some q.toDroppingPacketQueue
  | .codel q => some q.toDroppingPacketQueue
  | .pie q => some q.toDroppingPacketQueue
  | .dropBitrateDequeue q => some q.toDroppingPacketQueue
  | .infinite _ | .dropHead _ | .dropActiveNet _ => none

/-- PIE's `drop_early()` fires, once `calculate_drop_prob()` has been called. -/
def dropsEarly (ts : Nat) : Discipline → Bool
  | .pie q => holds do
      let q ← q.calculateDropProb ts
      let (drop, _) ← q.dropEarly
      return drop
  | _ => false

/-- A discipline with limits is made sound, with the limits it was given. -/
theorem limited_make {a : QueueArgs} {d : DroppingArgs} (h : a.limited? = some d) :
    ∃ base, a.make.limited? = some base ∧ base.Sound ∧
      base.limits = (d.packetLimit, d.byteLimit) := by
  have hsound : ∀ d : DroppingArgs, d.make.Sound := fun d =>
    ⟨CountedQueue.counted_nil, ⟨Nat.two_pow_pos 31, Nat.two_pow_pos 31⟩, .inr (Nat.zero_le _),
      .inr (Nat.zero_le _)⟩
  cases a <;> cases h <;> exact ⟨_, rfl, hsound _, rfl⟩

/-- The counters of a discipline with limits are those of its base. -/
theorem counted_of_limited {q : Discipline} {base : DroppingPacketQueue}
    (h : q.limited? = some base) : q.counted = base.toCountedQueue := by
  cases q <;> cases h <;> rfl

/-- Telling the bandwidth does not touch the limits. -/
theorem limited_setBandwidth {q : Discipline} {base : DroppingPacketQueue}
    (h : q.limited? = some base) (bandwidth : Nat) :
    (q.setBandwidth bandwidth).limited? = some (base.setBandwidth bandwidth) := by
  cases q <;> cases h <;> rfl

/-- What a call leaves of a limited discipline. -/
def Leaves (base : DroppingPacketQueue) (R : DroppingPacketQueue → Prop) (q' : Discipline) : Prop :=
  ∃ base', q'.limited? = some base' ∧ base'.limits = base.limits ∧ R base'

/-- An enqueue of a discipline with limits keeps them. -/
theorem enqueue_limits {q : Discipline} {base : DroppingPacketQueue} (hq : q.limited? = some base)
    (h : base.Sound) (ts : Nat) (p : QueuedPacket) :
    Ensures NotGoodFree (Leaves base fun _ => True) (q.enqueue ts p) := by
  cases q with
  | infinite q => cases hq
  | dropHead q => cases hq
  | dropActiveNet q => cases hq
  | dropTail q =>
      cases hq
      exact .map ((DropTailPacketQueue.enqueue_limits h p).mono fun _ hl => ⟨_, rfl, hl, trivial⟩)
  | codel q =>
      cases hq
      exact .map ((CODELPacketQueue.enqueue_limits h p).mono fun _ hl => ⟨_, rfl, hl, trivial⟩)
  | pie q =>
      cases hq
      exact .map ((PIEPacketQueue.enqueue_limits h ts p).mono fun _ hl => ⟨_, rfl, hl, trivial⟩)
  | dropBitrateDequeue q =>
      cases hq
      exact .map ((DropBitrateDequeueQueue.enqueue_limits h ts p).mono
        fun _ hl => ⟨_, rfl, hl, trivial⟩)

/-- A dequeue of a discipline with limits reduces it. -/
theorem dequeue_limits {q : Discipline} {base : DroppingPacketQueue} (hq : q.limited? = some base)
    (h : base.Sound) (clock : Nat → Nat) :
    Ensures NotGoodFree (fun r => Leaves base base.Reduced r.2) (q.dequeue clock) := by
  have hleave : ∀ {q' : Discipline} {base' : DroppingPacketQueue}, q'.limited? = some base' →
      base.Reduced base' → Leaves base base.Reduced q' := fun hq' hr => ⟨_, hq', hr.limits, hr⟩
  cases q with
  | infinite q => cases hq
  | dropHead q => cases hq
  | dropActiveNet q => cases hq
  | dropTail q =>
      cases hq
      refine .map (Ensures.bind (DroppingPacketQueue.dequeue_reduced h) fun (_, _) hr => ?_)
      exact hleave rfl hr
  | codel q =>
      cases hq
      exact .map ((CODELPacketQueue.dequeue_reduced h (clock 0)).mono fun _ hr => hleave rfl hr)
  | pie q =>
      cases hq
      exact .map ((PIEPacketQueue.dequeue_reduced h (clock 0) (clock 1)).mono
        fun _ hr => hleave rfl hr)
  | dropBitrateDequeue q =>
      cases hq
      exact .map ((DropBitrateDequeueQueue.dequeue_reduced q clock).mono fun _ hr => hleave rfl hr)

/-- PIE drops early, or decides by its limits. -/
theorem pie_decides {q q' : PIEPacketQueue} {ts : Nat} {p : QueuedPacket}
    (h : q.enqueue ts p = .ok q') : q'.toCountedQueue =
      if holds (q.fits p) ∧ dropsEarly ts (.pie q) = false then q.toCountedQueue.push p
      else q.toCountedQueue := by
  obtain ⟨s₁, hs₁, hcase⟩ := PIEPacketQueue.enqueue_cases h
  have hbase := PIEPacketQueue.calculateDropProb_toDropping hs₁
  -- the updates of `calculate_drop_prob` touch neither the list nor the limits
  rcases hcase with ⟨hfits, rfl⟩ | ⟨drop, s₂, hfits, hdrop, rfl, -⟩
  · rw [hbase] at hfits
    rw [if_neg (by simp [hfits, holds])]
    exact congrArg DroppingPacketQueue.toCountedQueue hbase
  · rw [hbase] at hfits
    have hearly : dropsEarly ts (.pie q) = drop := by
      simp only [dropsEarly, hs₁, ok_bind, hdrop]
      rfl
    obtain ⟨drawn, rfl⟩ := PIEPacketQueue.dropEarly_frame hdrop
    have hcounted : s₁.toCountedQueue = q.toCountedQueue :=
      congrArg DroppingPacketQueue.toCountedQueue hbase
    cases drop with
    | true =>
        exact hcounted.trans (if_neg fun hc => absurd (hearly.symm.trans hc.2) (by decide)).symm
    | false =>
        have haccept := congrArg (CountedQueue.push p) hcounted
        exact haccept.trans (if_pos ⟨by simp [hfits, holds], hearly⟩).symm

/-- What `enqueue` does to the list and the counters: it accepts what fits, unless PIE drops it. -/
theorem enqueue_decides {q q' : Discipline} {base : DroppingPacketQueue}
    (hq : q.limited? = some base) {ts : Nat} {p : QueuedPacket} (h : q.enqueue ts p = .ok q') :
    q'.counted = if holds (base.fits p) ∧ q.dropsEarly ts = false then q.counted.push p
      else q.counted := by
  cases q with
  | infinite q => cases hq
  | dropHead q => cases hq
  | dropActiveNet q => cases hq
  | dropTail q =>
      cases hq
      obtain ⟨q₁, h₁, rfl⟩ := of_map_ok h
      simp only [dropsEarly, and_true]
      exact DropTailPacketQueue.enqueue_counted h₁
  | codel q =>
      cases hq
      obtain ⟨q₁, h₁, rfl⟩ := of_map_ok h
      simp only [dropsEarly, and_true]
      exact CODELPacketQueue.enqueue_counted h₁
  | dropBitrateDequeue q =>
      cases hq
      obtain ⟨q₁, h₁, rfl⟩ := of_map_ok h
      simp only [dropsEarly, and_true]
      exact DropBitrateDequeueQueue.enqueue_counted h₁
  | pie q =>
      cases hq
      obtain ⟨q₁, h₁, rfl⟩ := of_map_ok h
      exact pie_decides h₁

/-- The base of a limited discipline in a state that a run reaches. -/
structure LimitsKept (d : DroppingArgs) (q : Discipline) (base : DroppingPacketQueue) : Prop where
  limited : q.limited? = some base
  sound : base.Sound
  limits : base.limits = (d.packetLimit, d.byteLimit)

/-- An `enqueue` that leaves the queue small: it has accepted exactly what is within the limits. -/
theorem LimitsKept.enqueue {d : DroppingArgs} {q q' : Discipline} {base : DroppingPacketQueue}
    (h : LimitsKept d q base) {ts : Nat} {p : QueuedPacket} (hq : q.enqueue ts p = .ok q')
    (hsmall : Small q'.internalQueue) :
    (base.WithinWith p ∧ q.dropsEarly ts = false → q'.counted = q.counted.push p) ∧
    (¬ (base.WithinWith p ∧ q.dropsEarly ts = false) → q'.counted = q.counted) ∧
    ∃ base', LimitsKept d q' base' := by
  have hdec := enqueue_decides h.limited hq
  have hcounted := counted_of_limited h.limited
  obtain ⟨base', hbase', hlimits, -⟩ := (enqueue_limits h.limited h.sound ts p).of_ok hq
  have hcounted' := counted_of_limited hbase'
  have hiff : holds (base.fits p) = true ∧ q.dropsEarly ts = false ↔
      base.WithinWith p ∧ q.dropsEarly ts = false := by
    constructor
    · rintro ⟨hfits, hearly⟩
      rw [if_pos ⟨hfits, hearly⟩] at hdec
      refine ⟨h.sound.withinWith_of_fits ?_ ?_, hearly⟩
      · unfold internalQueue at hsmall
        rwa [hdec, CountedQueue.push_internalQueue, hcounted] at hsmall
      · rw [h.sound.fits_eq] at hfits ⊢
        exact congrArg _ hfits
    · rintro ⟨hw, hearly⟩
      exact ⟨by rw [h.sound.fits_of_withinWith hw]; rfl, hearly⟩
  refine ⟨fun hw => by rw [hdec, if_pos (hiff.mpr hw)], fun hw => by rw [hdec, if_neg (mt hiff.mp hw)],
    base', hbase', ?_, hlimits.trans h.limits⟩
  by_cases hw : holds (base.fits p) = true ∧ q.dropsEarly ts = false
  · rw [if_pos hw] at hdec
    have hbase : base'.toCountedQueue = (base.accept p).toCountedQueue := by
      rw [← hcounted', hdec, hcounted]; rfl
    have hsmall' : Small (base.internalQueue ++ [p]) := by
      unfold internalQueue at hsmall
      rwa [hdec, CountedQueue.push_internalQueue, hcounted] at hsmall
    have hs := h.sound.accept hsmall' (hiff.mp hw).1
    exact hs.reduced ⟨hbase ▸ .refl _, hlimits⟩
  · rw [if_neg hw] at hdec
    have hbase : base'.toCountedQueue = base.toCountedQueue := by rw [← hcounted', hdec, hcounted]
    exact h.sound.reduced ⟨hbase ▸ .refl _, hlimits⟩

theorem LimitsKept.dequeue {d : DroppingArgs} {q q' : Discipline} {base : DroppingPacketQueue}
    (h : LimitsKept d q base) {clock : Nat → Nat} {p : QueuedPacket}
    (hq : q.dequeue clock = .ok (p, q')) : ∃ base', LimitsKept d q' base' := by
  obtain ⟨base', hbase', hlimits, hr⟩ := (dequeue_limits h.limited h.sound clock).of_ok hq
  exact ⟨base', hbase', h.sound.reduced hr, hlimits.trans h.limits⟩

/-- What a call keeps of the limits. -/
theorem LimitsKept.step {d : DroppingArgs} {c : Call} {t t' : Trace} {q q' : Discipline}
    {base : DroppingPacketQueue} (h : LimitsKept d q base) (hc : c.step (t, q) = .ok (t', q'))
    (hsmall : Small q'.internalQueue) : ∃ base', LimitsKept d q' base' := by
  cases c with
  | enqueue ts arrivalTime contents =>
      obtain ⟨q₁, hq₁, hret⟩ := bind_ok.mp hc
      cases hret
      exact (h.enqueue hq₁ hsmall).2.2
  | dequeue clock =>
      obtain ⟨⟨p, q₁⟩, hq₁, hret⟩ := bind_ok.mp hc
      cases hret
      exact h.dequeue hq₁
  | setBandwidth bandwidth =>
      cases hc
      exact ⟨_, limited_setBandwidth h.limited bandwidth, h.sound.reduced ⟨.refl _, rfl⟩, h.limits⟩

/-- Every state of the run counts its packets in an `int`. -/
def StaysSmall (a : QueueArgs) (calls : List Call) : Prop :=
  ∀ done t q, done <+: calls → run Call.step done ({}, a.make) = .ok (t, q) → Small q.internalQueue

/-- What a run keeps of them. -/
theorem run_limitsKept {a : QueueArgs} {d : DroppingArgs} (ha : a.limited? = some d)
    {calls : List Call} (hsmall : StaysSmall a calls) {t : Trace} {q : Discipline}
    (h : run Call.step calls ({}, a.make) = .ok (t, q)) : ∃ base, LimitsKept d q base := by
  refine (ensures_run (E := fun _ => True) (P := fun _ x => ∃ base, LimitsKept d x.2 base)
    ?_ ?_).of_ok h
  · obtain ⟨base, hbase, hsound, hlimits⟩ := limited_make ha
    exact ⟨base, hbase, hsound, hlimits⟩
  · rintro done ⟨t, q⟩ c ⟨base, hP⟩ hdone hpre
    refine ensures_iff.mpr ?_
    rintro ⟨t', q'⟩ hc
    refine hP.step hc (hsmall (done ++ [c]) t' q' hpre ?_)
    rw [run_append, hdone, ok_bind, run_singleton, hc]

/-- **The limits are kept.**  No assertion on `good()` can fail in a state that a run reaches, and
`enqueue` accepts exactly what meets both limits. -/
theorem limits_kept {a : QueueArgs} {d : DroppingArgs} (ha : a.limited? = some d)
    {calls : List Call} (hsmall : StaysSmall a calls) {t : Trace} {q : Discipline}
    (hrun : run Call.step calls ({}, a.make) = .ok (t, q)) :
    ∃ base, q.limited? = some base ∧ base.limits = (d.packetLimit, d.byteLimit) ∧
      base.assertGood = .ok () ∧
      (∀ ts p, q.enqueue ts p ≠ .error .notGood) ∧ (∀ clock, q.dequeue clock ≠ .error .notGood) ∧
      ∀ ts p q', q.enqueue ts p = .ok q' → Small q'.internalQueue →
        (base.WithinWith p ∧ q.dropsEarly ts = false →
          q'.internalQueue = q.internalQueue ++ [p]) ∧
        (¬ (base.WithinWith p ∧ q.dropsEarly ts = false) → q'.counted = q.counted) := by
  obtain ⟨base, h⟩ := run_limitsKept ha hsmall hrun
  refine ⟨base, h.limited, h.limits, h.sound.assertGood, ?_, ?_, ?_⟩
  · exact fun ts p he => (enqueue_limits h.limited h.sound ts p).of_error he rfl
  · exact fun clock he => (dequeue_limits h.limited h.sound clock).of_error he rfl
  · intro ts p q' hq hs
    obtain ⟨htaken, hrefused, -⟩ := h.enqueue hq hs
    refine ⟨fun hw => ?_, hrefused⟩
    rw [internalQueue, htaken hw]
    rfl

/-- A drop-tail queue of 60 bytes refuses the second of two packets of 44. -/
def sixtyBytes : DroppingArgs := ⟨0, 60, false, 0, by decide⟩

def twoPackets : List Call :=
  [.enqueue 0 0 (List.replicate 44 1), .enqueue 0 0 (List.replicate 44 2)]

theorem limits_kept_twoPackets : ∃ t q base,
    run Call.step twoPackets ({}, (QueueArgs.dropTail sixtyBytes).make) = .ok (t, q) ∧
    q.limited? = some base ∧ base.limits = (0, 60) ∧ base.assertGood = .ok () ∧
    (∀ ts p, q.enqueue ts p ≠ .error .notGood) ∧ (∀ clock, q.dequeue clock ≠ .error .notGood) ∧
    ∀ ts p q', q.enqueue ts p = .ok q' → Small q'.internalQueue →
      (base.WithinWith p ∧ q.dropsEarly ts = false → q'.internalQueue = q.internalQueue ++ [p]) ∧
      (¬ (base.WithinWith p ∧ q.dropsEarly ts = false) → q'.counted = q.counted) := by
  have hsmall : StaysSmall (.dropTail sixtyBytes) twoPackets := by
    intro done t q hpre hrun
    have hsizes : ∀ n ≤ 2, ((run Call.step (twoPackets.take n)
        ({}, (QueueArgs.dropTail sixtyBytes).make)).map fun x =>
          (totalBytes x.2.internalQueue, x.2.internalQueue.length)) = .ok (44 * min n 1, min n 1) := by
      decide +kernel
    obtain ⟨n, hn, rfl⟩ : ∃ n ≤ 2, done = twoPackets.take n :=
      ⟨done.length, hpre.length_le, List.prefix_iff_eq_take.mp hpre⟩
    have hsize := hsizes n hn
    rw [hrun] at hsize
    simp only [Except.map, Except.ok.injEq, Prod.mk.injEq] at hsize
    exact ⟨by rw [hsize.1]; omega, by rw [hsize.2]; omega⟩
  obtain ⟨⟨t, q⟩, hrun, -⟩ := of_map_ok
    (x := run Call.step twoPackets ({}, (QueueArgs.dropTail sixtyBytes).make))
    (f := fun x => x.2.internalQueue.length) (b := 1) (by decide +kernel)
  obtain ⟨base, hbase⟩ := limits_kept (d := sixtyBytes) rfl hsmall hrun
  exact ⟨t, q, base, hrun, hbase⟩

end Discipline

end Mahimahi
