import Mahimahi.Queues.Purge

/-!
# Queues — who writes to a log that is not there

Without a `log_file`, `log_fd_` is null.  Every log line is guarded but one, in `dropStaleFrames`.

* `log_guarded_iff`: a run of a dropping queue without a log writes to it exactly when an `enqueue`
  on a `DropActiveNetQueue` purges and comes upon a stale FIRST or SOLO packet.
-/

open Fallible MachineInt

namespace Mahimahi

/-- No write to a null log handle. -/
def NullLogFree (f : Fault) : Prop := f ≠ .nullLog

instance : DecidablePred NullLogFree := fun f => inferInstanceAs (Decidable (f ≠ .nullLog))

/-- Reading a header does not write to the log. -/
theorem ofPayload_nullLogFree (payload : Payload) :
    Ensures NullLogFree (fun _ => True) (PacketHeader.ofPayload payload) :=
  (PacketHeader.ofPayload_faults payload).mono_fault (by decide)

/-- Nor does reading the counter of bytes. -/
theorem CountedQueue.sizeBytes_nullLogFree (c : CountedQueue) :
    Ensures NullLogFree (fun _ => True) c.sizeBytes :=
  c.sizeBytes_faults.mono_fault (by decide)

theorem CountedQueue.sizePackets_nullLogFree (c : CountedQueue) :
    Ensures NullLogFree (fun _ => True) c.sizePackets :=
  c.sizePackets_faults.mono_fault (by decide)

namespace DroppingPacketQueue

variable {q : DroppingPacketQueue}

/-- The assertion on the limits does not write to the log. -/
theorem assertGood_nullLogFree (q : DroppingPacketQueue) :
    Ensures NullLogFree (fun _ => True) q.assertGood := q.assertGood_faults.mono_error (by decide)

/-- Asking whether a packet fits does not write to the log. -/
theorem fits_nullLogFree (q : DroppingPacketQueue) (p : QueuedPacket) :
    Ensures NullLogFree (fun fits => q.fits p = .ok fits) (q.fits p) :=
  ((q.fits_faults p).mono_error (by decide)).and_ok fun _ => id

/-- A guarded line is not written without a log. -/
theorem logLine_silent (h : q.logFd = false) : Ensures NullLogFree (fun _ => True) q.logLine := by
  rw [logLine, h]
  trivial

theorem popFront_silent (h : q.logFd = false) :
    Ensures NullLogFree (fun r => r.2.logFd = false) q.popFront :=
  (q.popFront_faults.mono_fault (by decide)).and_ok fun _ hr => by
    obtain ⟨c, -, hc⟩ := popFront_ok hr
    rw [hc]
    exact h

/-- A dequeue without a log writes nothing. -/
theorem dequeue_silent (h : q.logFd = false) :
    Ensures NullLogFree (fun r => r.2.logFd = false) q.dequeue := by
  refine (popFront_silent h).bind fun r hr => ?_
  dsimp only
  rw [h, if_neg (by decide)]
  exact r.2.assertGood_nullLogFree.bind fun _ _ => hr

end DroppingPacketQueue

open DroppingPacketQueue

/-! ### The classes whose lines are guarded -/

namespace DropTailPacketQueue

/-- Drop tail without a log writes nothing when it enqueues. -/
theorem enqueue_silent {s : DropTailPacketQueue} (h : s.logFd = false) (p : QueuedPacket) :
    Ensures NullLogFree (fun s' => s'.logFd = false) (s.enqueue p) := by
  refine (ofPayload_nullLogFree _).bind fun _ _ => (logLine_silent h).bind fun _ _ => ?_
  refine (s.fits_nullLogFree p).bind fun fits _ => ?_
  cases fits with
  | true => exact (assertGood_nullLogFree _).bind fun _ _ => h
  | false => exact (logLine_silent h).bind fun _ _ => (assertGood_nullLogFree _).bind fun _ _ => h

end DropTailPacketQueue

namespace DropHeadPacketQueue

/-- Dropping at the head without a log writes nothing. -/
theorem dropHead_silent {fuel : Nat} : ∀ {q : DroppingPacketQueue}, q.logFd = false →
    Ensures NullLogFree (fun q' => q'.logFd = false) (dropHead fuel q) := by
  induction fuel with
  | zero => exact fun h => h
  | succ fuel ih =>
      intro q h
      refine q.sizeBytes_nullLogFree.bind fun _ _ => q.sizePackets_nullLogFree.bind fun _ _ => ?_
      split
      · exact h
      · exact (dequeue_silent h).bind fun r hr => ih hr

theorem enqueue_silent {s : DropHeadPacketQueue} (h : s.logFd = false) (p : QueuedPacket) :
    Ensures NullLogFree (fun s' => s'.logFd = false) (s.enqueue p) :=
  (dropHead_silent (q := s.toDroppingPacketQueue.accept p) h).bind fun _ hq => hq

end DropHeadPacketQueue

namespace CODELPacketQueue

/-- The guarded line of CoDel is not written without a log. -/
theorem logPacket_silent {s : CODELPacketQueue} (h : s.logFd = false) (p : QueuedPacket) :
    s.logPacket p = .ok () := by
  rw [logPacket, h]
  rfl

/-- CoDel without a log writes nothing when it enqueues. -/
theorem enqueue_silent {s : CODELPacketQueue} (h : s.logFd = false) (p : QueuedPacket) :
    Ensures NullLogFree (fun s' => s'.logFd = false) (s.enqueue p) := by
  refine (s.fits_nullLogFree p).bind fun fits _ => ?_
  cases fits with
  | true =>
      show Ensures _ _ (s.logPacket p >>= _)
      rw [logPacket_silent h]
      exact (assertGood_nullLogFree _).bind fun _ _ => h
  | false => exact (assertGood_nullLogFree _).bind fun _ _ => h

theorem dodequeue_silent {s : CODELPacketQueue} (h : s.logFd = false) (now : Nat) :
    Ensures NullLogFree (fun r => r.2.2.logFd = false) (s.dodequeue now) := by
  refine (popFront_silent h).bind fun r hr => (assertGood_nullLogFree _).bind fun _ _ => ?_
  split
  · exact hr
  · refine (CountedQueue.sizeBytes_nullLogFree _).bind fun bytes _ => ?_
    repeat' split
    all_goals exact hr

/-- Nor in the loop that drops. -/
theorem dropLoop_silent {now fuel : Nat} : ∀ {s : CODELPacketQueue}, s.logFd = false →
    Ensures NullLogFree (fun s' => s'.logFd = false) (dropLoop now fuel s) := by
  induction fuel with
  | zero => exact fun h => h
  | succ fuel ih =>
      intro s h
      rw [dropLoop]
      split
      · refine (dodequeue_silent h now).bind fun r hr => ?_
        dsimp only
        split
        · exact ih hr
        · exact ih hr
      · exact h

theorem drop_silent {s : CODELPacketQueue} (h : s.logFd = false) (now : Nat) (okToDrop : Bool) :
    Ensures NullLogFree (fun s' => s'.logFd = false) (s.drop now okToDrop) := by
  unfold drop
  split
  · exact dropLoop_silent h
  · split
    · exact (dodequeue_silent h now).bind fun _ hr => hr
    · exact h

/-- CoDel without a log writes nothing when it dequeues. -/
theorem dequeue_silent {s : CODELPacketQueue} (h : s.logFd = false) (now : Nat) :
    Ensures NullLogFree (fun r => r.2.logFd = false) (s.dequeue now) := by
  refine (dodequeue_silent h now).bind fun r hr => (drop_silent hr now r.2.1).bind fun s' hs' => ?_
  rw [logPacket_silent hs']
  exact hs'

end CODELPacketQueue

namespace PIEPacketQueue

/-- Bringing the probability up to date writes nothing. -/
theorem calculateDropProb_silent {s : PIEPacketQueue} (h : s.logFd = false) (now : Nat) :
    Ensures NullLogFree (fun s' => s'.logFd = false) (s.calculateDropProb now) :=
  ((s.calculateDropProb_faults now).mono_fault (by decide)).and_ok fun s' hs' => by
    rw [calculateDropProb_toDropping hs']
    exact h

theorem dropEarly_silent {s : PIEPacketQueue} (h : s.logFd = false) :
    Ensures NullLogFree (fun r => r.2.logFd = false) s.dropEarly :=
  (s.dropEarly_faults.mono_fault (by decide)).and_ok fun _ hr => by
    obtain ⟨drawn, hs⟩ := dropEarly_frame hr
    rw [hs]
    exact h

/-- PIE without a log writes nothing when it enqueues. -/
theorem enqueue_silent {s : PIEPacketQueue} (h : s.logFd = false) (now : Nat) (p : QueuedPacket) :
    Ensures NullLogFree (fun s' => s'.logFd = false) (s.enqueue now p) := by
  refine (calculateDropProb_silent h now).bind fun s₁ hs₁ => ?_
  refine (s₁.fits_nullLogFree p).bind fun fits _ => ?_
  cases fits with
  | true =>
      refine (dropEarly_silent hs₁).bind fun r hr => (assertGood_nullLogFree _).bind fun _ _ => ?_
      show (if r.1 = true then r.2 else r.2.accept p).logFd = false
      split
      · exact hr
      · exact hr
  | false => exact hs₁

/-- PIE without a log writes nothing when it dequeues. -/
theorem dequeue_silent {s : PIEPacketQueue} (h : s.logFd = false) (now later : Nat) :
    Ensures NullLogFree (fun r => r.2.logFd = false) (s.dequeue now later) := by
  refine Ensures.bind (P := fun r => r.2.logFd = false) ?_ fun r hr =>
    (calculateDropProb_silent hr later).bind fun _ hs => hs
  refine (DroppingPacketQueue.dequeue_silent h).bind fun r hr => ?_
  refine (CountedQueue.sizeBytes_nullLogFree _).bind fun bytes _ => ?_
  show (measureRate _ _ _ _).logFd = false
  rw [measureRate_toDropping]
  exact hr

end PIEPacketQueue

namespace DropBitrateDequeueQueue

theorem countArrival_silent {s : DropBitrateDequeueQueue} (h : s.logFd = false)
    (header : PacketHeader) :
    Ensures NullLogFree (fun s' => s'.logFd = false) (s.countArrival header) :=
  ((s.countArrival_faults header).mono_fault (by decide)).and_ok fun s' hs' => by
    rw [countArrival_toDropping hs']
    exact h

theorem countDeparture_silent {s : DropBitrateDequeueQueue} (h : s.logFd = false)
    (header : PacketHeader) :
    Ensures NullLogFree (fun s' => s'.logFd = false) (s.countDeparture header) :=
  ((s.countDeparture_faults header).mono_error (by decide)).and_ok fun s' hs' => by
    rw [countDeparture_toDropping hs']
    exact h

/-- The queue that drops by bit rate writes nothing without a log when it enqueues. -/
theorem enqueue_silent {s : DropBitrateDequeueQueue} (h : s.logFd = false) (ts : Nat)
    (p : QueuedPacket) : Ensures NullLogFree (fun s' => s'.logFd = false) (s.enqueue ts p) := by
  refine (s.fits_nullLogFree p).bind fun fits _ => ?_
  cases fits with
  | false => exact h
  | true =>
      refine (ofPayload_nullLogFree _).bind fun header _ => ?_
      split
      · have hrate : (recordRate ts p.size header.dstport { s with
            toDroppingPacketQueue := s.toDroppingPacketQueue.accept p }).logFd = false := by
          rw [recordRate_toDropping]
          exact h
        refine (logLine_silent hrate).bind fun _ _ => ?_
        refine (countArrival_silent hrate header).bind fun s₁ hs₁ => ?_
        show (s₁.recordDropper header).logFd = false
        rw [recordDropper_toDropping]
        exact hs₁
      · refine (logLine_silent (q := s.toDroppingPacketQueue.accept p) h).bind fun _ _ => ?_
        exact (assertGood_nullLogFree _).bind fun _ _ => h

theorem front_silent {s : DropBitrateDequeueQueue} (h : s.logFd = false) (ts : Nat) :
    Ensures NullLogFree (fun r => r.2.logFd = false) (s.front ts) := by
  refine Ensures.bind (P := fun r : QueuedPacket × DropBitrateDequeueQueue => r.2.logFd = false) ?_
    fun _ hr => hr
  refine (popFront_silent h).bind fun r hr => (ofPayload_nullLogFree _).bind fun header _ => ?_
  dsimp only
  split
  · refine (countDeparture_silent ?_ header).bind fun s₁ hs₁ => hs₁
    rw [recordVerdict_toDropping]
    exact hr
  · exact hr

/-- Nor does its loop when it dequeues. -/
theorem dequeueLoop_silent {clock : Nat → Nat} {fuel : Nat} :
    ∀ (dropped : List Front) (f : Front) {s : DropBitrateDequeueQueue}, s.logFd = false →
      Ensures NullLogFree (fun r => r.2.2.logFd = false) (dequeueLoop clock fuel dropped f s) := by
  induction fuel with
  | zero => exact fun _ _ _ h => h
  | succ fuel ih =>
      intro dropped f s h
      rw [dequeueLoop]
      split
      · exact h
      · refine (ofPayload_nullLogFree _).bind fun header _ => ?_
        split
        · exact (front_silent h _).bind fun r hr => ih _ _ hr
        · exact h

/-- The queue that drops by bit rate writes nothing without a log when it dequeues. -/
theorem dequeue_silent {s : DropBitrateDequeueQueue} (h : s.logFd = false) (clock : Nat → Nat) :
    Ensures NullLogFree (fun r => r.2.logFd = false) (s.dequeue clock) := by
  refine Ensures.bind
    (P := fun r : List Front × Front × DropBitrateDequeueQueue => r.2.2.logFd = false) ?_
    fun _ hr => hr
  refine (front_silent h _).bind fun r hr => (dequeueLoop_silent _ _ hr).bind fun r' hr' => ?_
  refine (ofPayload_nullLogFree _).bind fun header _ => ?_
  dsimp only
  split
  · exact (logLine_silent hr').bind fun _ _ => hr'
  · exact hr'

end DropBitrateDequeueQueue

/-! ### The line that is not guarded -/

namespace DropActiveNetQueue

/-- A purge without a log writes nothing as long as it meets no packet that is stale at the
beginning of its message. -/
theorem dropStaleLoop_silent {toDrop : Nat} {dropperMsg : Int} {ps : List QueuedPacket} :
    ∀ {s : DropActiveNetQueue}, s.logFd = false → (∀ p ∈ ps, stale toDrop dropperMsg p = false) →
      Ensures NullLogFree (fun r => r.2.2.logFd = false) (dropStaleLoop toDrop dropperMsg ps s) := by
  induction ps with
  | nil => exact fun h _ => h
  | cons p ps ih =>
      intro s h hfresh
      obtain ⟨hp, hps⟩ := List.forall_mem_cons.mp hfresh
      cases hheader : PacketHeader.ofPayload p.contents with
      | error e =>
          rw [dropStaleLoop, hheader]
          exact (ofPayload_nullLogFree p.contents).of_error hheader
      | ok header =>
          rw [dropStaleLoop, hheader, ok_bind,
            if_neg fun hstale => by rw [(stale_of_ok hheader).mpr hstale] at hp; cases hp]
          split
          · exact (ih (s := s.discount p) h hps).bind fun _ hr => hr
          · exact (ih h hps).bind fun _ hr => hr

/-- The scan prints before it goes on to the next packet. -/
theorem dropStaleLoop_nullLog {toDrop : Nat} {dropperMsg : Int} {ps : List QueuedPacket} :
    ∀ {s : DropActiveNetQueue}, s.logFd = false → (∀ p ∈ ps, 43 ≤ p.size) →
      (∃ p ∈ ps, stale toDrop dropperMsg p = true) →
      dropStaleLoop toDrop dropperMsg ps s = .error .nullLog := by
  induction ps with
  | nil => rintro s - - ⟨p, hp, -⟩; cases hp
  | cons p ps ih =>
      rintro s h hsizes ⟨q, hq, hstale⟩
      obtain ⟨hsize, hsizes⟩ := List.forall_mem_cons.mp hsizes
      obtain ⟨header, hheader⟩ := PacketHeader.ofPayload_ok_iff.mpr hsize
      rw [dropStaleLoop, hheader, ok_bind]
      split
      next hfirst =>
        show fprintf s.logFd >>= _ = _
        rw [h]
        rfl
      next hfirst =>
        -- the stale packet is further back
        have hrest : ∃ q ∈ ps, stale toDrop dropperMsg q = true := by
          rcases List.mem_cons.mp hq with rfl | hq
          · exact absurd ((stale_of_ok hheader).mp hstale) hfirst
          · exact ⟨q, hq, hstale⟩
        split
        · rw [ih (s := s.discount p) h hsizes hrest]
          rfl
        · rw [ih h hsizes hrest]
          rfl

/-- An `enqueue` of `p` purges, and comes upon a stale FIRST or SOLO packet. -/
def MeetsStale (s : DropActiveNetQueue) (p : QueuedPacket) : Prop :=
  ∃ header, PacketHeader.ofPayload p.contents = .ok header ∧ header.isUdp = true ∧
    s.fits p = .ok false ∧ header.priority.val = 1 ∧
    ∃ q ∈ s.internalQueue, stale 2 header.msgNo q = true

/-- The guarded line of the active network is not written without a log. -/
theorem logPackets_silent {s : DropActiveNetQueue} (h : s.logFd = false) :
    s.logPackets = .ok () := by
  rw [logPackets, h]
  rfl

/-- An enqueue of the active network writes nothing without a log, unless it meets a stale message.
-/
theorem enqueue_silent {s : DropActiveNetQueue} (h : s.logFd = false) {p : QueuedPacket}
    (hp : ¬ s.MeetsStale p) : Ensures NullLogFree (fun s' => s'.logFd = false) (s.enqueue p) := by
  cases hheader : PacketHeader.ofPayload p.contents with
  | error e =>
      rw [enqueue, hheader]
      exact (ofPayload_nullLogFree p.contents).of_error hheader
  | ok header =>
      rw [enqueue, hheader, ok_bind]
      split
      next hudp =>
        have hroom : Ensures NullLogFree (fun s' => s'.logFd = false) (s.makeRoom p header) := by
          refine (s.fits_nullLogFree p).bind fun fits hfits => ?_
          split
          · exact h
          next hno =>
            split
            next hone =>
              rw [Bool.not_eq_true] at hno
              have hfresh : ∀ q ∈ s.internalQueue, stale 2 header.msgNo q = false := fun q hq =>
                Bool.eq_false_iff.mpr fun hstale =>
                  hp ⟨header, hheader, hudp, hno ▸ hfits, hone, q, hq, hstale⟩
              refine Ensures.bind (P := fun r : Nat × DropActiveNetQueue => r.2.logFd = false) ?_
                fun _ hr => hr
              exact (dropStaleLoop_silent h hfresh).bind fun _ hr => hr
            · exact h
        refine hroom.bind fun s₁ hs₁ => (s₁.fits_nullLogFree p).bind fun fits _ => ?_
        cases fits with
        | true =>
            show Ensures _ _ ((s₁.accept p).logPackets >>= _)
            rw [logPackets_silent (show (s₁.accept p).logFd = false from hs₁)]
            exact hs₁
        | false =>
            show Ensures _ _ (s₁.logPackets >>= _)
            rw [logPackets_silent hs₁]
            exact hs₁
      · exact h

/-- The unguarded line is reached when an enqueue meets a stale message. -/
theorem enqueue_nullLog {s : DropActiveNetQueue} (h : s.logFd = false)
    (hsizes : ∀ q ∈ s.internalQueue, 43 ≤ q.size) {p : QueuedPacket} (hp : s.MeetsStale p) :
    s.enqueue p = .error .nullLog := by
  obtain ⟨header, hheader, hudp, hfits, hone, hstale⟩ := hp
  have hroom : s.makeRoom p header = .error .nullLog := by
    rw [makeRoom, hfits, ok_bind, if_neg (by decide), if_pos hone, dropStaleFrames,
      dropStaleLoop_nullLog h hsizes hstale]
    rfl
  rw [enqueue, hheader, ok_bind, hudp, if_pos rfl, hroom]
  rfl

theorem dequeue_silent {s : DropActiveNetQueue} (h : s.logFd = false) :
    Ensures NullLogFree (fun r => r.2.logFd = false) s.dequeue := by
  refine (popFront_silent h).bind fun r hr => (ofPayload_nullLogFree _).bind fun header _ => ?_
  dsimp only
  rw [logPackets_silent h]
  split
  · exact (assertGood_nullLogFree _).bind fun _ _ => hr
  · exact (assertGood_nullLogFree _).bind fun _ _ => hr

end DropActiveNetQueue

/-! ### Every dropping queue -/

/-- The arguments that all dropping queues share. -/
def QueueArgs.dropping? : QueueArgs → Option DroppingArgs
  | .infinite => none
  | .dropTail a | .dropHead a | .dropBitrateDequeue a | .dropActiveNet a => some a
  | .codel a => some a.toDroppingArgs
  | .pie a => some a.toDroppingArgs

namespace Discipline

/-- There is no log. -/
def silent : Discipline → Bool
  | .infinite _ => true
  | .dropTail q => !q.logFd
  | .dropHead q => !q.logFd
  | .codel q => !q.logFd
  | .pie q => !q.logFd
  | .dropBitrateDequeue q => !q.logFd
  | .dropActiveNet q => !q.logFd

/-- A dropping queue that was given no `log_file` has no log. -/
theorem silent_make {a : QueueArgs} {d : DroppingArgs} (ha : a.dropping? = some d)
    (hlog : d.logFd = false) : a.make.silent = true := by
  cases a <;> cases ha <;> exact Bool.not_eq_true' _ ▸ hlog

/-- An enqueue of any discipline writes nothing without a log, unless it meets a stale message. -/
theorem enqueue_silent {q : Discipline} (hq : q.silent = true) (ts : Nat) {p : QueuedPacket}
    (hp : ∀ s, q = .dropActiveNet s → ¬ s.MeetsStale p) :
    Ensures NullLogFree (fun q' => q'.silent = true) (q.enqueue ts p) := by
  have hsilent : ∀ {b : Bool}, b = false → (!b) = true := fun h => by rw [h]; rfl
  cases q with
  | infinite q => exact rfl
  | dropTail q =>
      exact .map ((DropTailPacketQueue.enqueue_silent (by simpa [silent] using hq) p).mono
        fun _ => hsilent)
  | dropHead q =>
      exact .map ((DropHeadPacketQueue.enqueue_silent (by simpa [silent] using hq) p).mono
        fun _ => hsilent)
  | codel q =>
      exact .map ((CODELPacketQueue.enqueue_silent (by simpa [silent] using hq) p).mono
        fun _ => hsilent)
  | pie q =>
      exact .map ((PIEPacketQueue.enqueue_silent (by simpa [silent] using hq) ts p).mono
        fun _ => hsilent)
  | dropBitrateDequeue q =>
      exact .map ((DropBitrateDequeueQueue.enqueue_silent (by simpa [silent] using hq) ts p).mono
        fun _ => hsilent)
  | dropActiveNet q =>
      exact .map ((DropActiveNetQueue.enqueue_silent (by simpa [silent] using hq) (hp q rfl)).mono
        fun _ => hsilent)

/-- A dequeue of any discipline writes nothing without a log. -/
theorem dequeue_silent {q : Discipline} (hq : q.silent = true) (clock : Nat → Nat) :
    Ensures NullLogFree (fun r => r.2.silent = true) (q.dequeue clock) := by
  have hsilent : ∀ {b : Bool}, b = false → (!b) = true := fun h => by rw [h]; rfl
  cases q with
  | infinite q =>
      refine .map (Ensures.bind (P := fun _ => True) ?_ fun _ _ => rfl)
      show Ensures NullLogFree _ q.toCountedQueue.pop
      unfold CountedQueue.pop
      split
      · exact (by decide : NullLogFree .emptyQueue)
      · trivial
  | dropTail q =>
      refine .map (Ensures.bind (DroppingPacketQueue.dequeue_silent (by simpa [silent] using hq))
        fun _ hr => ?_)
      exact hsilent hr
  | dropHead q =>
      refine .map (Ensures.bind (DroppingPacketQueue.dequeue_silent (by simpa [silent] using hq))
        fun _ hr => ?_)
      exact hsilent hr
  | codel q =>
      exact .map ((CODELPacketQueue.dequeue_silent (by simpa [silent] using hq) (clock 0)).mono
        fun _ => hsilent)
  | pie q =>
      exact .map ((PIEPacketQueue.dequeue_silent (by simpa [silent] using hq) (clock 0)
        (clock 1)).mono fun _ => hsilent)
  | dropBitrateDequeue q =>
      exact .map ((DropBitrateDequeueQueue.dequeue_silent (by simpa [silent] using hq) clock).mono
        fun _ => hsilent)
  | dropActiveNet q =>
      exact .map ((DropActiveNetQueue.dequeue_silent (by simpa [silent] using hq)).mono
        fun _ => hsilent)

/-- What an `enqueue` of the call would meet in the queue. -/
def MeetsStale (q : Discipline) : Call → Prop
  | .enqueue _ arrivalTime contents =>
      ∃ s, q = .dropActiveNet s ∧ s.MeetsStale { arrivalTime, contents }
  | _ => False

/-- A call that meets no stale message does not reach the unguarded line. -/
theorem step_silent {t : Trace} {q : Discipline} (hq : q.silent = true) {c : Call}
    (hc : ¬ q.MeetsStale c) :
    Ensures NullLogFree (fun x : Trace × Discipline => x.2.silent = true) (c.step (t, q)) := by
  cases c with
  | enqueue ts arrivalTime contents =>
      exact (enqueue_silent hq ts fun s hs hmeets => hc ⟨s, hs, hmeets⟩).bind fun _ hq' => hq'
  | dequeue clock => exact (dequeue_silent hq clock).bind fun _ hq' => hq'
  | setBandwidth bandwidth => cases q <;> exact hq

/-- A call that meets one does. -/
theorem step_nullLog {t : Trace} {q : Discipline} (hq : q.silent = true)
    (hsizes : ∀ p ∈ q.internalQueue, 43 ≤ p.size) {c : Call} (hc : q.MeetsStale c) :
    c.step (t, q) = .error .nullLog := by
  cases c with
  | enqueue ts arrivalTime contents =>
      obtain ⟨s, rfl, hmeets⟩ := hc
      have hstop := DropActiveNetQueue.enqueue_nullLog (by simpa [silent] using hq) hsizes hmeets
      show (s.enqueue _).map Discipline.dropActiveNet >>= _ = _
      rw [hstop]
      rfl
  | dequeue clock => exact hc.elim
  | setBandwidth bandwidth => exact hc.elim

/-- All packets of the calls have room for a header. -/
def HeaderSized (calls : List Call) : Prop :=
  ∀ ts arrivalTime contents, .enqueue ts arrivalTime contents ∈ calls → 44 ≤ contents.length

/-- The packets that are queued came in the calls, so they have headers. -/
theorem queued_sizes {a : QueueArgs} {calls : List Call} {t : Trace} {q : Discipline}
    (hsize : HeaderSized calls) (h : run Call.step calls ({}, a.make) = .ok (t, q)) :
    ∀ p ∈ q.internalQueue, 43 ≤ p.size := fun p hp => by
  obtain ⟨ts, hts⟩ := queued_offered h p hp
  exact Nat.le_trans (by decide) (hsize _ _ _ hts)

/-- No call opens the log. -/
theorem run_silent {a : QueueArgs} {d : DroppingArgs} (ha : a.dropping? = some d)
    (hlog : d.logFd = false) {calls : List Call} {t : Trace} {q : Discipline}
    (hsize : HeaderSized calls) (h : run Call.step calls ({}, a.make) = .ok (t, q)) :
    q.silent = true := by
  refine run_induction (P := fun calls x => HeaderSized calls → x.2.silent = true)
    (fun _ => silent_make ha hlog) ?_ h hsize
  rintro done ⟨t, q⟩ c ⟨t', q'⟩ hdone ih hstep hsize
  have hbefore : HeaderSized done := fun ts arrivalTime contents hmem =>
    hsize ts arrivalTime contents (List.mem_append_left _ hmem)
  by_cases hc : q.MeetsStale c
  · rw [step_nullLog (ih hbefore) (queued_sizes hbefore hdone) hc] at hstep
    cases hstep
  · exact (step_silent (ih hbefore) hc).of_ok hstep

/-- **The one line that is not guarded**: a dropping queue without a log writes to it exactly when
an `enqueue` purges and comes upon a stale FIRST or SOLO packet. -/
theorem log_guarded_iff {a : QueueArgs} {d : DroppingArgs} (ha : a.dropping? = some d)
    (hlog : d.logFd = false) {calls : List Call} (hsize : HeaderSized calls) :
    run Call.step calls ({}, a.make) ≠ .error .nullLog ↔
      ∀ done c t q, done ++ [c] <+: calls → run Call.step done ({}, a.make) = .ok (t, q) →
        ¬ q.MeetsStale c := by
  have hbefore : ∀ {done : List Call}, done <+: calls → HeaderSized done :=
    fun hpre ts arrivalTime contents hmem => hsize ts arrivalTime contents (hpre.subset hmem)
  constructor
  · rintro hrun done c t q ⟨rest, rfl⟩ hdone hmeets
    have hpre : done <+: done ++ [c] ++ rest :=
      (List.prefix_append done [c]).trans (List.prefix_append _ rest)
    refine hrun ?_
    rw [run_append, run_append, hdone, ok_bind, run_singleton,
      step_nullLog (run_silent ha hlog (hbefore hpre) hdone)
        (queued_sizes (hbefore hpre) hdone) hmeets]
    rfl
  · intro hcalls he
    have hrun : Ensures NullLogFree (fun x : Trace × Discipline => x.2.silent = true)
        (run Call.step calls ({}, a.make)) := by
      refine ensures_run (P := fun _ (x : Trace × Discipline) => x.2.silent = true)
        (silent_make ha hlog) ?_
      exact fun done x c hq hdone hpre => step_silent hq (hcalls done c x.1 x.2 hpre hdone)
    exact hrun.of_error he rfl

/-- Room for one packet, and no log. -/
def oneUnlogged : DroppingArgs := ⟨1, 0, false, 0, DropActiveNetQueue.onePacket_limited⟩

/-- A SOLO packet of priority 2, and then one of priority 1 and a larger number. -/
def soloThenUrgent : List Call :=
  [.enqueue 0 0 (udpPayload 4433 1 0xc0000001 0x40000000),
    .enqueue 1 1 (udpPayload 4433 2 0xc0000002 0x20000000)]

/-- The solo packet is stale when the urgent one comes. -/
theorem solo_then_urgent_nullLog :
    run Call.step soloThenUrgent ({}, (QueueArgs.dropActiveNet oneUnlogged).make) =
      .error .nullLog :=
  of_map_error (f := fun _ => ()) (by decide +kernel)

theorem log_guarded_iff_soloThenUrgent :
    run Call.step soloThenUrgent ({}, (QueueArgs.dropActiveNet oneUnlogged).make) ≠
        .error .nullLog ↔
      ∀ done c t q, done ++ [c] <+: soloThenUrgent →
        run Call.step done ({}, (QueueArgs.dropActiveNet oneUnlogged).make) = .ok (t, q) →
        ¬ q.MeetsStale c := by
  refine log_guarded_iff (d := oneUnlogged) rfl rfl fun ts arrivalTime contents hmem => ?_
  simp only [soloThenUrgent, List.mem_cons, List.not_mem_nil, or_false, Call.enqueue.injEq] at hmem
  obtain ⟨-, -, rfl⟩ | ⟨-, -, rfl⟩ := hmem <;> decide

end Discipline

end Mahimahi
