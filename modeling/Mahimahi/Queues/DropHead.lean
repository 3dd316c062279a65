import Mahimahi.Queues.Limits

/-!
# Queues — the drop-head queue drops one packet at most

`DropHeadPacketQueue::enqueue` takes the packet and drops from the head until the limits are met.
It drops by `dequeue()`, whose own assertion says that the limits are met after one packet.

* `enqueue_longest_iff`: in every state that a run reaches, `enqueue` leaves the longest suffix that
  meets the limits exactly when dropping one packet is enough.
-/

open Fallible MachineInt

namespace Mahimahi

/-- The two `int` counters of these packets are not negative. -/
def Countable (ps : List QueuedPacket) : Prop := 0 ≤ toI32 (totalBytes ps) ∧ 0 ≤ toI32 ps.length

namespace DroppingPacketQueue

/-- These packets meet both limits. -/
def Allows (q : DroppingPacketQueue) (ps : List QueuedPacket) : Prop :=
  q.Within (totalBytes ps) ps.length

instance (q : DroppingPacketQueue) (ps : List QueuedPacket) : Decidable (q.Allows ps) :=
  inferInstanceAs (Decidable (_ ∧ _))

/-- What `good()` says of these packets, whose sizes it reads in 32 bits. -/
def goodOf (q : DroppingPacketQueue) (ps : List QueuedPacket) : Bool :=
  q.goodWith (toU32 (totalBytes ps)) (toU32 ps.length)

/-- As few packets as possible are gone from the front of `ps`. -/
structure LongestWithin (q : DroppingPacketQueue) (ps left : List QueuedPacket) : Prop where
  suffix : left <:+ ps
  within : q.Allows left
  longest : ∀ qs, qs <:+ ps → q.Allows qs → qs.length ≤ left.length

theorem goodOf_of_allows {q : DroppingPacketQueue} {ps : List QueuedPacket} (h : q.Allows ps) :
    q.goodOf ps = true :=
  goodWith_iff.mpr (Within.mono h (by exact_mod_cast toU32_le _) (by exact_mod_cast toU32_le _))

theorem LongestWithin.whole {q : DroppingPacketQueue} {ps : List QueuedPacket} (h : q.Allows ps) :
    q.LongestWithin ps ps := ⟨List.suffix_rfl, h, fun _ hs _ => hs.length_le⟩

theorem LongestWithin.tail {q : DroppingPacketQueue} {ps : List QueuedPacket}
    (hno : ¬ q.Allows ps) (h : q.Allows ps.tail) : q.LongestWithin ps ps.tail := by
  refine ⟨List.tail_suffix ps, h, fun qs hs hqs => ?_⟩
  have hlt : qs.length ≠ ps.length := fun hlen => hno (hs.eq_of_length hlen ▸ hqs)
  have hle := hs.length_le
  rw [List.length_tail]
  omega

/-! ### What the counters say -/

variable {q : DroppingPacketQueue}

theorem assertGood_ok_iff (hc : q.Counted) :
    q.assertGood = .ok () ↔ Countable q.internalQueue ∧ q.goodOf q.internalQueue = true := by
  constructor
  · intro h
    obtain ⟨bytes, hbytes, h⟩ := bind_ok.mp h
    obtain ⟨packets, hpackets, h⟩ := bind_ok.mp h
    obtain ⟨hb, rfl⟩ := hc.sizeBytes_ok_iff.mp hbytes
    obtain ⟨hp, rfl⟩ := hc.sizePackets_ok_iff.mp hpackets
    split at h
    next hgood => exact ⟨⟨hb, hp⟩, hgood⟩
    · cases h
  · rintro ⟨⟨hb, hp⟩, hgood⟩
    have hgood' : q.goodWith (toU32 (totalBytes q.internalQueue)) (toU32 q.internalQueue.length) =
        true := hgood
    rw [assertGood, hc.sizeBytes_ok_iff.mpr ⟨hb, rfl⟩, hc.sizePackets_ok_iff.mpr ⟨hp, rfl⟩,
      ok_bind, ok_bind, if_pos hgood']
    rfl

/-- The log line of a `dequeue`, which reads the header of the packet. -/
def logFront (q : DroppingPacketQueue) (p : QueuedPacket) : Except Fault Unit :=
  if q.logFd then PacketHeader.ofPayload p.contents >>= fun _ => q.logLine else .ok ()

theorem dequeue_eq {p : QueuedPacket} {q' : DroppingPacketQueue} (h : q.popFront = .ok (p, q')) :
    q.dequeue = q.logFront p >>= fun _ => q'.assertGood >>= fun _ => .ok (p, q') := by
  rw [dequeue, h, ok_bind, logFront]
  dsimp only
  split
  · cases PacketHeader.ofPayload p.contents <;> rfl
  · rfl

theorem logFront_ok_iff (hc : q.Counted) (hcount : Countable q.internalQueue) {p : QueuedPacket} :
    q.logFront p = .ok () ↔ (q.logFd = true → 43 ≤ p.size) := by
  rw [logFront]
  split
  next hlog =>
    have hline : q.logLine = .ok () := by
      rw [logLine, if_pos hlog, hc.sizeBytes_ok_iff.mpr ⟨hcount.1, rfl⟩, ok_bind, hlog]
      rfl
    rw [bind_ok, hline]
    simp only [and_true, hlog, forall_const]
    exact PacketHeader.ofPayload_ok_iff
  next hlog => simp [hlog]

/-- A `dequeue` that goes through: the limits are met after it. -/
theorem dequeue_cons {p : QueuedPacket} {rest : List QueuedPacket} (hc : q.Counted)
    (hq : q.internalQueue = p :: rest) (hcount : Countable (p :: rest)) :
    ∃ q₁ : DroppingPacketQueue, q₁.internalQueue = rest ∧ q₁.Counted ∧ q₁.limits = q.limits ∧
      ∀ r, q.dequeue = .ok r ↔ (q.logFd = true → 43 ≤ p.size) ∧ Countable rest ∧
        q.goodOf rest = true ∧ r = (p, q₁) := by
  obtain ⟨c, hpop⟩ : ∃ c, q.toCountedQueue.pop = .ok (p, c) := ⟨_, CountedQueue.pop_cons hq⟩
  obtain ⟨hlist, hcounted⟩ := CountedQueue.pop_ok hpop
  have hrest : c.internalQueue = rest := by
    rw [hq] at hlist
    exact (List.cons.inj hlist).2.symm
  have hfront : q.popFront = .ok (p, { q with toCountedQueue := c }) := by
    rw [popFront, hpop]
    rfl
  have hgood := assertGood_ok_iff (q := { q with toCountedQueue := c }) (hcounted hc)
  rw [hrest] at hgood
  refine ⟨{ q with toCountedQueue := c }, hrest, hcounted hc, rfl, fun r => ?_⟩
  rw [dequeue_eq hfront, bind_ok]
  simp only [bind_ok, logFront_ok_iff hc (hq ▸ hcount), hgood, Except.ok.injEq, eq_comm (a := r)]
  constructor
  · rintro ⟨-, hlog, -, ⟨hcountable, hgoodOf⟩, hr⟩
    exact ⟨hlog, hcountable, hgoodOf, hr⟩
  · rintro ⟨hlog, hcountable, hgoodOf, hr⟩
    exact ⟨(), hlog, (), ⟨hcountable, hgoodOf⟩, hr⟩

end DroppingPacketQueue

open DroppingPacketQueue

namespace DropHeadPacketQueue

/-- Without the packet, or with the packet and without the one at the head, the limits are met, and
the code sees it. -/
def OneDropEnough (s : DropHeadPacketQueue) (p : QueuedPacket) : Prop :=
  Countable (s.internalQueue ++ [p]) ∧
    (s.Allows (s.internalQueue ++ [p]) ∨
      s.goodOf (s.internalQueue ++ [p]) = false ∧
        Countable (s.internalQueue ++ [p]).tail ∧ s.Allows (s.internalQueue ++ [p]).tail ∧
        (s.logFd = true → ∀ front ∈ (s.internalQueue ++ [p]).head?, 43 ≤ front.size))

theorem dropHead_good {q : DroppingPacketQueue} (hc : q.Counted) {fuel : Nat}
    (hcount : Countable q.internalQueue) (hgood : q.goodOf q.internalQueue = true) :
    dropHead (fuel + 1) q = .ok q := by
  have hgood' : q.goodWith (toU32 (totalBytes q.internalQueue)) (toU32 q.internalQueue.length) =
      true := hgood
  rw [dropHead, hc.sizeBytes_ok_iff.mpr ⟨hcount.1, rfl⟩,
    hc.sizePackets_ok_iff.mpr ⟨hcount.2, rfl⟩, ok_bind, ok_bind, if_pos hgood']
  rfl

theorem dropHead_over {q : DroppingPacketQueue} (hc : q.Counted) {fuel : Nat}
    (hcount : Countable q.internalQueue) (hgood : q.goodOf q.internalQueue = false) :
    dropHead (fuel + 1) q = q.dequeue >>= fun r => dropHead fuel r.2 := by
  have hgood' : q.goodWith (toU32 (totalBytes q.internalQueue)) (toU32 q.internalQueue.length) =
      false := hgood
  rw [dropHead, hc.sizeBytes_ok_iff.mpr ⟨hcount.1, rfl⟩,
    hc.sizePackets_ok_iff.mpr ⟨hcount.2, rfl⟩, ok_bind, ok_bind, hgood']
  rfl

theorem countable_of_dropHead {q q' : DroppingPacketQueue} (hc : q.Counted) {fuel : Nat}
    (h : dropHead (fuel + 1) q = .ok q') : Countable q.internalQueue := by
  obtain ⟨bytes, hbytes, h⟩ := bind_ok.mp h
  obtain ⟨packets, hpackets, -⟩ := bind_ok.mp h
  exact ⟨(hc.sizeBytes_ok_iff.mp hbytes).1, (hc.sizePackets_ok_iff.mp hpackets).1⟩

/-- The loop from a queue over its limits returns after one packet, or not at all: the assertion of
`dequeue` lets it go on only to where it stops. -/
theorem dropHead_one {q : DroppingPacketQueue} {front : QueuedPacket} {rest : List QueuedPacket}
    (hc : q.Counted) (hq : q.internalQueue = front :: rest) (hcount : Countable (front :: rest))
    (hover : q.goodOf (front :: rest) = false) (fuel : Nat) :
    ∃ q₁ : DroppingPacketQueue, q₁.internalQueue = rest ∧
      ∀ q', dropHead (fuel + 2) q = .ok q' ↔ (q.logFd = true → 43 ≤ front.size) ∧
        Countable rest ∧ q.goodOf rest = true ∧ q' = q₁ := by
  obtain ⟨q₁, hq₁, hc₁, hlimits, hdequeue⟩ := dequeue_cons hc hq hcount
  refine ⟨q₁, hq₁, fun q' => ?_⟩
  have hstop : Countable rest → q.goodOf rest = true → dropHead (fuel + 1) q₁ = .ok q₁ :=
    fun hcountable hgood => dropHead_good hc₁ (hq₁ ▸ hcountable)
      (hq₁ ▸ goodWith_iff.mpr ((within_congr hlimits).mpr (goodWith_iff.mp hgood)))
  rw [dropHead_over hc (hq ▸ hcount) (hq ▸ hover), bind_ok]
  constructor
  · rintro ⟨r, hr, h⟩
    obtain ⟨hlog, hcountable, hgood, rfl⟩ := (hdequeue r).mp hr
    rw [hstop hcountable hgood, Except.ok.injEq] at h
    exact ⟨hlog, hcountable, hgood, h.symm⟩
  · rintro ⟨hlog, hcountable, hgood, rfl⟩
    exact ⟨_, (hdequeue _).mpr ⟨hlog, hcountable, hgood, rfl⟩, hstop hcountable hgood⟩

/-- The queue with the packet on its back. -/
theorem enqueue_ok_iff {s s' : DropHeadPacketQueue} {p : QueuedPacket} : s.enqueue p = .ok s' ↔
    dropHead ((s.internalQueue ++ [p]).length + 1) (s.toDroppingPacketQueue.accept p) =
      .ok s'.toDroppingPacketQueue := by
  constructor
  · intro h
    obtain ⟨q, hq, h⟩ := bind_ok.mp h
    cases h
    exact hq
  · exact fun h => bind_ok.mpr ⟨_, h, rfl⟩

theorem enqueue_longest {s : DropHeadPacketQueue} (hc : s.Counted) (p : QueuedPacket) :
    (∃ s', s.enqueue p = .ok s' ∧
      s.LongestWithin (s.internalQueue ++ [p]) s'.internalQueue) ↔ s.OneDropEnough p := by
  have hc' : (s.toDroppingPacketQueue.accept p).Counted := hc.push p
  obtain ⟨front, rest, hps⟩ := List.exists_cons_of_ne_nil
    (show s.internalQueue ++ [p] ≠ [] by simp)
  have hq : (s.toDroppingPacketQueue.accept p).internalQueue = front :: rest := hps
  simp only [enqueue_ok_iff, OneDropEnough, hps, List.length_cons, List.tail_cons, List.head?_cons,
    Option.mem_some_iff, forall_eq']
  by_cases hcount : Countable (front :: rest)
  · cases hgood : s.goodOf (front :: rest) with
    | true =>
        -- the loop does not begin
        have hstop : dropHead (rest.length + 1 + 1) (s.toDroppingPacketQueue.accept p) = .ok _ :=
          dropHead_good hc' (hq ▸ hcount) (hq ▸ hgood)
        constructor
        · rintro ⟨s', hs', hlongest⟩
          rw [← Except.ok.inj (hstop.symm.trans hs'), hq] at hlongest
          exact ⟨hcount, .inl hlongest.within⟩
        · rintro ⟨-, hallows | ⟨hno, -⟩⟩
          · refine ⟨⟨s.toDroppingPacketQueue.accept p⟩, hstop, ?_⟩
            show s.LongestWithin _ (s.toDroppingPacketQueue.accept p).internalQueue
            rw [hq]
            exact .whole hallows
          · cases hno
    | false =>
        have hover : ¬ s.Allows (front :: rest) := fun h => by
          rw [goodOf_of_allows h] at hgood
          cases hgood
        obtain ⟨q₁, hq₁, hone⟩ := dropHead_one hc' hq hcount hgood rest.length
        constructor
        · rintro ⟨s', hs', hlongest⟩
          obtain ⟨hlog, hcountable, -, heq⟩ := (hone _).mp hs'
          rw [heq, hq₁] at hlongest
          exact ⟨hcount, .inr ⟨rfl, hcountable, hlongest.within, hlog⟩⟩
        · rintro ⟨-, hallows | ⟨-, hcountable, hallows, hlog⟩⟩
          · exact absurd hallows hover
          · refine ⟨⟨q₁⟩, (hone _).mpr ⟨hlog, hcountable, goodOf_of_allows hallows, rfl⟩, ?_⟩
            rw [hq₁]
            exact .tail hover hallows
  · refine iff_of_false ?_ fun h => hcount h.1
    rintro ⟨s', hs', -⟩
    exact hcount (hq ▸ countable_of_dropHead hc' hs')

/-- **When `enqueue` leaves the longest suffix within the limits**: when one drop is enough. -/
theorem enqueue_longest_iff {d : DroppingArgs} {calls : List Discipline.Call}
    {t : Discipline.Trace} {s : DropHeadPacketQueue}
    (hrun : run Discipline.Call.step calls ({}, (QueueArgs.dropHead d).make) =
      .ok (t, .dropHead s)) (p : QueuedPacket) :
    (∃ s', s.enqueue p = .ok s' ∧
      s.LongestWithin (s.internalQueue ++ [p]) s'.internalQueue) ↔ s.OneDropEnough p :=
  enqueue_longest (Discipline.run_conserved hrun).counted p

/-- A hundred bytes. -/
theorem hundred_limited : (0 : Nat) ≠ 0 ∨ 100 ≠ 0 := .inr (by decide)

def hundredBytes : DroppingArgs := ⟨0, 100, false, 0, hundred_limited⟩

/-- Two packets of 44 bytes. -/
def twoSmall : List Discipline.Call :=
  [.enqueue 0 0 (List.replicate 44 1), .enqueue 0 0 (List.replicate 44 2)]

def twoQueued : DropHeadPacketQueue where
  toDroppingPacketQueue := { hundredBytes.make with
    queueSizeInBytes := 88
    queueSizeInPackets := 2
    internalQueue := [⟨0, List.replicate 44 1, false⟩, ⟨0, List.replicate 44 2, false⟩] }

theorem run_twoSmall :
    run Discipline.Call.step twoSmall ({}, (QueueArgs.dropHead hundredBytes).make) =
      .ok ({ accepted := twoQueued.internalQueue }, .dropHead twoQueued) := rfl

/-- A packet of 80 bytes fits alone: both of the small ones would have to go. -/
theorem two_drops_fault :
    run Discipline.Call.step twoSmall ({}, (QueueArgs.dropHead hundredBytes).make) =
      .ok ({ accepted := twoQueued.internalQueue }, .dropHead twoQueued) ∧
    twoQueued.Allows [⟨1, List.replicate 80 3, false⟩] ∧
    twoQueued.enqueue ⟨1, List.replicate 80 3, false⟩ = .error .notGood :=
  ⟨run_twoSmall, by decide +kernel, by decide +kernel⟩

/-- For one of 20 bytes, one goes. -/
theorem enqueue_longest_iff_twoQueued :
    (∃ s', twoQueued.enqueue ⟨1, List.replicate 20 3, false⟩ = .ok s' ∧
      twoQueued.LongestWithin (twoQueued.internalQueue ++ [⟨1, List.replicate 20 3, false⟩])
        s'.internalQueue) ↔ twoQueued.OneDropEnough ⟨1, List.replicate 20 3, false⟩ :=
  enqueue_longest_iff run_twoSmall ⟨1, List.replicate 20 3, false⟩

end DropHeadPacketQueue

end Mahimahi
