import Mathlib.Algebra.Order.Floor.Semiring
import Mathlib.Data.NNRat.Floor
import Mahimahi.Library.Due
import Mahimahi.Library.Integers
import Mahimahi.Packet.Header
import Mahimahi.Util.Descriptor

/-!
# Ferry — `LossQueue` and `SwitchingLink`

A `LossQueue` asks about every packet whether to drop it.  A `SwitchingLink` drops what comes while
the link is off; the link starts off and switches at the time it is made, and then after durations
that it draws.

`wait_time` alone moves the link on, up to its own reading of the clock; `read_packet` looks at the
link as `wait_time` has left it.  `onProcess k` and `offProcess k` are what the two processes return
for draw number `k`.  A `SwitchingFerry` remembers what came, when, and whether it was kept.

* `switchAll_upto`: `wait_time` makes the switches that are due.
* `switchAll_returns_iff`: its loop ends exactly when the schedule goes beyond the clock.
* `on_schedule_iff`: a packet fares as the schedule says exactly when the schedule has an even
  number of switches between the last `wait_time` and the packet.
-/

open Fallible MachineInt Due

namespace Mahimahi

structure LossQueue where
  packetQueue : List Payload := []
  deriving DecidableEq, Repr

namespace LossQueue

def readPacket (dropPacket : Bool) (contents : Payload) (q : LossQueue) : LossQueue :=
  if dropPacket then q else { q with packetQueue := q.packetQueue ++ [contents] }

/-- The pieces in which the packets of a queue are written, from call number `n` of `write(2)` on;
the queue is empty then. -/
def writePackets (kernel : Nat → Nat) : Nat → List Payload → Except QueueFault (List (List Payload))
  | _, [] => .ok []
  | n, contents :: rest => do
      let pieces ← FileDescriptor.writeAll kernel n contents
      let written ← writePackets kernel (n + pieces.length) rest
      return pieces :: written

theorem of_writePackets_ok {kernel : Nat → Nat} {n : Nat} {queue : List Payload}
    {written : List (List Payload)} (h : writePackets kernel n queue = .ok written) :
    written.map List.flatten = queue := by
  induction queue generalizing n written with
  | nil => cases h; rfl
  | cons contents rest ih =>
      obtain ⟨pieces, hpieces, h⟩ := bind_ok.mp h
      obtain ⟨written, hwritten, h⟩ := bind_ok.mp h
      cases h
      rw [List.map_cons, (FileDescriptor.writeAll_spec hpieces).1, ih hwritten]

/-- `written` is what the calls of `write(2)` took of the packets of a queue. -/
structure Taken (queue : List Payload) (written : List (List Payload)) : Prop where
  flatten : written.map List.flatten = queue
  calls : queue.length ≤ (written.map List.length).sum
  bytes : (written.map List.length).sum ≤ queue.flatten.length

theorem writePackets_taken {kernel : Nat → Nat} {n : Nat} {queue : List Payload}
    {written : List (List Payload)} (h : writePackets kernel n queue = .ok written) :
    Taken queue written := by
  induction queue generalizing n written with
  | nil => cases h; exact ⟨rfl, by simp, by simp⟩
  | cons contents rest ih =>
      obtain ⟨pieces, hpieces, h⟩ := bind_ok.mp h
      obtain ⟨written, hwritten, h⟩ := bind_ok.mp h
      cases h
      have hne : contents ≠ [] := by
        rintro rfl
        rw [FileDescriptor.writeAll_nil] at hpieces
        cases hpieces
      obtain ⟨hcontents, hcount⟩ := FileDescriptor.writeAll_spec hpieces
      obtain ⟨hsize, hpos⟩ := FileDescriptor.callsFor_bounds kernel n contents.length
      have hfirst := hpos (List.length_pos_iff.mpr hne)
      obtain ⟨hflatten, hcalls, hbytes⟩ := ih hwritten
      refine ⟨?_, ?_, ?_⟩
      · rw [List.map_cons, hcontents, hflatten]
      · rw [List.map_cons, List.sum_cons, List.length_cons]
        omega
      · rw [List.map_cons, List.sum_cons, List.flatten_cons, List.length_append]
        omega

/-- What stops the writing is an empty packet. -/
theorem writePackets_ensures (kernel : Nat → Nat) (n : Nat) (queue : List Payload) :
    Ensures (fun e => e = .nothingToWrite ∧ [] ∈ queue) (Taken queue)
      (writePackets kernel n queue) := by
  refine Ensures.and_ok ?_ fun _ h => writePackets_taken h
  induction queue generalizing n with
  | nil => trivial
  | cons contents rest ih =>
      rw [writePackets]
      by_cases hempty : contents = []
      · subst hempty
        rw [FileDescriptor.writeAll_nil]
        exact ⟨rfl, List.mem_cons_self⟩
      · obtain ⟨pieces, hpieces, -⟩ := FileDescriptor.writeAll_ok kernel n hempty
        rw [hpieces, ok_bind]
        refine Ensures.bind ((ih _).mono_error fun e he => ?_) fun _ _ => trivial
        exact ⟨he.1, List.mem_cons_of_mem _ he.2⟩

/-- The packets of a queue are written if none of them is empty. -/
theorem writePackets_returns (kernel : Nat → Nat) {n : Nat} {queue : List Payload}
    (h : ∀ c ∈ queue, c ≠ []) : ∃ written, writePackets kernel n queue = .ok written := by
  cases hwrite : writePackets kernel n queue with
  | error e => exact absurd rfl (h [] ((writePackets_ensures kernel n queue).of_error hwrite).2)
  | ok written => exact ⟨written, rfl⟩

def waitTime (q : LossQueue) : Nat := if q.packetQueue = [] then 2 ^ 16 - 1 else 0

end LossQueue

structure SwitchingLink extends LossQueue where
  linkIsOn : Bool := false
  nextSwitchTime : Nat
  /-- the draws from the two processes so far -/
  draws : Nat := 0
  deriving DecidableEq, Repr

/-- What stops a switching link: an exception, or the loop of `wait_time` takes more turns than it
is given. -/
inductive SwitchFault where
  | queue (f : QueueFault)
  | outOfFuel
  deriving DecidableEq, Repr

/-- `bound( x )`: at most 2^30, and else the integer part. -/
def bound (x : ℚ≥0) : Nat := if 2 ^ 30 < x then 2 ^ 30 else ⌊x⌋₊

theorem bound_le (x : ℚ≥0) : bound x ≤ 2 ^ 30 := by
  unfold bound
  split
  · exact le_refl _
  · next h => exact Nat.floor_le_of_le (by exact_mod_cast not_lt.mp h)

namespace SwitchingLink

variable (onProcess offProcess : Nat → ℚ≥0)

/-- A turn of the loop of `wait_time`. -/
def switch (s : SwitchingLink) : SwitchingLink :=
  let linkIsOn := !s.linkIsOn
  let draw := (if linkIsOn then offProcess else onProcess) s.draws
  { s with
    linkIsOn
    nextSwitchTime := toU64 (s.nextSwitchTime + bound draw : Nat)
    draws := s.draws + 1 }

def switchAll (now : Nat) : Nat → SwitchingLink → Except SwitchFault SwitchingLink
  | 0, _ => .error .outOfFuel
  | fuel + 1, s =>
      if s.nextSwitchTime ≤ now then switchAll now fuel (s.switch onProcess offProcess) else .ok s

def waitTime (fuel now : Nat) (s : SwitchingLink) : Except SwitchFault (Nat × SwitchingLink) := do
  let s ← s.switchAll onProcess offProcess now fuel
  if s.toLossQueue.waitTime = 0 then return (0, s)
  let gap := toU64 (s.nextSwitchTime - now)
  return (if 2 ^ 16 - 1 < gap then 2 ^ 16 - 1 else toU32 gap, s)

def dropPacket (s : SwitchingLink) : Bool := !s.linkIsOn

def readPacket (contents : Payload) (s : SwitchingLink) : SwitchingLink :=
  { s with toLossQueue := s.toLossQueue.readPacket s.dropPacket contents }

/-! ### The schedule -/

/-- The link is on for the durations with an even number. -/
def duration (k : Nat) : Nat := bound ((if Even k then offProcess else onProcess) k)

/-- The time of switch number `k`, for a link that is made at `start`. -/
def switchTime (start : Nat) : Nat → Nat
  | 0 => start
  | k + 1 => switchTime start k + duration onProcess offProcess k

variable {onProcess offProcess} {start now : Nat} {s s' : SwitchingLink}

theorem switchTime_mono : Monotone (switchTime onProcess offProcess start) :=
  monotone_nat_of_le_succ fun _ => Nat.le_add_right _ _

/-- Durations that are all the same. -/
theorem dueBy_steady {d : ℚ≥0} (start t : Nat) (hd : 0 < bound d) :
    DueBy (switchTime (fun _ => d) (fun _ => d) start) (start + t) (t / bound d + 1) := by
  intro k
  have htime : switchTime (fun _ => d) (fun _ => d) start k = start + k * bound d := by
    induction k with
    | zero => rw [Nat.zero_mul]; rfl
    | succ k ih => rw [switchTime, ih, duration, ite_self, Nat.succ_mul, Nat.add_assoc]
  rw [htime, Nat.add_le_add_iff_left, ← Nat.le_div_iff_mul_le hd, Nat.lt_succ_iff]

/-- `s` has made the first switches of the schedule. -/
structure OnSchedule (onProcess offProcess : Nat → ℚ≥0) (start : Nat) (s : SwitchingLink) :
    Prop where
  next : s.nextSwitchTime = switchTime onProcess offProcess start s.draws
  on : s.linkIsOn = true ↔ Odd s.draws

theorem onSchedule_start (onProcess offProcess : Nat → ℚ≥0) (start : Nat) :
    OnSchedule onProcess offProcess start { nextSwitchTime := start } where
  next := rfl
  on := iff_of_false Bool.false_ne_true Nat.not_odd_zero

theorem OnSchedule.switch (hs : OnSchedule onProcess offProcess start s)
    (hnow : now < 2 ^ 64 - 2 ^ 30) (hle : s.nextSwitchTime ≤ now) :
    OnSchedule onProcess offProcess start (s.switch onProcess offProcess) := by
  have hon : (!s.linkIsOn) = true ↔ Even s.draws := by
    rw [Bool.not_eq_true', ← Bool.not_eq_true, hs.on, Nat.not_odd_iff_even]
  have hdraw : bound ((if (!s.linkIsOn) = true then offProcess else onProcess) s.draws) =
      duration onProcess offProcess s.draws := by
    rw [duration, if_congr hon rfl rfl]
  have hfits : duration onProcess offProcess s.draws ≤ 2 ^ 30 := bound_le _
  refine ⟨?_, hon.trans (Nat.odd_add_one.trans Nat.not_odd_iff_even).symm⟩
  calc (s.switch onProcess offProcess).nextSwitchTime
      = toU64 (s.nextSwitchTime + duration onProcess offProcess s.draws : Nat) := by
        rw [← hdraw]; rfl
    _ = s.nextSwitchTime + duration onProcess offProcess s.draws := by
        rw [toU64_of_range (by omega) (by omega), Int.toNat_natCast]
    _ = switchTime onProcess offProcess start (s.draws + 1) := by rw [hs.next]; rfl

theorem OnSchedule.past (hs : OnSchedule onProcess offProcess start s)
    (hpast : ∀ k < s.draws, switchTime onProcess offProcess start k ≤ now)
    (hle : s.nextSwitchTime ≤ now) :
    ∀ k < (s.switch onProcess offProcess).draws, switchTime onProcess offProcess start k ≤ now := by
  intro k hk
  rcases Nat.lt_succ_iff_lt_or_eq.mp (show k < s.draws + 1 from hk) with hk | rfl
  · exact hpast k hk
  · exact hs.next ▸ hle

theorem switchAll_due {fuel : Nat} (hle : s.nextSwitchTime ≤ now) :
    s.switchAll onProcess offProcess now (fuel + 1) =
      (s.switch onProcess offProcess).switchAll onProcess offProcess now fuel := by
  rw [switchAll, if_pos hle]

theorem switchAll_late {fuel : Nat} (hlt : now < s.nextSwitchTime) :
    s.switchAll onProcess offProcess now (fuel + 1) = .ok s := by
  rw [switchAll, if_neg (Nat.not_le.mpr hlt)]

/-- **`wait_time` makes the switches that are due**, no more and no fewer. -/
theorem switchAll_upto {fuel : Nat} (hs : OnSchedule onProcess offProcess start s)
    (hnow : now < 2 ^ 64 - 2 ^ 30)
    (hpast : ∀ k < s.draws, switchTime onProcess offProcess start k ≤ now)
    (h : s.switchAll onProcess offProcess now fuel = .ok s') :
    OnSchedule onProcess offProcess start s' ∧
      DueBy (switchTime onProcess offProcess start) now s'.draws ∧
      s'.packetQueue = s.packetQueue := by
  induction fuel generalizing s with
  | zero => cases h
  | succ fuel ih =>
      rcases Nat.lt_or_ge now s.nextSwitchTime with hlt | hle
      · rw [switchAll_late hlt] at h
        cases h
        exact ⟨hs, dueBy_of switchTime_mono hpast (hs.next ▸ hlt), rfl⟩
      · rw [switchAll_due hle] at h
        exact ih (s := s.switch onProcess offProcess) (hs.switch hnow hle) (hs.past hpast hle) h

/-- **The loop of `wait_time` ends exactly when the schedule goes beyond the clock.** -/
theorem switchAll_returns_iff (hs : OnSchedule onProcess offProcess start s)
    (hnow : now < 2 ^ 64 - 2 ^ 30)
    (hpast : ∀ k < s.draws, switchTime onProcess offProcess start k ≤ now) :
    (∃ fuel s', s.switchAll onProcess offProcess now fuel = .ok s') ↔
      ∃ k, now < switchTime onProcess offProcess start k := by
  constructor
  · rintro ⟨fuel, s', h⟩
    exact (exists_dueBy_iff switchTime_mono).mp ⟨_, (switchAll_upto hs hnow hpast h).2.1⟩
  · rintro ⟨k, hk⟩
    induction hfuel : k - s.draws generalizing s with
    | zero =>
        refine ⟨1, s, switchAll_late (hs.next ▸ hk.trans_le (switchTime_mono ?_))⟩
        omega
    | succ n ih =>
        rcases Nat.lt_or_ge now s.nextSwitchTime with hlt | hle
        · exact ⟨1, s, switchAll_late hlt⟩
        · obtain ⟨fuel, s', h⟩ := ih (hs.switch hnow hle) (hs.past hpast hle)
            (show k - (s.draws + 1) = n by omega)
          exact ⟨fuel + 1, s', (switchAll_due hle).trans h⟩

theorem of_waitTime_ok {fuel wait : Nat}
    (h : s.waitTime onProcess offProcess fuel now = .ok (wait, s')) :
    s.switchAll onProcess offProcess now fuel = .ok s' := by
  obtain ⟨t, ht, h⟩ := bind_ok.mp h
  rw [ht]
  split at h <;> cases h
  · rfl
  · rfl

end SwitchingLink

/-- A packet that `read_packet` was given, the time, and the reading of the `wait_time` before. -/
structure Received where
  time : Nat
  contents : Payload
  waited : Option Nat
  kept : Bool
  deriving DecidableEq, Repr

structure SwitchingFerry where
  link : SwitchingLink
  waited : Option Nat := none
  /-- the calls of `write(2)` so far -/
  writes : Nat := 0
  received : List Received := []
  written : List (List Payload) := []
  deriving DecidableEq, Repr

namespace SwitchingFerry

variable (onProcess offProcess : Nat → ℚ≥0) (kernel : Nat → Nat) (fuel : Nat)

def readPacket (now : Nat) (contents : Payload) (s : SwitchingFerry) : SwitchingFerry :=
  { s with
    link := s.link.readPacket contents
    received := s.received ++ [⟨now, contents, s.waited, !s.link.dropPacket⟩] }

def writePackets (s : SwitchingFerry) : Except SwitchFault SwitchingFerry := do
  let written ← (LossQueue.writePackets kernel s.writes s.link.packetQueue).mapError .queue
  return { s with
    link := { s.link with packetQueue := [] }
    writes := s.writes + (written.map List.length).sum
    written := s.written ++ written }

/-- A call, and the clock when it is made; `read_packet` does not look at the clock. -/
inductive Call where
  | waitTime (now : Nat)
  | readPacket (now : Nat) (contents : Payload)
  | writePackets
  deriving DecidableEq, Repr

def Call.step : Call → SwitchingFerry → Except SwitchFault SwitchingFerry
  | .waitTime now, s => do
      let (_, link) ← s.link.waitTime onProcess offProcess fuel now
      return { s with link, waited := some now }
  | .readPacket now contents, s => .ok (s.readPacket now contents)
  | .writePackets, s => s.writePackets kernel

def Call.clock? : Call → Option Nat
  | .waitTime now | .readPacket now _ => some now
  | .writePackets => none

def Call.packet? : Call → Option (Nat × Payload)
  | .readPacket now contents => some (now, contents)
  | _ => none

def clocks (calls : List Call) : List Nat := calls.filterMap Call.clock?

variable {onProcess offProcess kernel fuel} {start w now : Nat} {s s' : SwitchingFerry}

/-- The link stands where the schedule was at `w`, and every packet has fared as it stood then. -/
structure Upto (onProcess offProcess : Nat → ℚ≥0) (start w : Nat) (s : SwitchingFerry) : Prop where
  waited : s.waited = some w
  schedule : SwitchingLink.OnSchedule onProcess offProcess start s.link
  due : DueBy (SwitchingLink.switchTime onProcess offProcess start) w s.link.draws
  received : ∀ r ∈ s.received, ∃ w m, r.waited = some w ∧ w ≤ r.time ∧
    DueBy (SwitchingLink.switchTime onProcess offProcess start) w m ∧ (r.kept = true ↔ Odd m)
  sent : s.written.map List.flatten ++ s.link.packetQueue =
    (s.received.filter Received.kept).map Received.contents

theorem of_step_waitTime
    (h : Call.step onProcess offProcess kernel fuel (.waitTime now) s = .ok s') :
    ∃ link, s.link.switchAll onProcess offProcess now fuel = .ok link ∧
      s' = { s with link, waited := some now } := by
  obtain ⟨⟨wait, link⟩, hlink, h⟩ := bind_ok.mp h
  cases h
  exact ⟨link, SwitchingLink.of_waitTime_ok hlink, rfl⟩

theorem upto_first (hnow : now < 2 ^ 64 - 2 ^ 30)
    (h : Call.step onProcess offProcess kernel fuel (.waitTime now)
      { link := { nextSwitchTime := start } } = .ok s) : s.Upto onProcess offProcess start now := by
  obtain ⟨link, hlink, rfl⟩ := of_step_waitTime h
  obtain ⟨hschedule, hdue, hqueue⟩ := SwitchingLink.switchAll_upto
    (SwitchingLink.onSchedule_start onProcess offProcess start) hnow
    (fun k hk => absurd hk (Nat.not_lt_zero k)) hlink
  exact ⟨rfl, hschedule, hdue, fun _ hr => absurd hr List.not_mem_nil, hqueue⟩

namespace Upto

theorem waitTime (hs : s.Upto onProcess offProcess start w) (hw : w ≤ now)
    (hnow : now < 2 ^ 64 - 2 ^ 30)
    (h : Call.step onProcess offProcess kernel fuel (.waitTime now) s = .ok s') :
    s'.Upto onProcess offProcess start now ∧ s'.received = s.received := by
  obtain ⟨link, hlink, rfl⟩ := of_step_waitTime h
  obtain ⟨hschedule, hdue, hqueue⟩ := SwitchingLink.switchAll_upto hs.schedule hnow
    (fun k hk => ((hs.due k).mpr hk).trans hw) hlink
  refine ⟨⟨rfl, hschedule, hdue, hs.received, ?_⟩, rfl⟩
  rw [← hs.sent]
  exact congrArg _ hqueue

theorem readPacket (hs : s.Upto onProcess offProcess start w) (hw : w ≤ now) (contents : Payload) :
    (s.readPacket now contents).Upto onProcess offProcess start w where
  waited := hs.waited
  schedule := ⟨hs.schedule.next, hs.schedule.on⟩
  due := hs.due
  received := by
    intro r hr
    rcases List.mem_append.mp hr with hr | hr
    · exact hs.received r hr
    · rw [List.mem_singleton.mp hr]
      refine ⟨w, _, hs.waited, hw, hs.due, ?_⟩
      show (!(!s.link.linkIsOn)) = true ↔ _
      rw [Bool.not_not]
      exact hs.schedule.on
  sent := by
    show s.written.map List.flatten ++
      (s.link.toLossQueue.readPacket s.link.dropPacket contents).packetQueue = _
    rw [SwitchingFerry.readPacket, List.filter_append, List.map_append, ← hs.sent,
      List.append_assoc]
    congr 1
    unfold LossQueue.readPacket
    cases s.link.dropPacket
    · rfl
    · exact (List.append_nil _).symm

theorem writePackets (hs : s.Upto onProcess offProcess start w)
    (h : s.writePackets kernel = .ok s') :
    s'.Upto onProcess offProcess start w ∧ s'.received = s.received := by
  obtain ⟨written, hwritten, h⟩ := bind_ok.mp h
  cases h
  refine ⟨⟨hs.waited, ⟨hs.schedule.next, hs.schedule.on⟩, hs.due, hs.received, ?_⟩, rfl⟩
  rw [List.map_append, LossQueue.of_writePackets_ok (of_mapError_ok hwritten), List.append_nil]
  exact hs.sent

end Upto

/-- What holds after `wait_time` at `first` and then `calls`. -/
structure Follows (onProcess offProcess : Nat → ℚ≥0) (start first : Nat) (calls : List Call)
    (s : SwitchingFerry) : Prop where
  upto : ∃ w ∈ clocks (.waitTime first :: calls), s.Upto onProcess offProcess start w
  received : s.received.map (fun r => (r.time, r.contents)) = calls.filterMap Call.packet?

variable {first : Nat} {calls : List Call}

theorem clocks_append (calls calls' : List Call) :
    clocks (calls ++ calls') = clocks calls ++ clocks calls' := List.filterMap_append

theorem Follows.step (hs : s.Follows onProcess offProcess start first calls) {c : Call}
    (hclock : (clocks (.waitTime first :: calls ++ [c])).Pairwise (· ≤ ·))
    (hrange : ∀ t ∈ clocks (.waitTime first :: calls ++ [c]), t < 2 ^ 64 - 2 ^ 30)
    (h : Call.step onProcess offProcess kernel fuel c s = .ok s') :
    s'.Follows onProcess offProcess start first (calls ++ [c]) := by
  obtain ⟨⟨w, hw, hupto⟩, hreceived⟩ := hs
  rw [clocks_append] at hclock hrange
  have hlast := (List.pairwise_append.mp hclock).2.2 w hw
  have happend : ∀ {t}, t ∈ clocks (.waitTime first :: calls) ++ clocks [c] →
      t ∈ clocks (.waitTime first :: (calls ++ [c])) := fun ht => by
    rwa [← List.cons_append, clocks_append]
  cases c with
  | waitTime now =>
      have hnow : now ∈ clocks [.waitTime now] := List.mem_singleton.mpr rfl
      obtain ⟨hs', hsame⟩ :=
        hupto.waitTime (hlast now hnow) (hrange now (List.mem_append_right _ hnow)) h
      refine ⟨⟨now, happend (List.mem_append_right _ hnow), hs'⟩, ?_⟩
      rw [hsame, hreceived, List.filterMap_append]
      exact (List.append_nil _).symm
  | readPacket now contents =>
      have hnow : now ∈ clocks [.readPacket now contents] := List.mem_singleton.mpr rfl
      cases h
      refine ⟨⟨w, happend (List.mem_append_left _ hw),
        hupto.readPacket (hlast now hnow) contents⟩, ?_⟩
      rw [SwitchingFerry.readPacket, List.map_append, hreceived, List.filterMap_append]
      rfl
  | writePackets =>
      obtain ⟨hs', hsame⟩ := hupto.writePackets h
      refine ⟨⟨w, happend (List.mem_append_left _ hw), hs'⟩, ?_⟩
      rw [hsame, hreceived, List.filterMap_append]
      exact (List.append_nil _).symm

/-- **Every run that begins with `wait_time`.** -/
theorem run_follows (hclock : (clocks (.waitTime first :: calls)).Pairwise (· ≤ ·))
    (hrange : ∀ t ∈ clocks (.waitTime first :: calls), t < 2 ^ 64 - 2 ^ 30)
    (h : run (Call.step onProcess offProcess kernel fuel) (.waitTime first :: calls)
      { link := { nextSwitchTime := start } } = .ok s) :
    s.Follows onProcess offProcess start first calls := by
  rw [run_cons] at h
  obtain ⟨s₁, hfirst, h⟩ := bind_ok.mp h
  have hs₁ : s₁.Follows onProcess offProcess start first [] := by
    refine ⟨⟨first, List.mem_cons_self, upto_first (hrange first List.mem_cons_self) hfirst⟩, ?_⟩
    obtain ⟨_, -, rfl⟩ := of_step_waitTime hfirst
    rfl
  have hrun : Ensures (fun _ => True) (Follows onProcess offProcess start first calls)
      (run (Call.step onProcess offProcess kernel fuel) calls s₁) := by
    refine ensures_run (P := Follows onProcess offProcess start first) hs₁
      fun done s c hs _ hgrow => ensures_iff.mpr fun s' hstep => ?_
    have hsublist : (clocks (.waitTime first :: done ++ [c])).Sublist
        (clocks (.waitTime first :: calls)) := (hgrow.sublist.cons_cons _).filterMap _
    exact hs.step (hclock.sublist hsublist) (fun t ht => hrange t (hsublist.subset ht)) hstep
  exact hrun.of_ok h

/-- **A packet fares as the schedule says** exactly when the schedule has an even number of switches
after the last `wait_time` and not after the packet; and what is kept is written or queued, in
order. -/
theorem on_schedule_iff (hclock : (clocks (.waitTime first :: calls)).Pairwise (· ≤ ·))
    (hrange : ∀ t ∈ clocks (.waitTime first :: calls), t < 2 ^ 64 - 2 ^ 30)
    (h : run (Call.step onProcess offProcess kernel fuel) (.waitTime first :: calls)
      { link := { nextSwitchTime := start } } = .ok s) :
    s.received.map (fun r => (r.time, r.contents)) = calls.filterMap Call.packet? ∧
    s.written.map List.flatten ++ s.link.packetQueue =
      (s.received.filter Received.kept).map Received.contents ∧
    ∀ r ∈ s.received, ∃ w m, r.waited = some w ∧
      DueBy (SwitchingLink.switchTime onProcess offProcess start) w m ∧
      ∀ n, DueBy (SwitchingLink.switchTime onProcess offProcess start) r.time n →
        ((r.kept = true ↔ Odd n) ↔ Even (n - m)) := by
  obtain ⟨⟨_, -, hs⟩, hreceived⟩ := run_follows hclock hrange h
  refine ⟨hreceived, hs.sent, fun r hr => ?_⟩
  obtain ⟨w, m, hwaited, hw, hm, hkept⟩ := hs.received r hr
  refine ⟨w, m, hwaited, hm, fun n hn => ?_⟩
  calc (r.kept = true ↔ Odd n) ↔ (Odd m ↔ Odd n) := by rw [hkept]
    _ ↔ (Even n ↔ Even m) := by
        rw [← Nat.not_odd_iff_even, ← Nat.not_odd_iff_even, not_iff_not]
        exact Iff.comm
    _ ↔ Even (n - m) := (Nat.even_sub (hm.mono hn hw)).symm

theorem on_schedule_iff_inTime :
    ∃ s, run (Call.step (fun _ => 10) (fun _ => 10) (fun _ => 0) 2)
        [.waitTime 0, .readPacket 5 [1]] { link := { nextSwitchTime := 0 } } = .ok s ∧
      s.received = [⟨5, [1], some 0, true⟩] ∧
      ∃ m, DueBy (SwitchingLink.switchTime (fun _ => 10) (fun _ => 10) 0) 0 m ∧
        ∀ n, DueBy (SwitchingLink.switchTime (fun _ => 10) (fun _ => 10) 0) 5 n →
          ((true = true ↔ Odd n) ↔ Even (n - m)) := by
  obtain ⟨s, hrun, hreceived⟩ : ∃ s, run (Call.step (fun _ => 10) (fun _ => 10) (fun _ => 0) 2)
      [.waitTime 0, .readPacket 5 [1]] { link := { nextSwitchTime := 0 } } = .ok s ∧
      s.received = [⟨5, [1], some 0, true⟩] := ⟨_, rfl, rfl⟩
  obtain ⟨w, m, hwaited, hm, hfares⟩ := (on_schedule_iff (by decide) (by decide) hrun).2.2
    ⟨5, [1], some 0, true⟩ (by rw [hreceived]; exact List.mem_singleton.mpr rfl)
  cases hwaited
  exact ⟨s, hrun, hreceived, m, hm, hfares⟩

/-- The link is on from 0 to 10 and off from then on to 20; a packet that comes at 12, before the
next `wait_time`, is kept. -/
theorem late_packet_kept :
    ∃ s, run (Call.step (fun _ => 10) (fun _ => 10) (fun _ => 0) 2)
        [.waitTime 0, .readPacket 12 [1]] { link := { nextSwitchTime := 0 } } = .ok s ∧
      s.received = [⟨12, [1], some 0, true⟩] ∧
      DueBy (SwitchingLink.switchTime (fun _ => 10) (fun _ => 10) 0) 12 2 :=
  ⟨_, rfl, rfl, SwitchingLink.dueBy_steady 0 12 (by decide)⟩

end SwitchingFerry

end Mahimahi
