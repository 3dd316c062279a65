import Mathlib.Data.List.Forall2
import Mathlib.Order.Monotone.Defs
import Mahimahi.Library.Integers
import Mahimahi.Packet.Header
import Mahimahi.Util.Descriptor

/-!
# Ferry — `DelayQueue`

Every packet leaves `delay_ms_` after it came.  The queue looks at its head only, so what it does
rests on the release times being in order.

`clock k` is reading number `k` of the clock, in a run that has a clock that never goes back;
`kernel` decides how `write(2)` takes what it is given.  A `DelayFerry` is the queue with what was
read of both so far, and remembers what came and what left.

* `Held`: what left and what is queued is what came, in order, and nothing left early.
* `pollOut_eq`: what `Poller::poll` makes of a call of `write_packets`.
* `delay_queue_keeps`: both over every run.
-/

open Fallible MachineInt Loops

namespace Mahimahi

structure DelayQueue where
  delayMs : Nat
  /-- release timestamp, contents -/
  packetQueue : List (Nat × Payload) := []
  deriving DecidableEq, Repr

namespace DelayQueue

def readPacket (now : Nat) (contents : Payload) (q : DelayQueue) : DelayQueue :=
  { q with packetQueue := q.packetQueue ++ [(toU64 (now + q.delayMs : Nat), contents)] }

/-- The difference of the times is returned as an `unsigned int`. -/
def waitTime (now : Nat) (q : DelayQueue) : Nat :=
  match q.packetQueue with
  | [] => 2 ^ 16 - 1
  | (release, _) :: _ => if release ≤ now then 0 else toU32 (release - now)

def pendingOutput (now : Nat) (q : DelayQueue) : Bool := q.waitTime now ≤ 0

end DelayQueue

/-- A packet that `read_packet` was given, and the reading of the clock. -/
structure Arrival where
  time : Nat
  contents : Payload
  deriving DecidableEq, Repr

/-- A packet that `write_packets` wrote: the reading at which it was found due, and the pieces that
the kernel took. -/
structure Departure where
  time : Nat
  pieces : List Payload
  deriving DecidableEq, Repr

structure DelayFerry where
  queue : DelayQueue
  /-- the readings of the clock so far -/
  ticks : Nat := 0
  /-- the calls of `write(2)` so far -/
  writes : Nat := 0
  arrived : List Arrival := []
  departed : List Departure := []
  deriving DecidableEq, Repr

namespace DelayFerry

variable (clock kernel : Nat → Nat)

def tick (s : DelayFerry) : DelayFerry := { s with ticks := s.ticks + 1 }

def readPacket (contents : Payload) (s : DelayFerry) : DelayFerry :=
  { s.tick with
    queue := s.queue.readPacket (clock s.ticks) contents
    arrived := s.arrived ++ [⟨clock s.ticks, contents⟩] }

/-- `wait_time` and `pending_output` read the clock unless the queue is empty. -/
def look (s : DelayFerry) : DelayFerry := if s.queue.packetQueue = [] then s else s.tick

theorem look_cases (s : DelayFerry) : s.look = s ∨ s.look = s.tick := ite_eq_or_eq _ _ _

theorem look_arrived (s : DelayFerry) : s.look.arrived = s.arrived := by
  rcases look_cases s with hlook | hlook <;> rw [hlook]
  rfl

theorem look_grows (s : DelayFerry) :
    s.queue.packetQueue <+: s.look.queue.packetQueue ∧ s.ticks ≤ s.look.ticks := by
  rcases look_cases s with hlook | hlook <;> rw [hlook]
  · exact ⟨List.prefix_refl _, le_refl _⟩
  · exact ⟨List.prefix_refl _, Nat.le_succ _⟩

/-- The head of the queue was found due, and written. -/
def sent (rest : List (Nat × Payload)) (pieces : List Payload) (s : DelayFerry) : DelayFerry :=
  { s.tick with
    queue := { s.queue with packetQueue := rest }
    writes := s.writes + pieces.length
    departed := s.departed ++ [⟨clock s.ticks, pieces⟩] }

/-- A turn of the loop of `write_packets`. -/
def writeStep (s : DelayFerry) : Except QueueFault (Next DelayFerry DelayFerry) :=
  match s.queue.packetQueue with
  | [] => .ok (.stop s)
  | (release, contents) :: rest =>
      if release ≤ clock s.ticks then do
        let pieces ← FileDescriptor.writeAll kernel s.writes contents
        return .more (s.sent clock rest pieces)
      else .ok (.stop s.tick)

variable {clock kernel} {s s' : DelayFerry}

theorem writeStep_nil (h : s.queue.packetQueue = []) :
    s.writeStep clock kernel = .ok (.stop s) := by
  rw [writeStep, h]

theorem writeStep_due {release : Nat} {contents : Payload} {rest : List (Nat × Payload)}
    (h : s.queue.packetQueue = (release, contents) :: rest) (hdue : release ≤ clock s.ticks) :
    s.writeStep clock kernel = (FileDescriptor.writeAll kernel s.writes contents).map fun pieces =>
      .more (s.sent clock rest pieces) := by
  rw [writeStep, h]
  exact if_pos hdue

theorem writeStep_early {release : Nat} {contents : Payload} {rest : List (Nat × Payload)}
    (h : s.queue.packetQueue = (release, contents) :: rest) (hdue : ¬ release ≤ clock s.ticks) :
    s.writeStep clock kernel = .ok (.stop s.tick) := by
  rw [writeStep, h]
  exact if_neg hdue

/-- What a turn that goes on has done. -/
theorem writeStep_more (h : s.writeStep clock kernel = .ok (.more s')) :
    ∃ release contents rest pieces, s.queue.packetQueue = (release, contents) :: rest ∧
      release ≤ clock s.ticks ∧ FileDescriptor.writeAll kernel s.writes contents = .ok pieces ∧
      s' = s.sent clock rest pieces := by
  cases hq : s.queue.packetQueue with
  | nil =>
      rw [writeStep_nil hq] at h
      cases h
  | cons p rest =>
      obtain ⟨release, contents⟩ := p
      by_cases hdue : release ≤ clock s.ticks
      · rw [writeStep_due hq hdue] at h
        obtain ⟨pieces, hpieces, hnext⟩ := of_map_ok h
        cases hnext
        exact ⟨release, contents, rest, pieces, rfl, hdue, hpieces, rfl⟩
      · rw [writeStep_early hq hdue] at h
        cases h

/-- What a turn that stops has found. -/
theorem writeStep_stop (h : s.writeStep clock kernel = .ok (.stop s')) :
    (s.queue.packetQueue = [] ∧ s' = s) ∨
      ∃ release contents rest, s.queue.packetQueue = (release, contents) :: rest ∧
        clock s.ticks < release ∧ s' = s.tick := by
  cases hq : s.queue.packetQueue with
  | nil =>
      rw [writeStep_nil hq] at h
      cases h
      exact .inl ⟨rfl, rfl⟩
  | cons p rest =>
      obtain ⟨release, contents⟩ := p
      by_cases hdue : release ≤ clock s.ticks
      · rw [writeStep_due hq hdue] at h
        obtain ⟨pieces, -, hnext⟩ := of_map_ok h
        cases hnext
      · rw [writeStep_early hq hdue] at h
        cases h
        exact .inr ⟨release, contents, rest, rfl, Nat.not_le.mp hdue, rfl⟩

variable (clock kernel)

def writeLoop : Loop QueueFault DelayFerry DelayFerry where
  step := writeStep clock kernel
  measure s := s.queue.packetQueue.length
  shrinks h := by
    obtain ⟨_, _, rest, pieces, hq, -, -, rfl⟩ := writeStep_more h
    rw [hq]
    exact Nat.lt_succ_self _

def writePackets (s : DelayFerry) : Except QueueFault DelayFerry := (writeLoop clock kernel).run s

inductive Call where
  | readPacket (contents : Payload)
  | writePackets
  | waitTime
  | pendingOutput
  deriving DecidableEq, Repr

def Call.step : Call → DelayFerry → Except QueueFault DelayFerry
  | .readPacket contents, s => .ok (s.readPacket clock contents)
  | .writePackets, s => s.writePackets clock kernel
  | .waitTime, s => .ok s.look
  | .pendingOutput, s => .ok s.look

/-! ### The poller -/

inductive PollFault where
  | callback (f : QueueFault)
  /-- `Poller: busy wait detected: callback did not read/write fd` -/
  | busyWait
  deriving DecidableEq, Repr

/-- `fd.write_count()` -/
def writeCount (s : DelayFerry) : Nat := toU32 s.writes

/-- What `Poller::poll` does with the callback that calls `write_packets`. -/
def pollOut (s : DelayFerry) : Except PollFault DelayFerry := do
  let countBefore := s.writeCount
  let s ← (s.writePackets clock kernel).mapError .callback
  if countBefore = s.writeCount then throw .busyWait
  return s

/-! ### What is kept -/

def Arrival.release (delayMs : Nat) (a : Arrival) : Nat × Payload := (a.time + delayMs, a.contents)

/-- Of what came, `gone` has left and `left` is queued. -/
structure Held (clock : Nat → Nat) (delayMs : Nat) (gone left : List Arrival) (s : DelayFerry) :
    Prop where
  delay : s.queue.delayMs = delayMs
  arrived : s.arrived = gone ++ left
  queued : s.queue.packetQueue = left.map (Arrival.release delayMs)
  departed : List.Forall₂ (fun a d => d.pieces.flatten = a.contents ∧ a.time + delayMs ≤ d.time)
    gone s.departed
  sorted : s.arrived.Pairwise fun a b => a.time ≤ b.time
  past : ∀ a ∈ s.arrived, a.time ≤ clock s.ticks

variable {clock kernel} {delayMs : Nat} {gone left : List Arrival}

namespace Held

theorem tick (h : s.Held clock delayMs gone left) (hmono : Monotone clock) :
    s.tick.Held clock delayMs gone left :=
  { h with past := fun a ha => (h.past a ha).trans (hmono (Nat.le_succ _)) }

theorem look (h : s.Held clock delayMs gone left) (hmono : Monotone clock) :
    s.look.Held clock delayMs gone left := by
  rcases look_cases s with hlook | hlook <;> rw [hlook]
  · exact h
  · exact h.tick hmono

theorem readPacket (h : s.Held clock delayMs gone left) (hmono : Monotone clock)
    (hdelay : delayMs < 2 ^ 32) (hclock : clock s.ticks < 2 ^ 63) (contents : Payload) :
    (s.readPacket clock contents).Held clock delayMs gone
      (left ++ [⟨clock s.ticks, contents⟩]) where
  delay := h.delay
  arrived := by
    rw [← List.append_assoc, ← h.arrived]
    rfl
  queued := by
    have hrelease : toU64 (clock s.ticks + delayMs : Nat) = clock s.ticks + delayMs := by
      rw [toU64_of_range (by omega) (by omega), Int.toNat_natCast]
    rw [List.map_append, ← h.queued, List.map_singleton, Arrival.release, ← hrelease, ← h.delay]
    rfl
  departed := h.departed
  sorted := List.pairwise_append.mpr ⟨h.sorted, List.pairwise_singleton _ _, fun a ha b hb => by
    rw [List.mem_singleton.mp hb]
    exact h.past a ha⟩
  past := by
    intro a ha
    rcases List.mem_append.mp ha with ha | ha
    · exact (h.past a ha).trans (hmono (Nat.le_succ _))
    · rw [List.mem_singleton.mp ha]
      exact hmono (Nat.le_succ _)

/-- The head of the queue leaves. -/
theorem sent (h : s.Held clock delayMs gone left) (hmono : Monotone clock) {release : Nat}
    {contents : Payload} {rest : List (Nat × Payload)} {pieces : List Payload}
    (hq : s.queue.packetQueue = (release, contents) :: rest) (hdue : release ≤ clock s.ticks)
    (hpieces : pieces.flatten = contents) :
    ∃ a left', left = a :: left' ∧
      (s.sent clock rest pieces).Held clock delayMs (gone ++ [a]) left' := by
  have hqueued := h.queued
  rw [hq] at hqueued
  cases left with
  | nil => cases hqueued
  | cons a left' =>
      rw [List.map_cons, Arrival.release, List.cons.injEq, Prod.mk.injEq] at hqueued
      obtain ⟨⟨rfl, rfl⟩, rfl⟩ := hqueued
      exact ⟨a, left', rfl,
        { h.tick hmono with
          arrived := by
            rw [List.append_assoc]
            exact h.arrived
          queued := rfl
          departed := List.rel_append h.departed (.cons ⟨hpieces, hdue⟩ .nil) }⟩

/-- The release times are in order. -/
theorem queue_sorted (h : s.Held clock delayMs gone left) :
    s.queue.packetQueue.Pairwise fun p q => p.1 ≤ q.1 := by
  have hleft : left.Pairwise fun a b => a.time ≤ b.time :=
    (List.pairwise_append.mp (h.arrived ▸ h.sorted)).2.1
  rw [h.queued, List.pairwise_map]
  exact hleft.imp fun hle => Nat.add_le_add_right hle delayMs

/-- What is behind an early head is early. -/
theorem early (h : s.Held clock delayMs gone left) {release : Nat} {contents : Payload}
    {rest : List (Nat × Payload)} (hq : s.queue.packetQueue = (release, contents) :: rest)
    {now : Nat} (hnow : now < release) : ∀ p ∈ s.queue.packetQueue, now < p.1 := by
  have hsorted := h.queue_sorted
  rw [hq] at hsorted ⊢
  refine List.forall_mem_cons.mpr ⟨hnow, fun p hp => ?_⟩
  exact hnow.trans_le ((List.pairwise_cons.mp hsorted).1 p hp)

/-- No packet is released further ahead than the delay. -/
theorem release_le (h : s.Held clock delayMs gone left) :
    ∀ p ∈ s.queue.packetQueue, p.1 ≤ clock s.ticks + delayMs := by
  intro p hp
  rw [h.queued] at hp
  obtain ⟨a, ha, rfl⟩ := List.mem_map.mp hp
  exact Nat.add_le_add_right (h.past a (h.arrived ▸ List.mem_append_right _ ha)) delayMs

/-- **`pending_output` says whether a packet is due.** -/
theorem pendingOutput_iff (h : s.Held clock delayMs gone left) (hdelay : delayMs < 2 ^ 32) :
    s.queue.pendingOutput (clock s.ticks) = true ↔
      ∃ p ∈ s.queue.packetQueue, p.1 ≤ clock s.ticks := by
  unfold DelayQueue.pendingOutput DelayQueue.waitTime
  rw [decide_eq_true_eq]
  cases hq : s.queue.packetQueue with
  | nil =>
      refine iff_of_false (show ¬ (2 ^ 16 - 1 : Nat) ≤ 0 by decide) ?_
      rintro ⟨p, hp, -⟩
      cases hp
  | cons p rest =>
      obtain ⟨release, contents⟩ := p
      dsimp only
      by_cases hdue : release ≤ clock s.ticks
      · rw [if_pos hdue]
        exact iff_of_true (le_refl 0) ⟨_, List.mem_cons_self, hdue⟩
      · have hle : release ≤ clock s.ticks + delayMs :=
          h.release_le (release, contents) (hq ▸ List.mem_cons_self)
        -- the gap fits an `unsigned int`, so it is not narrowed to 0
        rw [if_neg hdue, toU32_of_range (by omega) (by omega)]
        refine iff_of_false (by omega) ?_
        rintro ⟨p, hp, hpdue⟩
        have := h.early hq (Nat.not_le.mp hdue) p (hq ▸ hp)
        omega

/-- What `write_packets` leaves was not due at the last reading it took. -/
theorem writePackets (h : s.Held clock delayMs gone left) (hmono : Monotone clock)
    (hwrite : s.writePackets clock kernel = .ok s') :
    (∃ gone left, s'.Held clock delayMs gone left) ∧ s'.arrived = s.arrived ∧
      ∀ p ∈ s'.queue.packetQueue, s.ticks < s'.ticks ∧ clock (s'.ticks - 1) < p.1 := by
  have hrun : Ensures (fun _ => True)
      (fun s' => (∃ gone left, s'.Held clock delayMs gone left) ∧ s'.arrived = s.arrived ∧
        ∀ p ∈ s'.queue.packetQueue, s.ticks < s'.ticks ∧ clock (s'.ticks - 1) < p.1)
      ((writeLoop clock kernel).run s) := by
    refine Loop.ensures_run
      (P := fun t => (∃ gone left, t.Held clock delayMs gone left) ∧ t.arrived = s.arrived ∧
        s.ticks ≤ t.ticks)
      (fun t _ ⟨⟨gone, left, ht⟩, harrived, hticks⟩ => ?_) ⟨⟨gone, left, h⟩, rfl, le_refl _⟩
    refine ensures_iff.mpr fun next hnext => ?_
    cases next with
    | more t' =>
        obtain ⟨release, contents, rest, pieces, hq, hdue, hpieces, rfl⟩ := writeStep_more hnext
        obtain ⟨a, left', -, hheld⟩ :=
          ht.sent hmono hq hdue (FileDescriptor.writeAll_spec hpieces).1
        exact ⟨⟨_, left', hheld⟩, harrived, Nat.le_succ_of_le hticks⟩
    | stop r =>
        rcases writeStep_stop hnext with ⟨hq, rfl⟩ | ⟨release, contents, rest, hq, hearly, rfl⟩
        · refine ⟨⟨gone, left, ht⟩, harrived, fun p hp => ?_⟩
          rw [hq] at hp
          cases hp
        · exact ⟨⟨gone, left, ht.tick hmono⟩, harrived, fun p hp =>
            ⟨Nat.lt_succ_of_le hticks, ht.early hq hearly p hp⟩⟩
  exact hrun.of_ok hwrite

end Held

theorem held_start (clock : Nat → Nat) (delayMs : Nat) :
    Held clock delayMs [] [] { queue := { delayMs } } where
  delay := rfl
  arrived := rfl
  queued := rfl
  departed := .nil
  sorted := .nil
  past a ha := by cases ha

/-- The packet that a call hands over. -/
def Call.contents? : Call → Option Payload
  | .readPacket contents => some contents
  | _ => none

/-- **Every run keeps its packets.** -/
theorem run_held (hdelay : delayMs < 2 ^ 32) (hmono : Monotone clock)
    (hclock : ∀ k, clock k < 2 ^ 63) {calls : List Call}
    (h : run (Call.step clock kernel) calls { queue := { delayMs } } = .ok s) :
    s.arrived.map Arrival.contents = calls.filterMap Call.contents? ∧
      ∃ gone left, s.Held clock delayMs gone left := by
  refine run_induction (P := fun calls s =>
    s.arrived.map Arrival.contents = calls.filterMap Call.contents? ∧
      ∃ gone left, s.Held clock delayMs gone left)
    ⟨rfl, [], [], held_start clock delayMs⟩ ?_ h
  rintro done s c s' - ⟨harrived, gone, left, hs⟩ hstep
  rw [List.filterMap_append, ← harrived]
  cases c with
  | readPacket contents =>
      cases hstep
      exact ⟨List.map_append, gone, _, hs.readPacket hmono hdelay (hclock _) contents⟩
  | writePackets =>
      obtain ⟨hheld, hsame, -⟩ := hs.writePackets hmono hstep
      rw [hsame]
      exact ⟨(List.append_nil _).symm, hheld⟩
  | waitTime | pendingOutput =>
      cases hstep
      rw [look_arrived]
      exact ⟨(List.append_nil _).symm, gone, left, hs.look hmono⟩

/-- Until `write_packets` is called, the queue only grows. -/
theorem run_between {between : List Call} (hno : .writePackets ∉ between)
    (h : run (Call.step clock kernel) between s = .ok s') :
    s.queue.packetQueue <+: s'.queue.packetQueue ∧ s.ticks ≤ s'.ticks := by
  induction between generalizing s with
  | nil =>
      cases h
      exact ⟨List.prefix_refl _, le_refl _⟩
  | cons c between ih =>
      rw [run_cons] at h
      obtain ⟨t, hstep, h⟩ := bind_ok.mp h
      obtain ⟨hgrow, hticks⟩ := ih (List.not_mem_of_not_mem_cons hno) h
      have hc : s.queue.packetQueue <+: t.queue.packetQueue ∧ s.ticks ≤ t.ticks := by
        cases c with
        | readPacket contents => cases hstep; exact ⟨List.prefix_append _ _, Nat.le_succ _⟩
        | writePackets => exact absurd List.mem_cons_self hno
        | waitTime | pendingOutput => cases hstep; exact look_grows s
      exact ⟨hc.1.trans hgrow, hc.2.trans hticks⟩

/-! ### What the poller sees -/

variable (clock kernel)

/-- The packets that a call of `write_packets` finds due, each at its own reading of the clock. -/
def dueFrom : Nat → List (Nat × Payload) → List (Nat × Payload)
  | _, [] => []
  | k, p :: ps => if p.1 ≤ clock k then p :: dueFrom (k + 1) ps else []

def due (s : DelayFerry) : List (Nat × Payload) := dueFrom clock s.ticks s.queue.packetQueue

/-- The calls of `write(2)` that packets take, from call number `n` on. -/
def systemWrites : Nat → List (Nat × Payload) → Nat
  | _, [] => 0
  | n, p :: ps =>
      let count := FileDescriptor.callsFor kernel n p.2.length
      count + systemWrites (n + count) ps

/-- The packets that are due can be written, and the descriptor's count, which has 32 bits, shows
it. -/
structure Served (s : DelayFerry) : Prop where
  nonempty : ∀ p ∈ s.due clock, p.2 ≠ []
  counted : ¬ 2 ^ 32 ∣ systemWrites kernel s.writes (s.due clock)

variable {clock kernel}

theorem due_nil (h : s.queue.packetQueue = []) : s.due clock = [] := by
  rw [due, h, dueFrom]

theorem due_cons {p : Nat × Payload} {rest : List (Nat × Payload)}
    (h : s.queue.packetQueue = p :: rest) (hdue : p.1 ≤ clock s.ticks) (pieces : List Payload) :
    s.due clock = p :: (s.sent clock rest pieces).due clock := by
  rw [due, h, dueFrom, if_pos hdue]
  rfl

theorem due_early {p : Nat × Payload} {rest : List (Nat × Payload)}
    (h : s.queue.packetQueue = p :: rest) (hdue : ¬ p.1 ≤ clock s.ticks) : s.due clock = [] := by
  rw [due, h, dueFrom, if_neg hdue]

/-- A call that writes the head of the queue goes on with the rest. -/
theorem writePackets_sent {release : Nat} {contents : Payload} {rest : List (Nat × Payload)}
    {pieces : List Payload} (h : s.queue.packetQueue = (release, contents) :: rest)
    (hdue : release ≤ clock s.ticks)
    (hpieces : FileDescriptor.writeAll kernel s.writes contents = .ok pieces) :
    s.writePackets clock kernel = (s.sent clock rest pieces).writePackets clock kernel := by
  refine Loop.run_more (L := writeLoop clock kernel) ?_
  show s.writeStep clock kernel = _
  rw [writeStep_due h hdue, hpieces]
  rfl

/-- A call returns when the packets it finds due are not empty. -/
theorem writePackets_ok (kernel : Nat → Nat) (h : ∀ p ∈ s.due clock, p.2 ≠ []) :
    ∃ s', s.writePackets clock kernel = .ok s' ∧
      s'.writes = s.writes + systemWrites kernel s.writes (s.due clock) ∧
      s'.departed.length = s.departed.length + (s.due clock).length := by
  induction hq : s.queue.packetQueue generalizing s with
  | nil =>
      refine ⟨s, Loop.run_stop (L := writeLoop clock kernel) (writeStep_nil hq), ?_⟩
      rw [due_nil hq]
      exact ⟨rfl, rfl⟩
  | cons p rest ih =>
      obtain ⟨release, contents⟩ := p
      by_cases hdue : release ≤ clock s.ticks
      · have hcons := due_cons hq hdue
        rw [hcons []] at h
        obtain ⟨hne, hrest⟩ := List.forall_mem_cons.mp h
        obtain ⟨pieces, hpieces, -, hcount⟩ := FileDescriptor.writeAll_ok kernel s.writes hne
        obtain ⟨s', hrun, hwrites, hdeparted⟩ := ih (s := s.sent clock rest pieces) hrest rfl
        refine ⟨s', (writePackets_sent hq hdue hpieces).trans hrun, ?_, ?_⟩
        · rw [hwrites, hcons pieces, systemWrites, ← hcount, ← Nat.add_assoc]
          rfl
        · rw [hdeparted, hcons pieces, sent, List.length_append, List.length_singleton,
            List.length_cons, Nat.add_assoc, Nat.add_comm 1]
      · refine ⟨s.tick, Loop.run_stop (L := writeLoop clock kernel) (writeStep_early hq hdue), ?_⟩
        rw [due_early hq hdue]
        exact ⟨rfl, rfl⟩

/-- An empty packet stops the call that finds it due. -/
theorem writePackets_empty (h : ∃ p ∈ s.due clock, p.2 = []) :
    s.writePackets clock kernel = .error .nothingToWrite := by
  induction hq : s.queue.packetQueue generalizing s with
  | nil =>
      rw [due_nil hq] at h
      obtain ⟨p, hp, -⟩ := h
      cases hp
  | cons p rest ih =>
      obtain ⟨release, contents⟩ := p
      by_cases hdue : release ≤ clock s.ticks
      · by_cases hne : contents = []
        · refine Loop.run_error (L := writeLoop clock kernel) ?_
          show s.writeStep clock kernel = _
          rw [writeStep_due hq hdue, hne, FileDescriptor.writeAll_nil]
          rfl
        · obtain ⟨pieces, hpieces, -⟩ := FileDescriptor.writeAll_ok kernel s.writes hne
          obtain ⟨p, hp, hempty⟩ := h
          rw [due_cons hq hdue pieces, List.mem_cons] at hp
          rcases hp with rfl | hp
          · exact absurd hempty hne
          · rw [writePackets_sent hq hdue hpieces]
            exact ih (s := s.sent clock rest pieces) ⟨p, hp, hempty⟩ rfl
      · rw [due_early hq hdue] at h
        obtain ⟨p, hp, -⟩ := h
        cases hp

theorem toU32_add_eq_iff (n count : Nat) : toU32 n = toU32 (n + count : Nat) ↔ 2 ^ 32 ∣ count := by
  unfold toU32
  omega

/-- What the poller makes of a call that can write what is due. -/
theorem pollOut_eq (kernel : Nat → Nat) (h : ∀ p ∈ s.due clock, p.2 ≠ []) :
    ∃ s', s.pollOut clock kernel =
        (if 2 ^ 32 ∣ systemWrites kernel s.writes (s.due clock) then .error .busyWait
        else .ok s') ∧
      s'.departed.length = s.departed.length + (s.due clock).length := by
  obtain ⟨s', hwrite, hwrites, hdeparted⟩ := writePackets_ok kernel h
  have hcount : s.writeCount = s'.writeCount ↔
      2 ^ 32 ∣ systemWrites kernel s.writes (s.due clock) := by
    rw [writeCount, writeCount, hwrites]
    exact toU32_add_eq_iff _ _
  refine ⟨s', ?_, hdeparted⟩
  rw [pollOut, hwrite]
  show (if s.writeCount = s'.writeCount then _ else _) = _
  rw [if_congr hcount rfl rfl]
  split <;> rfl

/-- **The poller goes on exactly when the due packets are `Served`.** -/
theorem pollOut_iff (hdue : s.due clock ≠ []) :
    (∃ s', s.pollOut clock kernel = .ok s' ∧ s.departed.length < s'.departed.length) ↔
      s.Served clock kernel := by
  by_cases hempty : ∃ p ∈ s.due clock, p.2 = []
  · refine iff_of_false ?_ fun h => ?_
    · rintro ⟨s', hs', -⟩
      rw [pollOut, writePackets_empty hempty] at hs'
      cases hs'
    · obtain ⟨p, hp, hnil⟩ := hempty
      exact h.nonempty p hp hnil
  · have hne : ∀ p ∈ s.due clock, p.2 ≠ [] := fun p hp hnil => hempty ⟨p, hp, hnil⟩
    obtain ⟨s', hpoll, hdeparted⟩ := pollOut_eq kernel hne
    have hpos := List.length_pos_iff.mpr hdue
    constructor
    · rintro ⟨s'', hs'', -⟩
      refine ⟨hne, fun hdvd => ?_⟩
      rw [hpoll, if_pos hdvd] at hs''
      cases hs''
    · intro h
      refine ⟨s', ?_, by omega⟩
      rw [hpoll, if_neg h.counted]

/-- What is due stays due while the queue only grows. -/
theorem due_ne_nil (h : s.Held clock delayMs gone left) (hmono : Monotone clock)
    (hdue : ∃ p ∈ s.queue.packetQueue, p.1 ≤ clock s.ticks)
    (hgrow : s.queue.packetQueue <+: s'.queue.packetQueue) (hticks : s.ticks ≤ s'.ticks) :
    s'.due clock ≠ [] := by
  obtain ⟨p, hp, hle⟩ := hdue
  cases hq : s.queue.packetQueue with
  | nil =>
      rw [hq] at hp
      cases hp
  | cons q rest =>
      obtain ⟨release, contents⟩ := q
      have hhead : release ≤ clock s.ticks :=
        Nat.not_lt.mp fun hlt => Nat.not_lt.mpr hle (h.early hq hlt p hp)
      obtain ⟨more, hmore⟩ := hgrow
      rw [hq] at hmore
      rw [due_cons hmore.symm (hhead.trans (hmono hticks)) []]
      exact List.cons_ne_nil _ _

/-- **The delay queue keeps its packets and their delay**, and a write that `pending_output` has
promised goes through exactly when the packets it finds due are `Served`. -/
theorem delay_queue_keeps (hdelay : delayMs < 2 ^ 32) (hmono : Monotone clock)
    (hclock : ∀ k, clock k < 2 ^ 63) {calls : List Call}
    (h : run (Call.step clock kernel) calls { queue := { delayMs } } = .ok s) :
    s.arrived.map Arrival.contents = calls.filterMap Call.contents? ∧
    (∃ gone left, s.arrived = gone ++ left ∧
      s.queue.packetQueue = left.map (Arrival.release delayMs) ∧
      List.Forall₂ (fun a d => d.pieces.flatten = a.contents ∧ a.time + delayMs ≤ d.time)
        gone s.departed) ∧
    (∀ s', s.writePackets clock kernel = .ok s' →
      ∀ p ∈ s'.queue.packetQueue, s.ticks < s'.ticks ∧ clock (s'.ticks - 1) < p.1) ∧
    (s.queue.pendingOutput (clock s.ticks) = true ↔
      ∃ p ∈ s.queue.packetQueue, p.1 ≤ clock s.ticks) ∧
    (s.queue.pendingOutput (clock s.ticks) = true → ∀ between s₁, .writePackets ∉ between →
      run (Call.step clock kernel) between s.look = .ok s₁ →
      ((∃ s₂, s₁.pollOut clock kernel = .ok s₂ ∧ s₁.departed.length < s₂.departed.length) ↔
        s₁.Served clock kernel)) := by
  obtain ⟨harrived, gone, left, hs⟩ := run_held hdelay hmono hclock h
  have hpending := hs.pendingOutput_iff hdelay
  refine ⟨harrived, ⟨gone, left, hs.arrived, hs.queued, hs.departed⟩,
    fun s' hs' => (hs.writePackets hmono hs').2.2, hpending, fun hdue between s₁ hno hbetween => ?_⟩
  obtain ⟨hlook, hlookTicks⟩ := look_grows s
  obtain ⟨hgrow, hticks⟩ := run_between hno hbetween
  exact pollOut_iff (due_ne_nil hs hmono (hpending.mp hdue) (hlook.trans hgrow)
    (hlookTicks.trans hticks))

theorem delay_queue_keeps_twoBytes :
    ∃ s, run (Call.step (fun k => min (5 * k) 100) (fun _ => 0)) [.readPacket [1, 2], .waitTime]
        { queue := { delayMs := 10 } } = .ok s ∧
      s.arrived = [⟨0, [1, 2]⟩] ∧ s.queue.packetQueue = [(10, [1, 2])] ∧
      s.queue.pendingOutput 10 = true ∧
      ∃ s₂, s.look.pollOut (fun k => min (5 * k) 100) (fun _ => 0) = .ok s₂ ∧
        s.departed.length < s₂.departed.length := by
  have hmono : Monotone fun k => min (5 * k) 100 := fun k k' hk =>
    min_le_min_right 100 (Nat.mul_le_mul_left 5 hk)
  obtain ⟨s, hrun⟩ : ∃ s, run (Call.step (fun k => min (5 * k) 100) (fun _ => 0))
      [.readPacket [1, 2], .waitTime] { queue := { delayMs := 10 } } = .ok s := ⟨_, rfl⟩
  have hkeeps := delay_queue_keeps (by decide) hmono
    (fun k => (Nat.min_le_right _ _).trans_lt (by decide)) hrun
  cases hrun
  refine ⟨_, rfl, rfl, rfl, rfl, ?_⟩
  refine (hkeeps.2.2.2.2 rfl [] _ List.not_mem_nil rfl).mpr ⟨?_, ?_⟩
  · exact List.forall_mem_singleton.mpr (by decide)
  · show ¬ 2 ^ 32 ∣ systemWrites (fun _ => 0) 0 [(10, [1, 2])]
    simp [systemWrites, FileDescriptor.callsFor]

/-- An empty packet is queued like any other; the call that finds it due throws, and the packet
behind it is not written. -/
theorem pollOut_emptyPacket :
    ∃ s, run (Call.step (fun _ => 0) (fun _ => 0)) [.readPacket [], .readPacket [1]]
        { queue := { delayMs := 0 } } = .ok s ∧
      s.queue.pendingOutput 0 = true ∧
      s.look.pollOut (fun _ => 0) (fun _ => 0) = .error (.callback .nothingToWrite) :=
  ⟨_, rfl, by decide, rfl⟩

end DelayFerry

end Mahimahi
