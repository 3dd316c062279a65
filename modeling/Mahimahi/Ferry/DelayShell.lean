import Mahimahi.Ferry.DelayQueue
import Mahimahi.Ferry.Loop

/-!
# Ferry — a delay under `Ferry::loop`

One direction of a delay shell.  A call reads the clock as often as it has to, so what its
surroundings decide is a sequence of readings.  The clock never goes back, in a call or between two.

* `loop_delays`: what the shell has written is what came first, in order, and none of it sooner
  than the delay after it came; the rest is queued.
* `loop_punctual`: a round in which the sibling can be written leaves nothing that was due when the
  poller asked, and a poll that waits for the clock alone waits for the next release.
-/

open Fallible MachineInt Loops

namespace Mahimahi

namespace DelayShell

open DelayFerry

/-- Reading number `i` of the clock in a call. -/
abbrev Readings := Nat → Nat

/-- A `DelayQueue`, and what has left it, each packet with the reading at which it was found due. -/
structure DelayLine extends DelayQueue where
  departed : List Departure := []

/-- `DelayQueue`, as the loop uses it. -/
def ferry : FerryQueueType QueueFault Readings DelayLine where
  readPacket k contents q := .ok { q with toDelayQueue := q.readPacket (k 0) contents }
  writePackets k kernel q := do
    let s ← DelayFerry.writePackets k kernel { queue := q.toDelayQueue }
    return (s.departed.map Departure.pieces,
      { toDelayQueue := s.queue, departed := q.departed ++ s.departed })
  waitTime k q := .ok (q.waitTime (k 0), q)
  pendingOutput k q := q.pendingOutput (k 0)
  finished _ _ := false

/-! ### A call of `write_packets` -/

/-- A packet that was due at a reading of the call was written. -/
structure Wrote (k : Readings) (p : Nat × Payload) (d : Departure) : Prop where
  pieces : d.pieces.flatten = p.2
  due : p.1 ≤ d.time
  reading : ∃ i, d.time = k i
  some_calls : 0 < d.pieces.length
  calls : d.pieces.length ≤ p.2.length

variable {k : Readings} {kernel : Nat → Nat} {s s' : DelayFerry}

/-- **What a call of `write_packets` does**: it writes from the head on, up to a packet that was
not due when the call looked at it. -/
theorem writePackets_splits (hmono : Monotone k) (h : s.writePackets k kernel = .ok s') :
    ∃ due left out, s.queue.packetQueue = due ++ left ∧
      s'.queue = { s.queue with packetQueue := left } ∧ s'.departed = s.departed ++ out ∧
      List.Forall₂ (Wrote k) due out ∧ ∀ p ∈ left.head?, k s.ticks < p.1 := by
  have hrun : Ensures (fun _ => True) (fun s' : DelayFerry => ∃ due left out,
      s.queue.packetQueue = due ++ left ∧ s'.queue = { s.queue with packetQueue := left } ∧
      s'.departed = s.departed ++ out ∧ List.Forall₂ (Wrote k) due out ∧
      ∀ p ∈ left.head?, k s.ticks < p.1) ((writeLoop k kernel).run s) := by
    refine Loop.ensures_run (P := fun t => ∃ due left out, s.queue.packetQueue = due ++ left ∧
      t.queue = { s.queue with packetQueue := left } ∧ t.departed = s.departed ++ out ∧
      List.Forall₂ (Wrote k) due out ∧ s.ticks ≤ t.ticks)
      ?_ ⟨[], _, [], rfl, rfl, (List.append_nil _).symm, .nil, le_rfl⟩
    rintro t _ ⟨due, left, out, hsplit, hqueue, hdeparted, hwrote, hticks⟩
    have hleft : t.queue.packetQueue = left := by rw [hqueue]
    refine ensures_iff.mpr fun next hnext => ?_
    cases next with
    | more t' =>
        obtain ⟨release, contents, rest, pieces, hq, hdue, hpieces, rfl⟩ := writeStep_more hnext
        obtain ⟨hflatten, hcount⟩ := FileDescriptor.writeAll_spec hpieces
        have hne : contents ≠ [] := by
          rintro rfl
          rw [FileDescriptor.writeAll_nil] at hpieces
          cases hpieces
        obtain ⟨hle, hpos⟩ := FileDescriptor.callsFor_bounds kernel t.writes contents.length
        rw [← hcount] at hle hpos
        refine ⟨due ++ [(release, contents)], rest, out ++ [⟨k t.ticks, pieces⟩], ?_, ?_, ?_, ?_,
          Nat.le_succ_of_le hticks⟩
        · rw [hsplit, ← hleft, hq, List.append_assoc]
          rfl
        · rw [DelayFerry.sent, hqueue]
        · rw [DelayFerry.sent, hdeparted, List.append_assoc]
        · exact List.rel_append hwrote (.cons ⟨hflatten, hdue, ⟨_, rfl⟩,
            hpos (List.length_pos_iff.mpr hne), hle⟩ .nil)
    | stop r =>
        rcases writeStep_stop hnext with ⟨hq, rfl⟩ | ⟨release, contents, rest, hq, hearly, rfl⟩
        · refine ⟨due, left, out, hsplit, hqueue, hdeparted, hwrote, ?_⟩
          rw [← hleft, hq]
          intro p hp
          cases hp
        · refine ⟨due, left, out, hsplit, hqueue, hdeparted, hwrote, ?_⟩
          rw [← hleft, hq]
          rintro p ⟨⟩
          exact (hmono hticks).trans_lt hearly
  exact hrun.of_ok h

theorem mem_of_dueFrom : ∀ {i : Nat} {queue : List (Nat × Payload)} {p : Nat × Payload},
    p ∈ dueFrom k i queue → p ∈ queue := by
  intro i queue
  induction queue generalizing i with
  | nil => simp [dueFrom]
  | cons q queue ih =>
      intro p hp
      rw [dueFrom] at hp
      split at hp
      · rcases List.mem_cons.mp hp with rfl | hp
        · exact List.mem_cons_self
        · exact List.mem_cons_of_mem _ (ih hp)
      · cases hp

/-! ### The calls of the loop -/

def readings : FerryCall Readings → Readings
  | .readPacket k _ | .writePackets k _ | .waitTime k => k

/-- When a datagram came: at the reading that `read_packet` makes. -/
def came (e : Readings × Payload) : Arrival := ⟨e.1 0, e.2⟩

def arrivalOf (call : FerryCall Readings) : Option Arrival := call.received?.map came

/-- The clock never goes back, in a call or between two, and stays below 2⁶³. -/
structure Steady (ks : List Readings) : Prop where
  mono : ∀ k ∈ ks, Monotone k
  small : ∀ k ∈ ks, ∀ i, k i < 2 ^ 63
  forward : ks.Pairwise fun k l => ∀ i, k i ≤ l 0

theorem Steady.sublist {ks ls : List Readings} (h : Steady ls) (hsub : ks.Sublist ls) :
    Steady ks :=
  ⟨fun k hk => h.mono k (hsub.subset hk), fun k hk => h.small k (hsub.subset hk),
    h.forward.sublist hsub⟩

/-- A datagram that came was written whole, at a reading that is not sooner than the delay after it
came. -/
def Delays (delayMs : Nat) (a : Arrival) (d : Departure) : Prop :=
  d.pieces.flatten = a.contents ∧ a.time + delayMs ≤ d.time

/-- What the loop has written in a call, at one of the call's readings. -/
def WrittenAt (o : Readings × List Payload) (d : Departure) : Prop :=
  o.2 = d.pieces ∧ ∃ i, d.time = o.1 i

/-- Of what came, `gone` has been written and `left` is queued. -/
structure Keeps (delayMs : Nat) (gone left : List Arrival)
    (v : DelayLine × List (Readings × List Payload)) : Prop where
  delay : v.1.delayMs = delayMs
  queued : v.1.packetQueue = left.map (Arrival.release delayMs)
  departed : List.Forall₂ (Delays delayMs) gone v.1.departed
  sent : List.Forall₂ WrittenAt v.2 v.1.departed

/-- It takes one to as many calls of `write(2)` as there are bytes. -/
structure WrittenIn (a : Arrival) (o : Readings × List Payload) : Prop where
  flatten : o.2.flatten = a.contents
  some_calls : 0 < o.2.length
  calls : o.2.length ≤ a.contents.length

variable {delayMs : Nat} {gone left : List Arrival} {call : FerryCall Readings}
  {calls : List (FerryCall Readings)} {v v' : DelayLine × List (Readings × List Payload)}

theorem written_readings {k : Readings} {due : List Arrival} {out : List Departure}
    (h : List.Forall₂ (fun a d => Wrote k (Arrival.release delayMs a) d) due out) :
    List.Forall₂ (fun d d' => WrittenAt (k, d.pieces) d') out out := by
  induction h with
  | nil => exact .nil
  | cons hwrote _ ih => exact .cons ⟨rfl, hwrote.reading⟩ ih

theorem Keeps.writes {k : Readings} {kernel : Nat → Nat} (hv : Keeps delayMs gone left v)
    (hk : Monotone k) :
    Ensures (fun e => e = .nothingToWrite ∧ ∃ a ∈ left, a.contents = [])
      (fun v' => ∃ due rest, left = due ++ rest ∧ Keeps delayMs (gone ++ due) rest v' ∧
        ∃ out : List (Readings × List Payload), v'.2 = v.2 ++ out ∧
          List.Forall₂ WrittenIn due out ∧ ∀ a ∈ rest.head?, k 0 < a.time + delayMs)
      (FerryCall.step ferry (.writePackets k kernel) v) := by
  obtain ⟨q, sent⟩ := v
  have hqueued : q.packetQueue = left.map (Arrival.release delayMs) := hv.queued
  by_cases hempty : ∃ p ∈ DelayFerry.due k { queue := q.toDelayQueue }, p.2 = []
  · have herror : FerryCall.step ferry (.writePackets k kernel) (q, sent) =
        .error .nothingToWrite := by
      show Except.map _ (_ >>= _) = _
      rw [writePackets_empty hempty]
      rfl
    rw [herror]
    obtain ⟨p, hp, hnil⟩ := hempty
    have hmem := mem_of_dueFrom hp
    rw [hqueued] at hmem
    obtain ⟨a, ha, rfl⟩ := List.mem_map.mp hmem
    exact ⟨rfl, a, ha, hnil⟩
  · obtain ⟨s', hwrite, -⟩ := @writePackets_ok k { queue := q.toDelayQueue } kernel
      fun p hp hnil => hempty ⟨p, hp, hnil⟩
    obtain ⟨due, rest, out, hsplit, hqueue, hdeparted, hwrote, hhead⟩ :=
      writePackets_splits hk hwrite
    have hok : FerryCall.step ferry (.writePackets k kernel) (q, sent) =
        .ok ({ toDelayQueue := s'.queue, departed := q.departed ++ s'.departed },
          sent ++ (s'.departed.map Departure.pieces).map (k, ·)) := by
      show Except.map _ (_ >>= _) = _
      rw [hwrite]
      rfl
    rw [hok]
    obtain ⟨due, rest, rfl, rfl, rfl⟩ := List.map_eq_append_iff.mp (hqueued.symm.trans hsplit)
    rw [List.forall₂_map_left_iff] at hwrote
    obtain rfl : s'.departed = out := hdeparted
    have hout : (s'.departed.map Departure.pieces).map (k, ·) =
        s'.departed.map fun d => (k, d.pieces) := List.map_map
    refine ⟨due, rest, rfl, ⟨?_, ?_, ?_, ?_⟩, s'.departed.map fun d => (k, d.pieces),
      by rw [hout], ?_, ?_⟩
    · show s'.queue.delayMs = delayMs
      rw [hqueue]
      exact hv.delay
    · show s'.queue.packetQueue = _
      rw [hqueue]
    · exact List.rel_append hv.departed (hwrote.imp fun _ _ h => ⟨h.pieces, h.due⟩)
    · dsimp only
      rw [hout]
      refine List.rel_append hv.sent (List.forall₂_map_left_iff.mpr ?_)
      exact written_readings hwrote
    · exact List.forall₂_map_right_iff.mpr (hwrote.imp fun _ _ h =>
        ⟨h.pieces, h.some_calls, h.calls⟩)
    · intro a ha
      exact hhead _ (by rw [List.head?_map, Option.mem_def.mp ha]; rfl)

theorem Keeps.reads {k : Readings} (hv : Keeps delayMs gone left v) (hdelay : delayMs < 2 ^ 32)
    (hsmall : k 0 < 2 ^ 63) (contents : Payload) :
    ∃ v', FerryCall.step ferry (.readPacket k contents) v = .ok v' ∧ v'.2 = v.2 ∧
      Keeps delayMs gone (left ++ [⟨k 0, contents⟩]) v' := by
  obtain ⟨q, sent⟩ := v
  have hdelayMs : q.delayMs = delayMs := hv.delay
  have hrelease : toU64 (k 0 + q.delayMs : Nat) = k 0 + delayMs := by
    rw [hdelayMs, toU64_of_range (by omega) (by omega), Int.toNat_natCast]
  refine ⟨_, rfl, rfl, hv.delay, ?_, hv.departed, hv.sent⟩
  show q.packetQueue ++ [(toU64 (k 0 + q.delayMs : Nat), contents)] = _
  rw [hrelease, List.map_append, ← hv.queued]
  rfl

/-- **What a call of the loop keeps.** -/
theorem step_keeps (hdelay : delayMs < 2 ^ 32) (hv : Keeps delayMs gone left v)
    (hmono : Monotone (readings call)) (hsmall : ∀ i, readings call i < 2 ^ 63) :
    Ensures (fun e => e = .nothingToWrite ∧ ∃ a ∈ left, a.contents = [])
      (fun v' => ∃ gone' left', gone' ++ left' = gone ++ left ++ (arrivalOf call).toList ∧
        Keeps delayMs gone' left' v')
      (FerryCall.step ferry call v) := by
  cases call with
  | readPacket k contents =>
      have hnow : k 0 < 2 ^ 63 := hsmall 0
      obtain ⟨v', hv', -, hkeeps⟩ := hv.reads hdelay hnow contents
      rw [hv']
      exact ⟨gone, _, (List.append_assoc _ _ _).symm, hkeeps⟩
  | writePackets k kernel =>
      refine (hv.writes hmono).mono ?_
      rintro v' ⟨due, rest, rfl, hv', -⟩
      refine ⟨gone ++ due, rest, ?_, hv'⟩
      rw [List.append_assoc]
      exact (List.append_nil _).symm
  | waitTime k => exact ⟨gone, left, (List.append_nil _).symm, hv.delay, hv.queued, hv.departed,
      hv.sent⟩

/-- **What a run of calls keeps.** -/
theorem run_keeps (hdelay : delayMs < 2 ^ 32) (h : Steady (calls.map readings)) :
    Ensures (fun e => e = .nothingToWrite ∧ ∃ a ∈ calls.filterMap arrivalOf, a.contents = [])
      (fun v => ∃ gone left, gone ++ left = calls.filterMap arrivalOf ∧ Keeps delayMs gone left v)
      (run (FerryCall.step ferry) calls ({ delayMs }, [])) := by
  refine ensures_run (P := fun done v => ∃ gone left, gone ++ left = done.filterMap arrivalOf ∧
    Keeps delayMs gone left v) ⟨[], [], rfl, rfl, rfl, .nil, .nil⟩ ?_
  rintro done v call ⟨gone, left, hcame, hv⟩ - hpre
  have hmem : readings call ∈ calls.map readings :=
    List.mem_map_of_mem (hpre.subset (List.mem_append_right _ List.mem_cons_self))
  refine ((step_keeps hdelay hv (h.mono _ hmem) (h.small _ hmem)).mono ?_).mono_error ?_
  · rintro v' ⟨gone', left', hcame', hv'⟩
    refine ⟨gone', left', ?_, hv'⟩
    rw [hcame', hcame, List.filterMap_append]
    congr 1
  · rintro e ⟨he, a, ha, hnil⟩
    refine ⟨he, a, ?_, hnil⟩
    have hdone : done <+: calls := (List.prefix_append _ _).trans hpre
    exact (hdone.filterMap _).subset (hcame ▸ List.mem_append_right _ ha)

/-- The datagrams came in order, and before any later reading of the clock. -/
theorem arrivals_sorted (h : Steady (calls.map readings)) :
    (calls.filterMap arrivalOf).Pairwise fun a b => a.time ≤ b.time := by
  refine List.Pairwise.filterMap arrivalOf ?_ (List.pairwise_map.mp h.forward)
  intro c d hle a ha b hb
  cases c <;> cases ha
  cases d <;> cases hb
  exact hle 0

theorem arrivals_past {k : Readings} (h : Steady (calls.map readings ++ [k])) :
    ∀ a ∈ calls.filterMap arrivalOf, a.time ≤ k 0 := by
  intro a ha
  obtain ⟨c, hc, ha⟩ := List.mem_filterMap.mp ha
  have hle := (List.pairwise_append.mp h.forward).2.2 (readings c) (List.mem_map_of_mem hc) k
    List.mem_cons_self 0
  cases c <;> cases ha
  exact hle

/-- The queue as its own model knows it. -/
theorem Keeps.held {k : Readings} (hv : Keeps delayMs gone left v)
    (hsorted : left.Pairwise fun a b => a.time ≤ b.time) (hpast : ∀ a ∈ left, a.time ≤ k 0) :
    Held k delayMs [] left { queue := v.1.toDelayQueue, arrived := left } where
  delay := hv.delay
  arrived := rfl
  queued := hv.queued
  departed := .nil
  sorted := hsorted
  past := hpast

/-- `pending_output` says whether the head is due. -/
theorem Keeps.pending_iff {k : Readings} (hv : Keeps delayMs gone left v)
    (hdelay : delayMs < 2 ^ 32) (hsorted : left.Pairwise fun a b => a.time ≤ b.time)
    (hpast : ∀ a ∈ left, a.time ≤ k 0) :
    v.1.pendingOutput (k 0) = true ↔ ∃ a ∈ left, a.time + delayMs ≤ k 0 := by
  refine ((hv.held hsorted hpast).pendingOutput_iff hdelay).trans ?_
  show (∃ p ∈ v.1.packetQueue, p.1 ≤ k 0) ↔ _
  rw [hv.queued]
  simp [Arrival.release]

/-! ### The loop -/

/-- The readings of the clock in a round, in the order in which they are made. -/
def readingsOf (r : FerryRound Readings) : List Readings :=
  [r.waits, (r.turns 1).asked.queue, (r.turns 0).served.queue, (r.turns 1).served.queue]

/-- What is read from the TUN device, and when, if it is read. -/
def arrivals (rounds : List (FerryRound Readings)) : List Arrival :=
  (rounds.flatMap FerryRound.calls).filterMap arrivalOf

/-- The readings of the clock are in order. -/
def Lawful (rounds : List (FerryRound Readings)) : Prop := Steady (rounds.flatMap readingsOf)

/-- The ways in which the shell can be stopped by an exception. -/
def Excused (rounds : List (FerryRound Readings)) :
    Poller.PollFault (FerryFault QueueFault) → Prop
  | .callback (.queue e) => e = .nothingToWrite ∧ ∃ a ∈ arrivals rounds, a.contents = []
  | .callback .systemCall | .callback .signal => True
  | .busyWait => 2 ^ 32 ≤ ((arrivals rounds).map Arrival.contents).flatten.length

variable {rounds : List (FerryRound Readings)} {r : FerryRound Readings}

theorem callOf_readings (turns : Nat → Poller.Turn (FerryAnswer Readings)) :
    ((FerryRound.callOf turns 0).map readings).Sublist [(turns 0).served.queue] ∧
      ((FerryRound.callOf turns 1).map readings).Sublist [(turns 1).served.queue] := by
  constructor
  · cases hdatagram : (turns 0).served.datagram <;> simp [FerryRound.callOf, hdatagram, readings]
  · cases hkernel : (turns 1).served.kernel <;> simp [FerryRound.callOf, hkernel, readings]

theorem calls_readings (r : FerryRound Readings) :
    (r.calls.map readings).Sublist [r.waits, (r.turns 0).served.queue, (r.turns 1).served.queue] := by
  obtain ⟨hread, hwrite⟩ := callOf_readings r.turns
  have hcalls : r.calls = .waitTime r.waits ::
      (FerryRound.callOf r.turns 0 ++ FerryRound.callOf r.turns 1) := by
    simp [FerryRound.calls, List.range_succ, FerryRound.callOf]
  rw [hcalls, List.map_cons, List.map_append]
  exact (hread.append hwrite).cons_cons _

theorem rounds_readings (rounds : List (FerryRound Readings)) :
    ((rounds.flatMap FerryRound.calls).map readings).Sublist (rounds.flatMap readingsOf) := by
  induction rounds with
  | nil => exact .slnil
  | cons r rounds ih =>
      rw [List.flatMap_cons, List.map_append, List.flatMap_cons]
      exact ((calls_readings r).trans ((List.sublist_cons_self _ _).cons_cons _)).append ih

theorem Lawful.steady (h : Lawful rounds) (hsub : calls.Sublist (rounds.flatMap FerryRound.calls)) :
    Steady (calls.map readings) :=
  Steady.sublist h ((hsub.map readings).trans (rounds_readings rounds))

/-- The readings of a poll come after those before it. -/
theorem Lawful.poll (h : Lawful (rounds ++ [r]))
    (hsub : calls.Sublist (rounds.flatMap FerryRound.calls ++ [.waitTime r.waits])) :
    Steady (calls.map readings ++
      [(r.turns 1).asked.queue, (r.turns 0).served.queue, (r.turns 1).served.queue]) := by
  refine Steady.sublist h ?_
  rw [List.flatMap_append, List.flatMap_singleton]
  refine ((hsub.map readings).append (.refl _)).trans ?_
  rw [List.map_append, List.append_assoc]
  exact (rounds_readings rounds).append (.refl _)

theorem reads_keeps (hdelay : delayMs < 2 ^ 32) {turns : Nat → Poller.Turn (FerryAnswer Readings)}
    (hsmall : (turns 0).served.queue 0 < 2 ^ 63) (hv : Keeps delayMs gone left v)
    {reads : List (FerryCall Readings)} (hreads : reads.Sublist (FerryRound.callOf turns 0))
    (hrun : run (FerryCall.step ferry) reads v = .ok v') :
    Keeps delayMs gone (left ++ reads.filterMap arrivalOf) v' ∧ v'.2 = v.2 := by
  have hnone : ∀ {v'}, run (FerryCall.step ferry) [] v = .ok v' →
      Keeps delayMs gone (left ++ [].filterMap arrivalOf) v' ∧ v'.2 = v.2 := by
    rintro v' ⟨⟩
    exact ⟨(List.append_nil left).symm ▸ hv, rfl⟩
  simp only [FerryRound.callOf] at hreads
  cases hdatagram : (turns 0).served.datagram with
  | none =>
      rw [hdatagram] at hreads
      obtain rfl := List.sublist_nil.mp hreads
      exact hnone hrun
  | some datagram =>
      rw [hdatagram] at hreads
      rcases List.sublist_cons_iff.mp hreads with hnil | ⟨_, rfl, hnil⟩
      · obtain rfl := List.sublist_nil.mp hnil
        exact hnone hrun
      · obtain rfl := List.sublist_nil.mp hnil
        rw [run_singleton] at hrun
        obtain ⟨v₁, hread, hsame, hkeeps⟩ := hv.reads hdelay hsmall _
        cases hread.symm.trans hrun
        exact ⟨hkeeps, hsame⟩

/-- What a poll that calls `write_packets` has done. -/
theorem poll_writes (hdelay : delayMs < 2 ^ 32) {turns : Nat → Poller.Turn (FerryAnswer Readings)}
    (h : Steady (calls.map readings ++
      [(turns 1).asked.queue, (turns 0).served.queue, (turns 1).served.queue]))
    (hcame : gone ++ left = calls.filterMap arrivalOf) (hv : Keeps delayMs gone left v)
    {reads : List (FerryCall Readings)} (hreads : reads.Sublist (FerryRound.callOf turns 0))
    (hrun : run (FerryCall.step ferry) reads v = .ok v') {kernel : Nat → Nat}
    {v'' : DelayLine × List (Readings × List Payload)}
    (hwrite : FerryCall.step ferry (.writePackets (turns 1).served.queue kernel) v' = .ok v'') :
    ∃ due rest out, left ++ reads.filterMap arrivalOf = due ++ rest ∧
      (∀ a ∈ rest, (turns 1).asked.queue 0 < a.time + delayMs) ∧ v''.2 = v.2 ++ out ∧
      List.Forall₂ WrittenIn due out := by
  obtain ⟨-, hlast, -⟩ := List.pairwise_append.mp h.forward
  obtain ⟨hasked, -⟩ := List.pairwise_cons.mp hlast
  have hsmall := h.small (turns 0).served.queue (by simp) 0
  obtain ⟨hv', hsame⟩ := reads_keeps hdelay hsmall hv hreads hrun
  have hsub := (hreads.map readings).trans (callOf_readings turns).1
  have hsteady : Steady ((calls ++ reads).map readings) := by
    refine h.sublist ?_
    rw [List.map_append]
    exact (List.Sublist.refl _).append
      (hsub.trans (((List.nil_sublist _).cons_cons _).cons _))
  have hsorted := arrivals_sorted hsteady
  rw [List.filterMap_append, ← hcame, List.append_assoc] at hsorted
  obtain ⟨due, rest, hsplit, -, out, hout, hwrote, hhead⟩ :=
    (hv'.writes (h.mono _ (by simp))).of_ok hwrite
  refine ⟨due, rest, out, hsplit, fun a ha => ?_, hsame ▸ hout, hwrote⟩
  rw [hsplit] at hsorted
  have hrest := (List.pairwise_append.mp (List.pairwise_append.mp hsorted).2.1).2.1
  cases rest with
  | nil => cases ha
  | cons b rest =>
      have hb := hhead b rfl
      have hle := hasked (turns 1).served.queue (by simp) 0
      rcases List.mem_cons.mp ha with rfl | ha
      · omega
      · have := (List.pairwise_cons.mp hrest).1 a ha
        omega

theorem written_calls {due : List Arrival} {out : List (Readings × List Payload)}
    (h : List.Forall₂ WrittenIn due out) : due.length ≤ (out.map (·.2.length)).sum ∧
      (out.map (·.2.length)).sum ≤ (due.map Arrival.contents).flatten.length := by
  induction h with
  | nil => exact ⟨le_rfl, le_rfl⟩
  | cons hwritten _ ih =>
      obtain ⟨-, hpos, hle⟩ := hwritten
      simp only [List.map_cons, List.sum_cons, List.length_cons, List.flatten_cons,
        List.length_append]
      omega

theorem written_contents {due : List Arrival} {out : List (Readings × List Payload)}
    (h : List.Forall₂ WrittenIn due out) :
    out.map (·.2.flatten) = due.map Arrival.contents := by
  induction h with
  | nil => rfl
  | cons hwritten _ ih => rw [List.map_cons, List.map_cons, hwritten.flatten, ih]

theorem release_contents (left : List Arrival) :
    (left.map (Arrival.release delayMs)).map Prod.snd = left.map Arrival.contents := by
  rw [List.map_map]
  rfl

/-- What is queued when the poller asks. -/
theorem asked_keeps (hdelay : delayMs < 2 ^ 32) (h : Lawful (rounds ++ [r]))
    (hsub : calls.Sublist (rounds.flatMap FerryRound.calls ++ [.waitTime r.waits]))
    (hrun : run (FerryCall.step ferry) calls ({ delayMs }, []) = .ok v) :
    ∃ gone left, gone ++ left = calls.filterMap arrivalOf ∧ Keeps delayMs gone left v ∧
      left.Pairwise (fun a b => a.time ≤ b.time) ∧
      ∀ a ∈ left, a.time ≤ (r.turns 1).asked.queue 0 := by
  have hpoll := h.poll hsub
  have hsteady : Steady (calls.map readings ++ [(r.turns 1).asked.queue]) :=
    hpoll.sublist ((List.Sublist.refl _).append ((List.nil_sublist _).cons_cons _))
  have hcalls := hsteady.sublist (List.sublist_append_left _ _)
  obtain ⟨gone, left, hcame, hv⟩ := (run_keeps hdelay hcalls).of_ok hrun
  have hsorted := arrivals_sorted hcalls
  rw [← hcame] at hsorted
  exact ⟨gone, left, hcame, hv, (List.pairwise_append.mp hsorted).2.1,
    fun a ha => arrivals_past hsteady a (hcame ▸ List.mem_append_right _ ha)⟩

theorem loop_excused (hdelay : delayMs < 2 ^ 32) (h : Lawful rounds) :
    ∀ e, Ferry.loop ferry { delayMs } rounds = .error e → Excused rounds e := by
  intro e he
  have hthrows := (Ferry.loop_runs ({ delayMs } : DelayLine) rounds).of_error he
  match e, hthrows with
  | .callback (.queue e), ⟨calls, hsub, herror⟩ =>
      obtain ⟨hnothing, a, ha, hnil⟩ := (run_keeps hdelay (h.steady hsub)).of_error herror
      exact ⟨hnothing, a, (hsub.filterMap _).subset ha, hnil⟩
  | .callback .systemCall, _ => trivial
  | .callback .signal, _ => trivial
  | .busyWait, ⟨done, r, hpre, calls, v, hsub, hrun, hpending, reads, hreads, q, sent, hrun', kernel,
      pieces, q', hwrite, hcount⟩ =>
      have hlawful : Lawful (done ++ [r]) := Steady.sublist h (hpre.sublist.flatMap _)
      obtain ⟨gone, left, hcame, hv, hsorted, hpast⟩ := asked_keeps hdelay hlawful hsub hrun
      obtain ⟨a, ha, hdue⟩ := (hv.pending_iff hdelay hsorted hpast).mp hpending
      have hpoll := hlawful.poll hsub
      have hsame := (reads_keeps hdelay (hpoll.small _ (by simp) 0) hv hreads hrun').2
      have hstep : FerryCall.step ferry (.writePackets (r.turns 1).served.queue kernel) (q, sent) =
          .ok (q', sent ++ pieces.map ((r.turns 1).served.queue, ·)) := by
        rw [FerryCall.step, hwrite]
        rfl
      obtain ⟨due, rest, out, hsplit, hrest, hout, hwrote⟩ :=
        poll_writes hdelay hpoll hcame hv hreads hrun' hstep
      rw [← hsame] at hout
      obtain rfl := List.append_cancel_left hout
      -- a packet that made `pending_output` true is written
      have hmem : a ∈ due := by
        have hmem : a ∈ due ++ rest := hsplit ▸ List.mem_append_left _ ha
        exact (List.mem_append.mp hmem).resolve_right fun hmem => by
          have := hrest a hmem
          omega
      obtain ⟨hge, hle⟩ := written_calls hwrote
      rw [List.map_map] at hge hle
      have hpos := List.length_pos_of_mem hmem
      have hall := Ferry.reads_sublist hpre hsub hreads
      have harrived : due.Sublist (arrivals rounds) := by
        have hcame' : (calls ++ reads).filterMap arrivalOf = gone ++ (due ++ rest) := by
          rw [List.filterMap_append, ← hcame, List.append_assoc, hsplit]
        have hdue : due.Sublist (gone ++ (due ++ rest)) :=
          (List.sublist_append_left _ _).trans (List.sublist_append_right _ _)
        exact hdue.trans (hcame' ▸ hall.filterMap _)
      have hbytes := (harrived.map Arrival.contents).flatten.length_le
      exact (Nat.le_of_dvd (hpos.trans_le hge) hcount).trans (hle.trans hbytes)

/-- **What goes through a delay shell.** -/
theorem loop_delays (hdelay : delayMs < 2 ^ 32) (h : Lawful rounds) :
    (∀ e, Ferry.loop ferry { delayMs } rounds = .error e → Excused rounds e) ∧
    ∀ exit c, Ferry.loop ferry { delayMs } rounds = .ok (exit, c) →
      ∃ gone left, gone ++ left = c.state.received.map came ∧
        List.Forall₂ (Delays delayMs) gone c.state.queue.departed ∧
        List.Forall₂ WrittenAt c.state.sent c.state.queue.departed ∧
        c.state.queue.packetQueue = left.map (Arrival.release delayMs) := by
  refine ⟨loop_excused hdelay h, fun exit c hc => ?_⟩
  obtain ⟨-, calls, hsub, hrun, hreceived⟩ :=
    (Ferry.loop_runs ({ delayMs } : DelayLine) rounds).of_ok hc
  obtain ⟨gone, left, hcame, hkeeps⟩ := (run_keeps hdelay (h.steady hsub)).of_ok hrun
  refine ⟨gone, left, ?_, hkeeps.departed, hkeeps.sent, hkeeps.queued⟩
  rw [hreceived, List.map_filterMap]
  exact hcame

/-! ### No packet is late -/

variable {c c' : Ferry.FerrySession QueueFault Readings DelayLine} {exit : Option Nat}

/-- The timeout that `poll(2)` is given, an `int`. -/
def timeout (r : FerryRound Readings) (q : DelayLine) : Int := toI32 (q.waitTime (r.waits 0))

/-- A poll that waits for nothing else waits until the first release. -/
theorem timeout_exact {q : DelayLine} (hdelay : delayMs < 2 ^ 31)
    (hle : ∀ p ∈ q.packetQueue, p.1 ≤ r.waits 0 + delayMs)
    (hsorted : q.packetQueue.Pairwise fun p q => p.1 ≤ q.1) (hne : q.packetQueue ≠ []) :
    0 ≤ timeout r q ∧ (∃ p ∈ q.packetQueue, p.1 ≤ r.waits 0 + timeout r q) ∧
      ∀ p ∈ q.packetQueue, r.waits 0 + timeout r q ≤ max (r.waits 0) p.1 := by
  unfold timeout DelayQueue.waitTime
  cases hq : q.packetQueue with
  | nil => exact absurd hq hne
  | cons head rest =>
      obtain ⟨release, contents⟩ := head
      rw [hq] at hle hsorted
      have hhead := hle _ List.mem_cons_self
      have hrest := (List.pairwise_cons.mp hsorted).1
      dsimp only at hhead hrest ⊢
      by_cases hdue : release ≤ r.waits 0
      · rw [if_pos hdue]
        refine ⟨by decide, ⟨_, List.mem_cons_self, ?_⟩, fun p _ => ?_⟩
        · show (release : Int) ≤ _ + 0
          omega
        · show (r.waits 0 : Int) + 0 ≤ _
          omega
      · have hgap : toI32 (toU32 (release - r.waits 0 : Int) : Nat) = release - r.waits 0 := by
          rw [toU32_of_range (by omega) (by omega), toI32_of_range (by omega) (by omega)]
          omega
        rw [if_neg hdue, hgap]
        refine ⟨by omega, ⟨_, List.mem_cons_self, by dsimp only; omega⟩, fun p hp => ?_⟩
        have hle : release ≤ p.1 := by
          rcases List.mem_cons.mp hp with rfl | hp
          · exact le_rfl
          · exact hrest p hp
        omega

/-- What comes in during a round stands behind what was queued. -/
theorem due_of_queued {left new due rest : List Arrival} {now : Nat}
    (hsplit : left ++ new = due ++ rest) (hrest : ∀ a ∈ rest, now < a.time + delayMs) :
    ∃ queued waiting, left.map (Arrival.release delayMs) = queued ++ waiting ∧
      (∀ p ∈ waiting, now < p.1) ∧ queued.map Prod.snd <+: due.map Arrival.contents := by
  rcases List.append_eq_append_iff.mp hsplit with ⟨new, rfl, -⟩ | ⟨later, rfl, rfl⟩
  · refine ⟨_, [], (List.append_nil _).symm, by simp, ?_⟩
    rw [release_contents, List.map_append]
    exact List.prefix_append _ _
  · refine ⟨_, _, List.map_append, fun p hp => ?_, ?_⟩
    · obtain ⟨a, ha, rfl⟩ := List.mem_map.mp hp
      exact hrest a (List.mem_append_left _ ha)
    · rw [release_contents]

/-- **No packet is late.** -/
theorem loop_punctual (hdelay : delayMs < 2 ^ 31) (h : Lawful (rounds ++ [r]))
    (hbefore : Ferry.loop ferry { delayMs } rounds = .ok (none, c))
    (hlast : Ferry.loop ferry { delayMs } (rounds ++ [r]) = .ok (exit, c')) :
    ((r.turns 1).revents.pollOut = true → (∀ j ≤ 1, (r.turns j).revents.failed = false) →
      ∃ due rest out, c.state.queue.packetQueue = due ++ rest ∧
        (∀ p ∈ rest, (r.turns 1).asked.queue 0 < p.1) ∧ c'.state.sent = c.state.sent ++ out ∧
        due.map Prod.snd <+: out.map (·.2.flatten)) ∧
    (c.state.queue.packetQueue ≠ [] → 0 ≤ timeout r c.state.queue ∧
      (∃ p ∈ c.state.queue.packetQueue, p.1 ≤ r.waits 0 + timeout r c.state.queue) ∧
      ∀ p ∈ c.state.queue.packetQueue, r.waits 0 + timeout r c.state.queue ≤ max (r.waits 0) p.1) := by
  have hstep := Ferry.loop_snoc hbefore hlast
  have hruns := (Ferry.loop_runs _ rounds).of_ok hbefore
  obtain ⟨-, c₁, hwait, hactions, served, exit', hserved, hcame, -, hall⟩ :=
    (Ferry.roundStep_runs List.prefix_rfl hruns).of_ok hstep
  obtain ⟨hactions₀, calls, hsub, hrun, -⟩ := hruns
  have hview := ((Ferry.wait_ensures hactions₀ r.waits).of_ok hwait).2.1
  have hrun₁ : run (FerryCall.step ferry) (calls ++ [.waitTime r.waits]) ({ delayMs }, []) =
      .ok c₁.state.view := by
    rw [run_append, hrun, ok_bind, run_singleton]
    exact hview
  have hsame : c₁.state.view = c.state.view := (Except.ok.inj hview).symm
  have hsub₁ := hsub.append (List.Sublist.refl [FerryCall.waitTime r.waits])
  obtain ⟨gone, left, hcame', hv, hsorted, hpast⟩ :=
    asked_keeps (by omega) h hsub₁ hrun₁
  have hqueue : c.state.queue.packetQueue = left.map (Arrival.release delayMs) := by
    rw [← hv.queued, hsame]
    rfl
  constructor
  · intro hready hfailed
    have hpending := hv.pending_iff (by omega) hsorted hpast
    cases hasked : c₁.state.view.1.pendingOutput ((r.turns 1).asked.queue 0) with
    | false =>
        obtain ⟨out, hout⟩ := Ferry.run_sent hcame.run
        rw [hsame] at hout
        refine ⟨[], c.state.queue.packetQueue, out, rfl, fun p hp => ?_, hout.symm,
          List.nil_prefix⟩
        rw [hqueue] at hp
        obtain ⟨a, ha, rfl⟩ := List.mem_map.mp hp
        exact Nat.not_le.mp fun hdue => Bool.false_ne_true
          (hasked.symm.trans (hpending.mpr ⟨a, ha, hdue⟩))
    | true =>
        have hone : 1 ∈ served := hcame.mem_done hserved hall
          ((Ferry.one_served_iff hactions).mpr ⟨hasked, hready, hfailed⟩) (by decide)
        obtain ⟨reads, v', kernel, hreads, hrun', -, hwrite⟩ := Ferry.came_writes hcame hserved hone
        obtain ⟨due, rest, out, hsplit, hrest, hout, hwrote⟩ :=
          poll_writes (by omega) (h.poll hsub₁) hcame' hv hreads hrun' hwrite
        rw [hsame] at hout
        obtain ⟨queued, waiting, hleft, hwaiting, hprefix⟩ := due_of_queued hsplit hrest
        exact ⟨queued, waiting, out, hqueue.trans hleft, hwaiting, hout,
          written_contents hwrote ▸ hprefix⟩
  · have hcalls : Steady (calls.map readings ++ [r.waits]) := by
      have hsteady := (h.poll hsub₁).sublist (List.sublist_append_left _ _)
      rwa [List.map_append] at hsteady
    have hwaits := arrivals_past hcalls
    rw [List.filterMap_append] at hcame'
    refine timeout_exact hdelay ?_ ?_
    · intro p hp
      rw [hqueue] at hp
      obtain ⟨a, ha, rfl⟩ := List.mem_map.mp hp
      refine Nat.add_le_add_right (hwaits a ?_) delayMs
      rw [← List.append_nil (calls.filterMap arrivalOf)]
      exact hcame' ▸ List.mem_append_right _ ha
    · rw [hqueue, List.pairwise_map]
      exact hsorted.imp fun hle => Nat.add_le_add_right hle delayMs

/-- A datagram is read at `now`. -/
def reading (now : Nat) (datagram : Payload) : FerryRound Readings :=
  let answer := { queue := fun _ => now, datagram := some datagram, kernel := none, signal := none }
  { waits := fun _ => now
    turns := fun i => { asked := answer, revents := { pollIn := i = 0 }, served := answer } }

/-- The sibling can be written at `now`, two bytes at a time. -/
def writing (now : Nat) : FerryRound Readings :=
  let answer := { queue := fun _ => now, datagram := none, kernel := some fun _ => 1, signal := none }
  { waits := fun _ => now
    turns := fun i => { asked := answer, revents := { pollOut := i = 1 }, served := answer } }

theorem lawful_twoDatagrams :
    Lawful ([reading 5 [1, 2, 3], reading 7 [4]] ++ [writing 15]) := by
  refine ⟨?_, ?_, ?_⟩
  all_goals simp [readingsOf, reading, writing, monotone_const]

theorem loop_delays_twoDatagrams : ∃ c,
    Ferry.loop ferry { delayMs := 10 } ([reading 5 [1, 2, 3], reading 7 [4]] ++ [writing 15]) =
      .ok (none, c) ∧ c.state.sent.map Prod.snd = [[[1, 2], [3]]] ∧
    ∃ gone left, gone ++ left = c.state.received.map came ∧
      List.Forall₂ (Delays 10) gone c.state.queue.departed ∧
      List.Forall₂ WrittenAt c.state.sent c.state.queue.departed ∧
      c.state.queue.packetQueue = left.map (Arrival.release 10) := by
  have hrun : (Ferry.loop ferry { delayMs := 10 }
      ([reading 5 [1, 2, 3], reading 7 [4]] ++ [writing 15])).map
        (fun r => (r.1, r.2.state.sent.map Prod.snd)) = .ok (none, [[[1, 2], [3]]]) := by
    decide +kernel
  obtain ⟨⟨exit, c⟩, hc, hsent⟩ := of_map_ok hrun
  obtain ⟨rfl, hsent⟩ := Prod.mk.inj hsent
  exact ⟨c, hc, hsent, (loop_delays (by decide) lawful_twoDatagrams).2 _ c hc⟩

theorem loop_punctual_twoDatagrams : ∃ c c',
    Ferry.loop ferry { delayMs := 10 } [reading 5 [1, 2, 3], reading 7 [4]] = .ok (none, c) ∧
    Ferry.loop ferry { delayMs := 10 } ([reading 5 [1, 2, 3], reading 7 [4]] ++ [writing 15]) =
      .ok (none, c') ∧
    ∃ due rest out, c.state.queue.packetQueue = due ++ rest ∧ (∀ p ∈ rest, 15 < p.1) ∧
      c'.state.sent = c.state.sent ++ out ∧ due.map Prod.snd <+: out.map (·.2.flatten) := by
  have hbefore : (Ferry.loop ferry { delayMs := 10 } [reading 5 [1, 2, 3], reading 7 [4]]).map
      (fun r => r.1) = .ok none := by decide +kernel
  have hlast : (Ferry.loop ferry { delayMs := 10 }
      ([reading 5 [1, 2, 3], reading 7 [4]] ++ [writing 15])).map (fun r => r.1) = .ok none := by
    decide +kernel
  obtain ⟨⟨exit, c⟩, hc, rfl⟩ := of_map_ok hbefore
  obtain ⟨⟨exit', c'⟩, hc', rfl⟩ := of_map_ok hlast
  exact ⟨c, c', hc, hc', (loop_punctual (by decide) lawful_twoDatagrams hc hc').1 rfl (by decide)⟩

end DelayShell

end Mahimahi
