import Mathlib.Data.List.TakeWhile
import Mahimahi.Util.Descriptor

/-!
# Util — `Poller`

`poll` asks every action whether it is interested, waits, and calls the callbacks of the actions
whose descriptors are ready, in order.  An action is asked before the wait and called after it, when
the callbacks in front of its own have already run.

A `Session` is the actions and what they act on.  `turns i` is what the surroundings of entry number
`i` decide in one poll, so a run is a list of such functions, and `poll(2)` may report anything.
The two vectors of the source are one list here: `pollfds_` holds the descriptor number of each
action and the `events` of the last poll.

* `serve_eq`: a poll is a run of the calls that `poll(2)` asked for, up to the first failure.
* `poll_ensures`: the rule for one poll.  What an action asked for must survive the calls in front
  of its own.
* `loop_ensures`: the rule for the loops that poll until they are told to exit.
-/

open Fallible

namespace Mahimahi

/-- What a `FileDescriptor` counts.  The counts are `unsigned int`s. -/
structure FileDescriptor where
  eof : Bool := false
  readCount : UInt32 := 0
  writeCount : UInt32 := 0
  deriving DecidableEq, Repr

namespace FileDescriptor

/-- After a `read(2)` that returned `chunk`. -/
def afterRead (chunk : List UInt8) (fd : FileDescriptor) : FileDescriptor :=
  { fd with eof := fd.eof || chunk.isEmpty, readCount := fd.readCount + 1 }

/-- After `calls` calls of `write(2)`. -/
def afterWrites (calls : Nat) (fd : FileDescriptor) : FileDescriptor :=
  { fd with writeCount := fd.writeCount + UInt32.ofNat calls }

theorem count_same_iff (n : UInt32) (calls : Nat) :
    n = n + UInt32.ofNat calls ↔ 2 ^ 32 ∣ calls := by
  rw [← UInt32.toNat_inj, UInt32.toNat_add, UInt32.toNat_ofNat']
  have := n.toNat_lt
  omega

theorem count_moves (n : UInt32) : n ≠ n + 1 := fun h => by
  have := (count_same_iff n 1).mp h
  omega

end FileDescriptor

namespace Poller

inductive Direction where
  /-- `POLLIN` -/
  | pollIn
  /-- `POLLOUT` -/
  | pollOut
  deriving DecidableEq, Repr

/-- The bits of a `revents`. -/
structure Revents where
  pollIn : Bool := false
  pollOut : Bool := false
  pollErr : Bool := false
  pollHup : Bool := false
  pollNval : Bool := false
  deriving DecidableEq, Repr

namespace Revents

/-- `revents & (POLLERR | POLLHUP | POLLNVAL)` -/
def failed (r : Revents) : Bool := r.pollErr || r.pollHup || r.pollNval

/-- `revents & events` -/
def meets (r : Revents) : Option Direction → Bool
  | none => false
  | some .pollIn => r.pollIn
  | some .pollOut => r.pollOut

end Revents

/-- `Action::Result` -/
inductive ActionResult where
  | continues
  | exits (exitStatus : Nat)
  | cancels
  deriving DecidableEq, Repr

/-- `Poller::Result` -/
inductive Result where
  | success
  | timeout
  | exit (exitStatus : Nat)
  deriving DecidableEq, Repr

def Result.exitStatus? : Result → Option Nat
  | .exit status => some status
  | .success | .timeout => none

/-- `ε` is what a callback may throw, `κ` what it may be told, and `σ` what it acts on. -/
structure Action (ε κ σ : Type) where
  fd : σ → FileDescriptor
  direction : Direction
  callback : κ → σ → Except ε (ActionResult × σ)
  whenInterested : κ → σ → Bool := fun _ _ => true
  active : Bool := true

inductive PollFault (ε : Type) where
  | callback (e : ε)
  /-- `Poller: busy wait detected: callback did not read/write fd` -/
  | busyWait
  deriving DecidableEq, Repr

/-- What the surroundings of an action decide in one poll. -/
structure Turn (κ : Type) where
  /-- when it is asked whether it is interested -/
  asked : κ
  revents : Revents := {}
  /-- when its callback runs -/
  served : κ

variable {ε κ σ : Type}

namespace Action

def serviceCount (a : Action ε κ σ) (s : σ) : UInt32 :=
  match a.direction with
  | .pollIn => (a.fd s).readCount
  | .pollOut => (a.fd s).writeCount

/-- `pollfds_.at( i ).events`, which is 0 for `none`. -/
def events (a : Action ε κ σ) (k : κ) (s : σ) : Option Direction :=
  if a.direction = .pollIn ∧ (a.fd s).eof = true then none
  else if a.active && a.whenInterested k s then some a.direction else none

def cancel (a : Action ε κ σ) : Action ε κ σ := { a with active := false }

/-- An action is polled for if it is active and interested, and not at the end of its file. -/
theorem events_isSome_iff {a : Action ε κ σ} {k : κ} {s : σ} :
    (a.events k s).isSome = true ↔ a.active = true ∧ a.whenInterested k s = true ∧
      (a.direction = .pollIn → (a.fd s).eof = false) := by
  unfold events
  split
  next h => simp [h]
  next h =>
    split
    next h' => simp_all
    next h' => simp_all

end Action

structure Session (ε κ σ : Type) where
  actions : List (Action ε κ σ)
  state : σ

namespace Session

/-- Lines 60–73: the callback of action number `i`, and the exit status that it asks for. -/
def call (i : Nat) (k : κ) (c : Session ε κ σ) :
    Except (PollFault ε) (Option Nat × Session ε κ σ) :=
  match c.actions[i]? with
  | none => .ok (none, c)
  | some a => do
      let countBefore := a.serviceCount c.state
      let (result, state) ← (a.callback k c.state).mapError .callback
      let actions := if result = .cancels then c.actions.set i a.cancel else c.actions
      match result with
      | .exits status => return (some status, { actions, state })
      | .continues | .cancels =>
          if countBefore = a.serviceCount state then throw .busyWait
          return (none, { actions, state })

/-- `pollfds_`, once every action was asked. -/
def events (turns : Nat → Turn κ) (c : Session ε κ σ) (i : Nat) : Option Direction :=
  c.actions[i]?.bind fun a => a.events (turns i).asked c.state

theorem events_eq {turns : Nat → Turn κ} {c : Session ε κ σ} {i : Nat} {a : Action ε κ σ}
    (ha : c.actions[i]? = some a) : c.events turns i = a.events (turns i).asked c.state := by
  rw [events, ha]
  rfl

/-- The loop of lines 51–76 over the entries `is`. -/
def serve (turns : Nat → Turn κ) (events : Nat → Option Direction) :
    List Nat → Session ε κ σ → Except (PollFault ε) (Result × Session ε κ σ)
  | [], c => .ok (.success, c)
  | i :: is, c =>
      if (turns i).revents.failed then .ok (.exit 0, c)
      else if (turns i).revents.meets (events i) then do
        let (exit, c) ← c.call i (turns i).served
        match exit with
        | some status => return (.exit status, c)
        | none => serve turns events is c
      else serve turns events is c

/-- `poll(2)` returns the number of entries whose `revents` are not 0. -/
def poll (turns : Nat → Turn κ) (c : Session ε κ σ) :
    Except (PollFault ε) (Result × Session ε κ σ) :=
  let events := c.events turns
  let entries := List.range c.actions.length
  if entries.all fun i => (events i).isNone then .ok (.exit 0, c)
  else if entries.all fun i => (turns i).revents = {} then .ok (.timeout, c)
  else serve turns events entries c

/-- `while ( true ) { if ( poll() is an exit ) return; }`, one turn of it; a session that has exited
stays as it is. -/
def loopStep (turns : Nat → Turn κ) :
    Option Nat × Session ε κ σ → Except (PollFault ε) (Option Nat × Session ε κ σ)
  | (some status, c) => .ok (some status, c)
  | (none, c) => do
      let (result, c) ← c.poll turns
      return (result.exitStatus?, c)

/-! ### A poll as a run of calls -/

/-- The entries whose callbacks a poll comes to. -/
def called (turns : Nat → Turn κ) (events : Nat → Option Direction) (is : List Nat) : List Nat :=
  (is.takeWhile fun i => !(turns i).revents.failed).filter fun i =>
    (turns i).revents.meets (events i)

/-- A call, unless one before it has asked for the exit. -/
def callStep (turns : Nat → Turn κ) (i : Nat) :
    Option Nat × Session ε κ σ → Except (PollFault ε) (Option Nat × Session ε κ σ)
  | (some status, c) => .ok (some status, c)
  | (none, c) => c.call i (turns i).served

/-- What a poll makes of its calls. -/
def finish (failed : Bool) (r : Option Nat × Session ε κ σ) : Result × Session ε κ σ :=
  match r.1 with
  | some status => (.exit status, r.2)
  | none => (if failed then .exit 0 else .success, r.2)

variable {turns : Nat → Turn κ} {events : Nat → Option Direction} {is : List Nat}
  {c c' : Session ε κ σ} {i : Nat}

theorem run_callStep_exited (status : Nat) (is : List Nat) (c : Session ε κ σ) :
    run (callStep turns) is (some status, c) = .ok (some status, c) := by
  induction is with
  | nil => rfl
  | cons i is ih =>
      rw [run_cons]
      exact ih

theorem called_failed (h : (turns i).revents.failed = true) (is : List Nat) :
    called turns events (i :: is) = [] := by
  simp [called, h]

theorem called_met (h : (turns i).revents.failed = false)
    (hmeets : (turns i).revents.meets (events i) = true) (is : List Nat) :
    called turns events (i :: is) = i :: called turns events is := by
  simp [called, h, hmeets]

theorem called_unmet (h : (turns i).revents.failed = false)
    (hmeets : (turns i).revents.meets (events i) = false) (is : List Nat) :
    called turns events (i :: is) = called turns events is := by
  simp [called, h, hmeets]

/-- **A poll is a run of its calls.** -/
theorem serve_eq (turns : Nat → Turn κ) (events : Nat → Option Direction) (is : List Nat)
    (c : Session ε κ σ) :
    serve turns events is c =
      (run (callStep turns) (called turns events is) (none, c)).map
        (finish (is.any fun i => (turns i).revents.failed)) := by
  induction is generalizing c with
  | nil => rfl
  | cons i is ih =>
      rw [serve]
      by_cases hfailed : (turns i).revents.failed = true
      · rw [if_pos hfailed, called_failed hfailed, List.any_cons, hfailed]
        rfl
      · have hok : (turns i).revents.failed = false := Bool.eq_false_iff.mpr hfailed
        rw [if_neg hfailed, List.any_cons, hok, Bool.false_or]
        by_cases hmeets : (turns i).revents.meets (events i) = true
        · rw [if_pos hmeets, called_met hok hmeets, run_cons, map_bind]
          refine bind_congr_ok fun r _ => ?_
          obtain ⟨exit, c'⟩ := r
          cases exit with
          | some status => rw [run_callStep_exited]; rfl
          | none => exact ih c'
        · rw [if_neg hmeets, called_unmet hok (Bool.eq_false_iff.mpr hmeets), ih]

theorem mem_called (h : i ∈ called turns events is) :
    i ∈ is ∧ (turns i).revents.failed = false ∧ (events i).isSome = true := by
  obtain ⟨hmem, hmeets⟩ := List.mem_filter.mp h
  refine ⟨(List.takeWhile_prefix _).subset hmem, ?_, ?_⟩
  · simpa using List.mem_takeWhile_imp hmem
  · cases hevents : events i with
    | none => rw [hevents] at hmeets; cases hmeets
    | some d => rfl

theorem called_sorted (h : is.Pairwise (· < ·)) : (called turns events is).Pairwise (· < ·) :=
  (h.sublist (List.takeWhile_sublist _)).filter _

/-! ### Rules -/

/-- What is known of a call of action number `i`: it keeps `I`, and of what the actions behind it
asked for it takes nothing away. -/
def CallEnsures (E : PollFault ε → Prop) (I : Option Nat × Session ε κ σ → Prop)
    (pre : Nat → Session ε κ σ → Prop) (i : Nat) (k : κ) (c : Session ε κ σ) : Prop :=
  Ensures E (fun r => I r ∧ ∀ j, i < j → pre j c → pre j r.2) (c.call i k)

variable {E : PollFault ε → Prop} {I : Option Nat × Session ε κ σ → Prop}
  {pre : Nat → Session ε κ σ → Prop}

/-- What a callback has to have done for its call to end in `Q`: unless it asks for the exit, it has
used its descriptor. -/
def Answers (E : PollFault ε → Prop) (Q : Option Nat × Session ε κ σ → Prop) (i : Nat)
    (a : Action ε κ σ) (c : Session ε κ σ) (r : ActionResult × σ) : Prop :=
  match r.1 with
  | .exits status => Q (some status, { c with state := r.2 })
  | .continues => (a.serviceCount c.state = a.serviceCount r.2 → E .busyWait) ∧
      Q (none, { c with state := r.2 })
  | .cancels => (a.serviceCount c.state = a.serviceCount r.2 → E .busyWait) ∧
      Q (none, { actions := c.actions.set i a.cancel, state := r.2 })

/-- **The rule for a call.** -/
theorem call_ensures {Q : Option Nat × Session ε κ σ → Prop} {a : Action ε κ σ} {k : κ}
    (ha : c.actions[i]? = some a)
    (h : Ensures (fun e => E (.callback e)) (Answers E Q i a c) (a.callback k c.state)) :
    Ensures E Q (c.call i k) := by
  unfold call
  rw [ha]
  refine Ensures.bind (Ensures.mapError h) fun r hr => ?_
  obtain ⟨result, state⟩ := r
  cases result with
  | exits status => exact hr
  | continues | cancels =>
      obtain ⟨hcount, hQ⟩ := hr
      show Ensures E Q (if _ then _ else _)
      split
      next hsame => exact hcount hsame
      next => exact hQ

theorem call_absent {Q : Option Nat × Session ε κ σ → Prop} {k : κ} (hi : c.actions[i]? = none)
    (hQ : Q (none, c)) : Ensures E Q (c.call i k) := by
  unfold call
  rw [hi]
  exact hQ

/-- The rule for the calls of one poll. -/
theorem run_callStep_ensures {is : List Nat} (hsorted : is.Pairwise (· < ·))
    (hcall : ∀ i ∈ is, ∀ c, I (none, c) → pre i c → CallEnsures E I pre i (turns i).served c)
    (hc : I (none, c)) (hpre : ∀ i ∈ is, pre i c) :
    Ensures E I (run (callStep turns) is (none, c)) := by
  induction is generalizing c with
  | nil => exact hc
  | cons i is ih =>
      obtain ⟨hfirst, hrest⟩ := List.pairwise_cons.mp hsorted
      obtain ⟨hi, his⟩ := List.forall_mem_cons.mp hpre
      obtain ⟨hcalli, hcall⟩ := List.forall_mem_cons.mp hcall
      rw [run_cons]
      refine (hcalli c hc hi).bind fun r hr => ?_
      obtain ⟨exit, c'⟩ := r
      cases exit with
      | some status =>
          rw [run_callStep_exited]
          exact hr.1
      | none => exact ih hrest hcall hr.1 fun j hj => hr.2 j (hfirst j hj) (his j hj)

/-- **The rule for one poll.** -/
theorem poll_ensures
    (hcall : ∀ i c, I (none, c) → pre i c → CallEnsures E I pre i (turns i).served c)
    (hexit : ∀ c, I (none, c) → I (some 0, c)) (hc : I (none, c))
    (hpre : ∀ i, (c.events turns i).isSome = true → pre i c) :
    Ensures E (fun r => I (r.1.exitStatus?, r.2)) (c.poll turns) := by
  unfold poll
  dsimp only
  split
  · exact hexit c hc
  · split
    · exact hc
    · rw [serve_eq]
      refine Ensures.map ?_
      refine Ensures.mono (run_callStep_ensures (called_sorted List.pairwise_lt_range)
        (fun i _ c => hcall i c) hc fun i hi => hpre i (mem_called hi).2.2) fun r hr => ?_
      obtain ⟨exit, c'⟩ := r
      cases exit with
      | some status => exact hr
      | none =>
          unfold finish
          dsimp only
          split
          · exact hexit c' hr
          · exact hr

/-- The entries that a poll serves. -/
def served (turns : Nat → Turn κ) (c : Session ε κ σ) : List Nat :=
  called turns (c.events turns) (List.range c.actions.length)

theorem mem_takeWhile_range' {p : Nat → Bool} {n : Nat} : ∀ {start : Nat},
    i ∈ (List.range' start n).takeWhile p ↔
      start ≤ i ∧ i < start + n ∧ ∀ j, start ≤ j → j ≤ i → p j = true := by
  induction n with
  | zero => exact iff_of_false List.not_mem_nil fun h => by omega
  | succ n ih =>
      intro start
      rw [List.range'_succ, List.takeWhile_cons]
      by_cases hp : p start = true
      · rw [if_pos hp, List.mem_cons, ih]
        constructor
        · rintro (rfl | ⟨hle, hlt, hall⟩)
          · exact ⟨le_rfl, by omega, fun j hge hle => Nat.le_antisymm hge hle ▸ hp⟩
          · refine ⟨by omega, by omega, fun j hge hle' => ?_⟩
            rcases Nat.eq_or_lt_of_le hge with rfl | hlt'
            · exact hp
            · exact hall j hlt' hle'
        · rintro ⟨hle, hlt, hall⟩
          rcases Nat.eq_or_lt_of_le hle with rfl | hlt'
          · exact .inl rfl
          · exact .inr ⟨hlt', by omega, fun j hge => hall j (by omega)⟩
      · rw [if_neg hp]
        exact iff_of_false List.not_mem_nil fun h => hp (h.2.2 start le_rfl h.1)

/-- An entry is served if it meets what it asked for and no entry up to it has failed. -/
theorem mem_served_iff : i ∈ c.served turns ↔ i < c.actions.length ∧
    (∀ j ≤ i, (turns j).revents.failed = false) ∧
    (turns i).revents.meets (c.events turns i) = true := by
  rw [served, called, List.mem_filter, List.range_eq_range', mem_takeWhile_range']
  simp [and_assoc]

theorem served_eq_nil
    (h : ∀ i ∈ List.range c.actions.length, (turns i).revents.meets (c.events turns i) = false) :
    c.served turns = [] := by
  refine List.filter_eq_nil_iff.mpr fun i hi => ?_
  rw [h i ((List.takeWhile_sublist _).subset hi)]
  exact Bool.false_ne_true

/-- **The rule for one poll**, with the calls made so far at hand. -/
theorem poll_ensures_run {J : List Nat → Option Nat × Session ε κ σ → Prop}
    (hcall : ∀ done i c', J done (none, c') → done ++ [i] <+: c.served turns →
      Ensures E (J (done ++ [i])) (c'.call i (turns i).served))
    (hc : J [] (none, c)) :
    Ensures E (fun r => ∃ done exit, done <+: c.served turns ∧ J done (exit, r.2) ∧
      (r.1.exitStatus? = exit ∨ (exit = none ∧ r.1.exitStatus? = some 0)) ∧
      (exit = none → done = c.served turns)) (c.poll turns) := by
  unfold poll
  dsimp only
  split
  next hnone =>
    refine ⟨[], none, List.nil_prefix, hc, .inr ⟨rfl, rfl⟩, fun _ => (served_eq_nil ?_).symm⟩
    intro i hi
    rw [Option.isNone_iff_eq_none.mp (List.all_eq_true.mp hnone i hi)]
    rfl
  next =>
    split
    next hquiet =>
      refine ⟨[], none, List.nil_prefix, hc, .inl rfl, fun _ => (served_eq_nil ?_).symm⟩
      intro i hi
      rw [of_decide_eq_true (List.all_eq_true.mp hquiet i hi)]
      cases c.events turns i with
      | none => rfl
      | some d => cases d <;> rfl
    next =>
      rw [serve_eq]
      -- after an exit the run has come to the end of `before`
      have hrun : Ensures E (fun r => ∃ before, before <+: c.served turns ∧ J before r ∧
          (r.1 = none → before = c.served turns)) (run (callStep turns) (c.served turns) (none, c)) := by
        refine ensures_run (P := fun done r => ∃ before, before <+: done ∧ J before r ∧
          (r.1 = none → before = done)) ⟨[], List.prefix_rfl, hc, fun _ => rfl⟩ ?_
        rintro done ⟨exit, c'⟩ i ⟨before, hbefore, hJ, hall⟩ - hpre
        cases exit with
        | some status =>
            exact ⟨before, hbefore.trans (List.prefix_append _ _), hJ, fun h => nomatch h⟩
        | none =>
            obtain rfl := hall rfl
            exact (hcall before i c' hJ hpre).mono fun r hr =>
              ⟨before ++ [i], List.prefix_rfl, hr, fun _ => rfl⟩
      refine Ensures.map (hrun.mono ?_)
      rintro ⟨exit, c'⟩ ⟨before, hbefore, hJ, hall⟩
      cases exit with
      | some status => exact ⟨before, some status, hbefore, hJ, .inl rfl, fun h => nomatch h⟩
      | none =>
          refine ⟨before, none, hbefore, hJ, ?_, hall⟩
          unfold finish
          dsimp only
          split
          · exact .inr ⟨rfl, rfl⟩
          · exact .inl rfl

/-- **The rule for a loop of polls.** -/
theorem loop_ensures
    (hcall : ∀ i k c, I (none, c) → pre i c → CallEnsures E I pre i k c)
    (hexit : ∀ c, I (none, c) → I (some 0, c))
    (hpre : ∀ turns i c, I (none, c) → (c.events turns i).isSome = true → pre i c)
    (hc : I (none, c)) (rounds : List (Nat → Turn κ)) :
    Ensures E I (run loopStep rounds (none, c)) := by
  refine ensures_run (P := fun _ => I) hc fun _ r turns hr _ _ => ?_
  obtain ⟨exit, c'⟩ := r
  cases exit with
  | some status => exact hr
  | none =>
      exact (poll_ensures (fun i => hcall i _) hexit hr fun i => hpre turns i c' hr).bind
        fun r hr' => hr'

/-! ### Quiet polls -/

/-- No callback asks for the exit. -/
def NeverExits (c : Session ε κ σ) : Prop :=
  ∀ a ∈ c.actions, ∀ k s status s', a.callback k s ≠ .ok (.exits status, s')

/-- What a call that returns has done. -/
theorem call_cases {k : κ} {exit : Option Nat} (h : c.call i k = .ok (exit, c')) :
    (exit = none ∧ c' = c) ∨ ∃ a result, c.actions[i]? = some a ∧
      a.callback k c.state = .ok (result, c'.state) ∧
      c'.actions = (if result = .cancels then c.actions.set i a.cancel else c.actions) ∧
      ((∃ status, result = .exits status ∧ exit = some status) ∨
        (exit = none ∧ a.serviceCount c.state ≠ a.serviceCount c'.state)) := by
  unfold call at h
  cases ha : c.actions[i]? with
  | none =>
      rw [ha] at h
      cases h
      exact .inl ⟨rfl, rfl⟩
  | some a =>
      rw [ha] at h
      obtain ⟨⟨result, state⟩, hcallback, h⟩ := bind_ok.mp h
      refine .inr ⟨a, result, rfl, ?_⟩
      have hcallback := of_mapError_ok hcallback
      cases result with
      | exits status =>
          cases h
          exact ⟨hcallback, rfl, .inl ⟨status, rfl, rfl⟩⟩
      | continues | cancels =>
          dsimp only at h
          split at h
          · cases h
          next hcount =>
            cases h
            exact ⟨hcallback, rfl, .inr ⟨rfl, hcount⟩⟩

theorem NeverExits.call {k : κ} {exit : Option Nat} (hc : c.NeverExits)
    (h : c.call i k = .ok (exit, c')) : exit = none ∧ c'.NeverExits := by
  rcases call_cases h with ⟨rfl, rfl⟩ | ⟨a, result, ha, hcallback, hactions, hexit⟩
  · exact ⟨rfl, hc⟩
  · have hmem : a ∈ c.actions := List.mem_of_getElem? ha
    refine ⟨?_, ?_⟩
    · rcases hexit with ⟨status, rfl, -⟩ | ⟨hnone, -⟩
      · exact absurd hcallback (hc a hmem _ _ _ _)
      · exact hnone
    · intro b hb
      rw [hactions] at hb
      split at hb
      · rcases List.mem_or_eq_of_mem_set hb with hb | rfl
        · exact hc b hb
        · exact hc a hmem
      · exact hc b hb

/-- A poll that has nothing to ask for exits. -/
theorem poll_quiet (h : ∀ i, c.events turns i = none) : c.poll turns = .ok (.exit 0, c) := by
  rw [poll, if_pos]
  exact List.all_eq_true.mpr fun i _ => by rw [h]; rfl

/-- **A poll that exits** although no entry has failed and no callback asks for it had nothing to
ask for. -/
theorem quiet_of_poll {status : Nat} (h : c.poll turns = .ok (.exit status, c'))
    (hok : ∀ i, (turns i).revents.failed = false) (hc : c.NeverExits) :
    c' = c ∧ ∀ i, c.events turns i = none := by
  have hnone : ∀ is {c : Session ε κ σ} {r}, c.NeverExits →
      run (callStep turns) is (none, c) = .ok r → r.1 = none := by
    intro is
    induction is with
    | nil => intro c r _ hr; cases hr; rfl
    | cons i is ih =>
        intro c r hc hr
        rw [run_cons] at hr
        obtain ⟨⟨exit, c'⟩, hi, hr⟩ := bind_ok.mp hr
        obtain ⟨rfl, hc'⟩ := hc.call hi
        exact ih hc' hr
  unfold poll at h
  dsimp only at h
  split at h
  next hall =>
    cases h
    refine ⟨rfl, fun i => ?_⟩
    by_cases hi : i < c.actions.length
    · exact Option.isNone_iff_eq_none.mp (List.all_eq_true.mp hall i (List.mem_range.mpr hi))
    · rw [Session.events, List.getElem?_eq_none (Nat.le_of_not_lt hi)]
      rfl
  next =>
    split at h
    · cases h
    · rw [serve_eq] at h
      obtain ⟨⟨exit, c₁⟩, hrun, hfinish⟩ := of_map_ok h
      obtain rfl : exit = none := hnone _ hc hrun
      have hany : ((List.range c.actions.length).any fun i => (turns i).revents.failed) = false :=
        List.any_eq_false.mpr fun i _ => by rw [hok]; exact Bool.false_ne_true
      rw [finish, hany] at hfinish
      cases hfinish

end Session

end Poller

end Mahimahi
