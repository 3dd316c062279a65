import Mathlib.Data.List.Flatten
import Mahimahi.Packet.Header
import Mahimahi.Util.Poller

/-!
# Ferry — `Ferry::loop`

One half of a packet shell: datagrams of a TUN device go into a queue, and what the queue lets out is
written to the other device.  `FerryQueueType` is the template's parameter.  The handlers of the DNS
proxies are left out.

A `FerryRound` is one turn of `internal_loop`: `wait_time`, and a poll.

* `loop_runs`: every run of the loop is a run of calls of the queue, each in its place in a round,
  and what the loop has written is what they wrote.
* `loop_drained`: the loop exits with status 77 only when the queue is finished, and then nothing
  waits to be written.
* `roundStep_exits_iff`: the round in which it exits.
-/

open Fallible

namespace Mahimahi

open Poller Poller.Session

/-- `ε` is what the queue `Q` may throw, and `κ` what its surroundings decide in a call. -/
structure FerryQueueType (ε κ Q : Type) where
  readPacket : κ → Payload → Q → Except ε Q
  /-- with the pieces that `write(2)` has taken of every packet -/
  writePackets : κ → (Nat → Nat) → Q → Except ε (List (List Payload) × Q)
  waitTime : κ → Q → Except ε (Nat × Q)
  pendingOutput : κ → Q → Bool
  finished : κ → Q → Bool

/-- A call of the loop that may change the queue. -/
inductive FerryCall (κ : Type) where
  | readPacket (k : κ) (contents : Payload)
  | writePackets (k : κ) (kernel : Nat → Nat)
  | waitTime (k : κ)

/-- What the surroundings of a callback decide. -/
structure FerryAnswer (κ : Type) where
  queue : κ
  /-- what is read from the TUN device, unless `read(2)` fails -/
  datagram : Option Payload
  /-- call number `n` of `write(2)` takes up to `kernel n + 1` bytes, unless it fails -/
  kernel : Option (Nat → Nat)
  /-- whether `handle_signal` asks for the exit, unless it throws -/
  signal : Option Bool

inductive FerryFault (ε : Type) where
  | queue (e : ε)
  /-- `unix_error` -/
  | systemCall
  /-- thrown by `read_signal` or `handle_signal` -/
  | signal
  deriving DecidableEq, Repr

structure Ferry (κ Q : Type) where
  queue : Q
  tun : FileDescriptor := {}
  sibling : FileDescriptor := {}
  signalFd : FileDescriptor := {}
  /-- what was read from the TUN device, and in which call -/
  received : List (κ × Payload) := []
  /-- what was written to the sibling, and in which call -/
  sent : List (κ × List Payload) := []

structure FerryRound (κ : Type) where
  /-- in `wait_time` -/
  waits : κ
  turns : Nat → Turn (FerryAnswer κ)

namespace Ferry

variable {ε κ Q : Type} (T : FerryQueueType ε κ Q)

abbrev FerrySession (ε κ Q : Type) := Session (FerryFault ε) (FerryAnswer κ) (Ferry κ Q)

/-- tun device gets datagram -> read it -> give to ferry -/
def tunIn (k : FerryAnswer κ) (s : Ferry κ Q) : Except (FerryFault ε) (ActionResult × Ferry κ Q) :=
  match k.datagram with
  | none => .error .systemCall
  | some datagram => do
      let contents := FileDescriptor.read datagram FileDescriptor.BUFFER_SIZE
      let queue ← (T.readPacket k.queue contents s.queue).mapError .queue
      return (.continues, { s with
        queue
        tun := s.tun.afterRead contents
        received := s.received ++ [(k.queue, contents)] })

/-- ferry ready to write datagram -> send to sibling's tun device -/
def siblingOut (k : FerryAnswer κ) (s : Ferry κ Q) :
    Except (FerryFault ε) (ActionResult × Ferry κ Q) :=
  match k.kernel with
  | none => .error .systemCall
  | some kernel => do
      let (pieces, queue) ← (T.writePackets k.queue kernel s.queue).mapError .queue
      return (.continues, { s with
        queue
        sibling := s.sibling.afterWrites (pieces.map List.length).sum
        sent := s.sent ++ pieces.map (k.queue, ·) })

/-- exit if finished -/
def finishedOut (_ : FerryAnswer κ) (s : Ferry κ Q) :
    Except (FerryFault ε) (ActionResult × Ferry κ Q) :=
  .ok (.exits 77, s)

/-- `handle_signal( signal_fd.read_signal() )` -/
def signalIn (k : FerryAnswer κ) (s : Ferry κ Q) : Except (FerryFault ε) (ActionResult × Ferry κ Q) :=
  match k.signal with
  | none => .error .signal
  | some quits =>
      .ok (if quits then .exits 0 else .continues,
        { s with signalFd := { s.signalFd with readCount := s.signalFd.readCount + 1 } })

def actions : List (Action (FerryFault ε) (FerryAnswer κ) (Ferry κ Q)) :=
  [{ fd := tun, direction := .pollIn, callback := tunIn T },
   { fd := sibling, direction := .pollOut, callback := siblingOut T
     whenInterested := fun k s => T.pendingOutput k.queue s.queue },
   { fd := sibling, direction := .pollOut, callback := finishedOut
     whenInterested := fun k s => T.finished k.queue s.queue },
   { fd := signalFd, direction := .pollIn, callback := signalIn }]

/-- `wait_time()`, before a poll. -/
def wait (k : κ) (c : FerrySession ε κ Q) :
    Except (PollFault (FerryFault ε)) (FerrySession ε κ Q) := do
  let (_, queue) ← (T.waitTime k c.state.queue).mapError fun e => .callback (.queue e)
  return { c with state := { c.state with queue } }

/-- A turn of `internal_loop`. -/
def roundStep (r : FerryRound κ) :
    Option Nat × FerrySession ε κ Q →
      Except (PollFault (FerryFault ε)) (Option Nat × FerrySession ε κ Q)
  | (some status, c) => .ok (some status, c)
  | (none, c) => do
      let c ← wait T r.waits c
      let (result, c) ← c.poll r.turns
      return (result.exitStatus?, c)

/-- `Ferry::loop`, as far as it has come in `rounds`. -/
def loop (queue : Q) (rounds : List (FerryRound κ)) :
    Except (PollFault (FerryFault ε)) (Option Nat × FerrySession ε κ Q) :=
  run (roundStep T) rounds (none, { actions := actions T, state := { queue } })

end Ferry

/-! ### The calls of a loop -/

/-- The call on a queue and what was written. -/
def FerryCall.step {ε κ Q : Type} (T : FerryQueueType ε κ Q) :
    FerryCall κ → Q × List (κ × List Payload) → Except ε (Q × List (κ × List Payload))
  | .readPacket k contents, (q, sent) => (T.readPacket k contents q).map fun q => (q, sent)
  | .writePackets k kernel, (q, sent) =>
      (T.writePackets k kernel q).map fun r => (r.2, sent ++ r.1.map (k, ·))
  | .waitTime k, (q, sent) => (T.waitTime k q).map fun r => (r.2, sent)

def FerryCall.received? {κ : Type} : FerryCall κ → Option (κ × Payload)
  | .readPacket k contents => some (k, contents)
  | _ => none

namespace FerryRound

variable {κ : Type}

/-- What action number `i` does with the queue. -/
def callOf (turns : Nat → Turn (FerryAnswer κ)) (i : Nat) : List (FerryCall κ) :=
  let k := (turns i).served
  match i with
  | 0 => (k.datagram.map fun datagram =>
      .readPacket k.queue (FileDescriptor.read datagram FileDescriptor.BUFFER_SIZE)).toList
  | 1 => (k.kernel.map fun kernel => .writePackets k.queue kernel).toList
  | _ => []

/-- The calls that there is room for in a round. -/
def calls (r : FerryRound κ) : List (FerryCall κ) :=
  .waitTime r.waits :: (List.range 4).flatMap (callOf r.turns)

end FerryRound

namespace Ferry

open FerryRound

variable {ε κ Q : Type} (T : FerryQueueType ε κ Q)

/-- What the calls on the queue act on. -/
def view (s : Ferry κ Q) : Q × List (κ × List Payload) := (s.queue, s.sent)

/-- In a poll from `v`, `write_packets` takes a multiple of 2³² calls of `write(2)`. -/
def Fruitless (turns : Nat → Turn (FerryAnswer κ)) (v : Q × List (κ × List Payload)) : Prop :=
  T.pendingOutput (turns 1).asked.queue v.1 = true ∧
    ∃ reads, reads.Sublist (callOf turns 0) ∧ ∃ q sent, run (FerryCall.step T) reads v = .ok (q, sent) ∧
    ∃ kernel pieces q', T.writePackets (turns 1).served.queue kernel q = .ok (pieces, q') ∧
      2 ^ 32 ∣ (pieces.map List.length).sum

/-- How a poll from `v` can end in an exception. -/
def PollThrows (turns : Nat → Turn (FerryAnswer κ)) (v : Q × List (κ × List Payload)) :
    PollFault (FerryFault ε) → Prop
  | .callback (.queue e) => ∃ calls, calls.Sublist ((List.range 4).flatMap (callOf turns)) ∧
      run (FerryCall.step T) calls v = .error e
  | .callback .systemCall | .callback .signal => True
  | .busyWait => Fruitless T turns v

/-- The calls of the actions `done` lead from `s` to `r`. -/
structure Came (turns : Nat → Turn (FerryAnswer κ)) (s : Ferry κ Q) (done : List Nat)
    (r : Option Nat × FerrySession ε κ Q) : Prop where
  actions : r.2.actions = actions T
  run : run (FerryCall.step T) (done.flatMap (callOf turns)) s.view = .ok r.2.state.view
  received : r.2.state.received =
    s.received ++ (done.flatMap (callOf turns)).filterMap FerryCall.received?
  wrote : 1 ∈ done → callOf turns 1 ≠ []
  exit : r.1 = some 77 ↔ 2 ∈ done
  asked : r.1.isSome = true → ∃ j ∈ done, 2 ≤ j

variable {T} {turns : Nat → Turn (FerryAnswer κ)} {c c' : FerrySession ε κ Q}
  {v : Q × List (κ × List Payload)} {s₀ : Ferry κ Q} {done : List Nat} {i : Nat}

theorem mem_served (hc : c.actions = actions T) (hi : i ∈ c.served turns) :
    i < 4 ∧ (c.events turns i).isSome = true := by
  obtain ⟨hrange, -, hevents⟩ := mem_called hi
  rw [List.mem_range, hc] at hrange
  exact ⟨hrange, hevents⟩

theorem served_sublist (hc : c.actions = actions T) :
    (c.served turns).Sublist (List.range 4) := by
  have hlength : c.actions.length = 4 := congrArg List.length hc
  rw [Poller.Session.served, called, hlength]
  exact List.filter_sublist.trans (List.takeWhile_sublist _)

/-- What the poller asks for. -/
theorem events_pending (hc : c.actions = actions T) (h : (c.events turns 1).isSome = true) :
    T.pendingOutput (turns 1).asked.queue c.state.queue = true := by
  rw [events_eq (a := { fd := sibling, direction := .pollOut, callback := siblingOut T
                        whenInterested := fun k s => T.pendingOutput k.queue s.queue })
    (by rw [hc]; rfl), Action.events_isSome_iff] at h
  exact h.2.1

theorem run_snoc (h : run (FerryCall.step T) (done.flatMap (callOf turns)) v = .ok c'.state.view) :
    run (FerryCall.step T) ((done ++ [i]).flatMap (callOf turns)) v =
      run (FerryCall.step T) (callOf turns i) c'.state.view := by
  rw [List.flatMap_append, run_append, h, ok_bind, List.flatMap_singleton]

theorem snoc_throws (hc : c.actions = actions T) (hpre : done ++ [i] <+: c.served turns)
    (h : run (FerryCall.step T) (done.flatMap (callOf turns)) v = .ok c'.state.view) {e : ε}
    (he : run (FerryCall.step T) (callOf turns i) c'.state.view = .error e) :
    PollThrows T turns v (.callback (.queue e)) :=
  ⟨(done ++ [i]).flatMap (callOf turns),
    (hpre.sublist.trans (served_sublist hc)).flatMap _, (run_snoc h).trans he⟩

/-- What was written stays written. -/
theorem run_sent {calls : List (FerryCall κ)} {v v' : Q × List (κ × List Payload)}
    (h : run (FerryCall.step T) calls v = .ok v') : v.2 <+: v'.2 := by
  refine run_induction (P := fun _ v' => v.2 <+: v'.2) List.prefix_rfl ?_ h
  rintro _ ⟨q, sent⟩ call s - hsent hstep
  refine hsent.trans ?_
  cases call with
  | readPacket k contents | waitTime k =>
      obtain ⟨_, -, rfl⟩ := of_map_ok hstep
      exact List.prefix_rfl
  | writePackets k kernel =>
      obtain ⟨_, -, rfl⟩ := of_map_ok hstep
      exact List.prefix_append _ _

/-- Of the actions in front of `write_packets` there is one. -/
theorem before_one (hpre : done ++ [1] <+: c.served turns) : done.Sublist [0] := by
  have hsorted : (done ++ [1]).Pairwise (· < ·) :=
    (called_sorted List.pairwise_lt_range).sublist hpre.sublist
  obtain ⟨hdone, -, hlt⟩ := List.pairwise_append.mp hsorted
  have hzero : ∀ a ∈ done, a = 0 := fun a ha =>
    Nat.lt_one_iff.mp (hlt a ha 1 List.mem_cons_self)
  cases done with
  | nil => exact List.nil_sublist _
  | cons a rest =>
      obtain ⟨hfirst, -⟩ := List.pairwise_cons.mp hdone
      obtain rfl := hzero a List.mem_cons_self
      refine List.Sublist.cons_cons 0 ?_
      cases rest with
      | nil => exact .refl _
      | cons b _ =>
          have hpos := hfirst b List.mem_cons_self
          rw [hzero b (List.mem_cons_of_mem _ List.mem_cons_self)] at hpos
          exact absurd hpos (Nat.lt_irrefl 0)

/-- A call that does not end the loop with status 77. -/
theorem came_snoc {exit : Option Nat} {r : FerrySession ε κ Q}
    (h : Came T turns s₀ done (none, c')) (hactions : r.actions = actions T)
    (hrun : run (FerryCall.step T) (callOf turns i) c'.state.view = .ok r.state.view)
    (hreceived : r.state.received =
      c'.state.received ++ (callOf turns i).filterMap FerryCall.received?)
    (hi : i ≠ 2) (hexit : exit ≠ some 77) (hwrote : i = 1 → callOf turns 1 ≠ [])
    (hasked : exit.isSome = true → 2 ≤ i) : Came T turns s₀ (done ++ [i]) (exit, r) where
  actions := hactions
  run := (run_snoc h.run).trans hrun
  received := by
    rw [hreceived, h.received, List.flatMap_append, List.flatMap_singleton, List.filterMap_append,
      List.append_assoc]
  wrote hmem := by
    rcases List.mem_append.mp hmem with hmem | hmem
    · exact h.wrote hmem
    · exact hwrote (List.mem_singleton.mp hmem).symm
  exit := by
    refine iff_of_false hexit fun hmem => ?_
    rcases List.mem_append.mp hmem with hmem | hmem
    · simpa using h.exit.mpr hmem
    · exact hi (List.mem_singleton.mp hmem).symm
  asked hsome := ⟨i, List.mem_append_right _ List.mem_cons_self, hasked hsome⟩

section Calls

variable {s : Ferry κ Q}

theorem tunIn_came (hc : c.actions = actions T)
    (h : Came T turns c.state done (none, { actions := actions T, state := s }))
    (hpre : done ++ [0] <+: c.served turns) :
    Ensures (PollThrows T turns c.state.view) (Came T turns c.state (done ++ [0]))
      (Session.call 0 (turns 0).served { actions := actions T, state := s }) := by
  refine call_ensures rfl ?_
  show Ensures _ _ (tunIn T (turns 0).served s)
  unfold tunIn
  split
  next => trivial
  next datagram hdatagram =>
    have hcall : callOf turns 0 = [.readPacket (turns 0).served.queue
        (FileDescriptor.read datagram FileDescriptor.BUFFER_SIZE)] := by
      simp only [callOf, hdatagram]
      rfl
    cases hread : T.readPacket (turns 0).served.queue
        (FileDescriptor.read datagram FileDescriptor.BUFFER_SIZE) s.queue with
    | error e =>
        dsimp only
        rw [hread]
        refine snoc_throws hc hpre h.run ?_
        rw [hcall, run_singleton, view, FerryCall.step, hread]
        rfl
    | ok queue =>
        dsimp only
        rw [hread]
        refine ⟨fun hsame => absurd hsame (FileDescriptor.count_moves _), ?_⟩
        refine came_snoc h rfl ?_ (by rw [hcall]; rfl) (by decide) (by decide)
          (by simp) (by simp)
        rw [hcall, run_singleton, view, FerryCall.step, hread]
        rfl

theorem siblingOut_came (hc : c.actions = actions T)
    (h : Came T turns c.state done (none, { actions := actions T, state := s }))
    (hpre : done ++ [1] <+: c.served turns) :
    Ensures (PollThrows T turns c.state.view) (Came T turns c.state (done ++ [1]))
      (Session.call 1 (turns 1).served { actions := actions T, state := s }) := by
  refine call_ensures rfl ?_
  show Ensures _ _ (siblingOut T (turns 1).served s)
  unfold siblingOut
  split
  next => trivial
  next kernel hkernel =>
    have hcall : callOf turns 1 = [.writePackets (turns 1).served.queue kernel] := by
      simp only [callOf, hkernel]
      rfl
    cases hwrite : T.writePackets (turns 1).served.queue kernel s.queue with
    | error e =>
        refine snoc_throws hc hpre h.run ?_
        rw [hcall, run_singleton, view, FerryCall.step, hwrite]
        rfl
    | ok r =>
        obtain ⟨pieces, queue⟩ := r
        refine ⟨fun hsame => ?_, ?_⟩
        · have hserved : 1 ∈ c.served turns :=
            hpre.subset (List.mem_append_right _ List.mem_cons_self)
          refine ⟨events_pending hc (mem_served hc hserved).2, done.flatMap (callOf turns), ?_,
            s.queue, s.sent, h.run, kernel, pieces, queue, hwrite,
            (FileDescriptor.count_same_iff _ _).mp hsame⟩
          rw [← List.flatMap_singleton (callOf turns) 0]
          exact (before_one hpre).flatMap _
        · refine came_snoc h rfl ?_ (by rw [hcall]; exact (List.append_nil _).symm) (by decide)
            (by decide) (fun _ => by simp [hcall]) (by decide)
          rw [hcall, run_singleton, view, FerryCall.step, hwrite]
          rfl

theorem finishedOut_came
    (h : Came T turns c.state done (none, { actions := actions T, state := s })) :
    Ensures (PollThrows T turns c.state.view) (Came T turns c.state (done ++ [2]))
      (Session.call 2 (turns 2).served { actions := actions T, state := s }) := by
  have hmem : 2 ∈ done ++ [2] := List.mem_append_right _ List.mem_cons_self
  refine call_ensures rfl ⟨rfl, run_snoc h.run, ?_, fun hone => h.wrote ?_, iff_of_true rfl hmem,
    fun _ => ⟨2, hmem, le_rfl⟩⟩
  · rw [List.flatMap_append]
    exact h.received.trans (congrArg _ (congrArg _ (List.append_nil _).symm))
  · simpa using hone

theorem signalIn_came
    (h : Came T turns c.state done (none, { actions := actions T, state := s })) :
    Ensures (PollThrows T turns c.state.view) (Came T turns c.state (done ++ [3]))
      (Session.call 3 (turns 3).served { actions := actions T, state := s }) := by
  refine call_ensures rfl ?_
  show Ensures _ _ (signalIn (turns 3).served s)
  unfold signalIn
  split
  next => trivial
  next quits _ =>
    cases quits with
    | true =>
        exact came_snoc h rfl rfl (List.append_nil _).symm (by decide) (by decide)
          (by simp) (by simp)
    | false =>
        exact ⟨fun hsame => absurd hsame (FileDescriptor.count_moves _),
          came_snoc h rfl rfl (List.append_nil _).symm (by decide) (by decide)
            (by simp) (by simp)⟩

end Calls

/-- **What a call of a poll does.** -/
theorem call_came (hc : c.actions = actions T) (h : Came T turns c.state done (none, c'))
    (hpre : done ++ [i] <+: c.served turns) :
    Ensures (PollThrows T turns c.state.view) (Came T turns c.state (done ++ [i]))
      (c'.call i (turns i).served) := by
  have hactions := h.actions
  obtain ⟨actions', s⟩ := c'
  dsimp only at hactions
  subst hactions
  have hlt : i < 4 :=
    (mem_served hc (hpre.subset (List.mem_append_right _ List.mem_cons_self))).1
  match i, hlt with
  | 0, _ => exact tunIn_came hc h hpre
  | 1, _ => exact siblingOut_came hc h hpre
  | 2, _ => exact finishedOut_came h
  | 3, _ => exact signalIn_came h

/-- **What a poll does.** -/
theorem poll_came (hc : c.actions = actions T) :
    Ensures (PollThrows T turns c.state.view)
      (fun r => ∃ done exit, done <+: c.served turns ∧
        Came T turns c.state done (exit, r.2) ∧
        (r.1.exitStatus? = exit ∨ (exit = none ∧ r.1.exitStatus? = some 0)) ∧
        (exit = none → done = c.served turns))
      (c.poll turns) :=
  poll_ensures_run (fun _ _ _ hdone hpre => call_came hc hdone hpre)
    ⟨hc, rfl, (List.append_nil _).symm, fun hmem => absurd hmem List.not_mem_nil, by simp, by simp⟩

/-! ### The loop -/

theorem wait_ensures (hc : c.actions = actions T) (k : κ) :
    Ensures (fun f => ∃ e, f = .callback (.queue e) ∧
        FerryCall.step T (.waitTime k) c.state.view = .error e)
      (fun c' => c'.actions = actions T ∧
        FerryCall.step T (.waitTime k) c.state.view = .ok c'.state.view ∧
        c'.state.received = c.state.received) (wait T k c) := by
  unfold wait
  show Ensures _ _ (_ >>= _)
  cases hwait : T.waitTime k c.state.queue with
  | error e => exact ⟨e, rfl, by rw [view, FerryCall.step, hwait]; rfl⟩
  | ok r => exact ⟨hc, by rw [view, FerryCall.step, hwait]; rfl, rfl⟩

variable (T) in
/-- How the loop can end in an exception. -/
def Throws (queue : Q) (rounds : List (FerryRound κ)) : PollFault (FerryFault ε) → Prop
  | .callback (.queue e) => ∃ calls, calls.Sublist (rounds.flatMap FerryRound.calls) ∧
      run (FerryCall.step T) calls (queue, []) = .error e
  | .callback .systemCall | .callback .signal => True
  | .busyWait => ∃ done r, done ++ [r] <+: rounds ∧ ∃ calls v,
      calls.Sublist (done.flatMap FerryRound.calls ++ [.waitTime r.waits]) ∧
        run (FerryCall.step T) calls (queue, []) = .ok v ∧ Fruitless T r.turns v

variable (T) in
/-- The calls that lead to `c`. -/
structure Runs (queue : Q) (rounds : List (FerryRound κ)) (c : FerrySession ε κ Q) : Prop where
  actions : c.actions = actions T
  run : ∃ calls, calls.Sublist (rounds.flatMap FerryRound.calls) ∧
    run (FerryCall.step T) calls (queue, []) = .ok c.state.view ∧
    c.state.received = calls.filterMap FerryCall.received?

variable {queue : Q} {rounds : List (FerryRound κ)}

theorem throws_before {done : List (FerryRound κ)} {r : FerryRound κ} (hpre : done ++ [r] <+: rounds)
    (calls : List (FerryCall κ))
    (hcalls : calls.Sublist (done.flatMap FerryRound.calls ++ r.calls)) {e : ε}
    (h : run (FerryCall.step T) calls (queue, []) = .error e) :
    Throws T queue rounds (.callback (.queue e)) := by
  refine ⟨calls, hcalls.trans ?_, h⟩
  have hrounds := hpre.sublist.flatMap FerryRound.calls
  rwa [List.flatMap_append, List.flatMap_singleton] at hrounds

/-- The calls up to `write_packets` of a round are calls of the loop. -/
theorem reads_sublist {done : List (FerryRound κ)} {r : FerryRound κ} {calls reads : List (FerryCall κ)}
    (hpre : done ++ [r] <+: rounds)
    (hcalls : calls.Sublist (done.flatMap FerryRound.calls ++ [.waitTime r.waits]))
    (hreads : reads.Sublist (callOf r.turns 0)) :
    (calls ++ reads).Sublist (rounds.flatMap FerryRound.calls) := by
  have hrounds := hpre.sublist.flatMap FerryRound.calls
  rw [List.flatMap_append, List.flatMap_singleton] at hrounds
  have hzero : [0].Sublist (List.range 4) := List.singleton_sublist.mpr (by decide)
  have hreads' := hreads.trans (List.flatMap_singleton _ _ ▸ hzero.flatMap (callOf r.turns))
  refine (hcalls.append hreads').trans (List.Sublist.trans ?_ hrounds)
  rw [List.append_assoc]
  exact .refl _

/-- A turn of `internal_loop`, and the poll in it. -/
theorem roundStep_runs {done : List (FerryRound κ)} {r : FerryRound κ}
    (hpre : done ++ [r] <+: rounds) (h : Runs T queue done c) :
    Ensures (Throws T queue rounds) (fun s => Runs T queue (done ++ [r]) s.2 ∧
      ∃ c', wait T r.waits c = .ok c' ∧ c'.actions = actions T ∧ ∃ served exit,
        served <+: c'.served r.turns ∧ Came T r.turns c'.state served (exit, s.2) ∧
        (s.1 = exit ∨ (exit = none ∧ s.1 = some 0)) ∧ (exit = none → served = c'.served r.turns))
      (roundStep T r (none, c)) := by
  obtain ⟨hactions, calls, hcalls, hrun, hreceived⟩ := h
  show Ensures _ _ (wait T r.waits c >>= _)
  have hwait := wait_ensures hactions r.waits
  have hsnoc : run (FerryCall.step T) (calls ++ [.waitTime r.waits]) (queue, []) =
      FerryCall.step T (.waitTime r.waits) c.state.view := by
    rw [run_append, hrun, ok_bind, run_singleton]
  cases hc' : wait T r.waits c with
  | error f =>
      obtain ⟨e, rfl, he⟩ := hwait.of_error hc'
      refine throws_before hpre _ ?_ (hsnoc.trans he)
      exact hcalls.append (List.singleton_sublist.mpr List.mem_cons_self)
  | ok c' =>
      obtain ⟨hactions', hview, hsame⟩ := hwait.of_ok hc'
      have hwaited := hsnoc.trans hview
      rw [ok_bind]
      refine Ensures.bind (Ensures.mono_error (poll_came hactions') ?_) ?_
      · intro f hf
        match f, hf with
        | .callback (.queue e), ⟨calls', hcalls', he⟩ =>
            refine throws_before hpre ((calls ++ [.waitTime r.waits]) ++ calls') ?_ ?_
            · rw [List.append_assoc]
              exact hcalls.append (List.Sublist.cons_cons _ hcalls')
            · rw [run_append, hwaited]
              exact he
        | .callback .systemCall, _ => trivial
        | .callback .signal, _ => trivial
        | .busyWait, hfruitless =>
            exact ⟨done, r, hpre, _, _, hcalls.append (.refl _), hwaited, hfruitless⟩
      · rintro ⟨result, s⟩ ⟨served, exit, hserved, hcame, hexit, hall⟩
        refine ⟨⟨hcame.actions, (calls ++ [.waitTime r.waits]) ++ served.flatMap (callOf r.turns),
          ?_, ?_, ?_⟩, c', rfl, hactions', served, exit, hserved, hcame, hexit, hall⟩
        · rw [List.flatMap_append, List.flatMap_singleton, List.append_assoc]
          exact hcalls.append (List.Sublist.cons_cons _
            ((hserved.sublist.trans (served_sublist hactions')).flatMap _))
        · rw [run_append, hwaited]
          exact hcame.run
        · rw [hcame.received, hsame, hreceived, List.filterMap_append, List.filterMap_append]
          exact congrArg (· ++ _) (List.append_nil _).symm

/-- **Every run of the loop is a run of calls of the queue.** -/
theorem loop_runs (queue : Q) (rounds : List (FerryRound κ)) :
    Ensures (Throws T queue rounds) (fun r => Runs T queue rounds r.2) (loop T queue rounds) := by
  refine ensures_run (P := fun done (s : Option Nat × FerrySession ε κ Q) => Runs T queue done s.2)
    ⟨rfl, [], List.nil_sublist _, rfl, rfl⟩ fun done s r hs _ hpre => ?_
  obtain ⟨exit, c⟩ := s
  cases exit with
  | some status =>
      obtain ⟨hactions, calls, hcalls, hrun⟩ := hs
      refine ⟨hactions, calls, hcalls.trans ?_, hrun⟩
      exact (List.sublist_append_left _ _).flatMap _
  | none => exact (roundStep_runs hpre hs).mono fun _ h => h.1

theorem loop_snoc {r : FerryRound κ} {s : Option Nat × FerrySession ε κ Q}
    (hbefore : loop T queue rounds = .ok (none, c)) (h : loop T queue (rounds ++ [r]) = .ok s) :
    roundStep T r (none, c) = .ok s := by
  unfold loop at hbefore h
  rwa [run_append, hbefore, ok_bind, run_singleton] at h

theorem range_calls (turns : Nat → Turn (FerryAnswer κ)) :
    (List.range 4).flatMap (callOf turns) = callOf turns 0 ++ callOf turns 1 := by
  simp [List.range_succ, callOf]

theorem reads_cases {reads : List (FerryCall κ)} (h : reads.Sublist (callOf turns 0)) :
    reads = [] ∨ ∃ datagram, (turns 0).served.datagram = some datagram ∧
      reads = [.readPacket (turns 0).served.queue
        (FileDescriptor.read datagram FileDescriptor.BUFFER_SIZE)] := by
  rw [callOf] at h
  cases hdatagram : (turns 0).served.datagram with
  | none => simpa [hdatagram] using h
  | some datagram => simpa [hdatagram, List.sublist_singleton] using h

theorem writes_cases {writes : List (FerryCall κ)} (h : writes.Sublist (callOf turns 1)) :
    writes = [] ∨ ∃ kernel, (turns 1).served.kernel = some kernel ∧
      writes = [.writePackets (turns 1).served.queue kernel] := by
  rw [callOf] at h
  cases hkernel : (turns 1).served.kernel with
  | none => simpa [hkernel] using h
  | some kernel => simpa [hkernel, List.sublist_singleton] using h

/-- **What every round keeps, the loop keeps.**  A round calls `wait_time`, and then at most
`read_packet` and `write_packets`, in this order. -/
theorem loop_ensures {P : List (FerryRound κ) → Ferry κ Q → Prop}
    {E : PollFault (FerryFault ε) → Prop} (hstart : P [] { queue })
    (hexit : ∀ {done r s}, P done s → P (done ++ [r]) s)
    (hwait : ∀ {done r s e}, done ++ [r] <+: rounds → P done s →
      T.waitTime r.waits s.queue = .error e → E (.callback (.queue e)))
    (hthrows : ∀ {done r s n q e}, done ++ [r] <+: rounds → P done s →
      T.waitTime r.waits s.queue = .ok (n, q) → PollThrows T r.turns (q, s.sent) e → E e)
    (hround : ∀ {done r s n q s' reads writes}, done ++ [r] <+: rounds → P done s →
      T.waitTime r.waits s.queue = .ok (n, q) → reads.Sublist (callOf r.turns 0) →
      writes.Sublist (callOf r.turns 1) →
      run (FerryCall.step T) (reads ++ writes) (q, s.sent) = .ok s'.view →
      s'.received = s.received ++ (reads ++ writes).filterMap FerryCall.received? →
      P (done ++ [r]) s') :
    Ensures E (fun r => P rounds r.2.state) (loop T queue rounds) := by
  refine Ensures.mono (ensures_run (P := fun done (s : Option Nat × FerrySession ε κ Q) =>
    s.2.actions = actions T ∧ P done s.2.state) ⟨rfl, hstart⟩ ?_) fun _ h => h.2
  rintro done ⟨exit, c⟩ r ⟨hc, hP⟩ - hpre
  cases exit with
  | some status => exact ⟨hc, hexit hP⟩
  | none =>
      show Ensures _ _ (wait T r.waits c >>= _)
      cases hq : T.waitTime r.waits c.state.queue with
      | error e =>
          have herror : wait T r.waits c = .error (.callback (.queue e)) := by
            rw [wait, hq]
            rfl
          rw [herror]
          exact hwait hpre hP hq
      | ok w =>
          obtain ⟨n, q⟩ := w
          have hok : wait T r.waits c = .ok { c with state := { c.state with queue := q } } := by
            rw [wait, hq]
            rfl
          rw [hok, ok_bind]
          refine Ensures.bind ((poll_came (c := { c with state := { c.state with queue := q } })
            hc).mono_error fun e he => hthrows hpre hP hq he) ?_
          rintro ⟨result, s'⟩ ⟨served, exit, hserved, hcame, -⟩
          have hsub := (hserved.sublist.trans (served_sublist hc)).flatMap (callOf r.turns)
          rw [range_calls] at hsub
          obtain ⟨reads, writes, hcalls, hreads, hwrites⟩ := List.sublist_append_iff.mp hsub
          exact ⟨hcame.actions, hround hpre hP hq hreads hwrites (hcalls ▸ hcame.run)
            (hcalls ▸ hcame.received)⟩

/-! ### The end of the loop -/

/-- What the poller asks for, for action number 2. -/
theorem events_finished (hc : c.actions = actions T) : c.events turns 2 =
    if T.finished (turns 2).asked.queue c.state.queue then some .pollOut else none := by
  rw [events_eq (a := { fd := sibling, direction := .pollOut, callback := finishedOut
                        whenInterested := fun k s => T.finished k.queue s.queue })
    (by rw [hc]; rfl)]
  rfl

/-- The loop is told to end when the queue is finished and the sibling can be written. -/
theorem two_served_iff (hc : c.actions = actions T) : 2 ∈ c.served turns ↔
    T.finished (turns 2).asked.queue c.state.queue = true ∧ (turns 2).revents.pollOut = true ∧
      ∀ j ≤ 2, (turns j).revents.failed = false := by
  rw [mem_served_iff, hc, events_finished hc]
  cases T.finished (turns 2).asked.queue c.state.queue with
  | true => simp [actions, Revents.meets, and_comm]
  | false => simp [Revents.meets]

/-- What is written is asked for when there is output, and done when the sibling can be written. -/
theorem one_served_iff (hc : c.actions = actions T) : 1 ∈ c.served turns ↔
    T.pendingOutput (turns 1).asked.queue c.state.queue = true ∧
      (turns 1).revents.pollOut = true ∧ ∀ j ≤ 1, (turns j).revents.failed = false := by
  rw [mem_served_iff, hc,
    events_eq (a := { fd := sibling, direction := .pollOut, callback := siblingOut T
                      whenInterested := fun k s => T.pendingOutput k.queue s.queue })
      (by rw [hc]; rfl)]
  cases hpending : T.pendingOutput (turns 1).asked.queue c.state.queue with
  | true => simp [actions, Revents.meets, Action.events, hpending, and_comm]
  | false => simp [Revents.meets, Action.events, hpending]

/-- A poll comes to the actions up to number 2 that it has to serve. -/
theorem Came.mem_done {exit : Option Nat} {s : FerrySession ε κ Q}
    (h : Came T turns s₀ done (exit, s)) (hdone : done <+: c.served turns)
    (hall : exit = none → done = c.served turns) (hi : i ∈ c.served turns) (hle : i ≤ 2) :
    i ∈ done := by
  cases exit with
  | none => exact hall rfl ▸ hi
  | some status =>
      obtain ⟨j, hj, hge⟩ := h.asked rfl
      have hsorted : (c.served turns).Pairwise (· < ·) := called_sorted List.pairwise_lt_range
      obtain ⟨rest, hrest⟩ := hdone
      rw [← hrest] at hi hsorted
      rcases List.mem_append.mp hi with hmem | hmem
      · exact hmem
      · have hlt := (List.pairwise_append.mp hsorted).2.2 j hj i hmem
        omega

theorem Came.exits_iff {exit : Option Nat} {s : FerrySession ε κ Q}
    (h : Came T turns s₀ done (exit, s)) (hdone : done <+: c.served turns)
    (hall : exit = none → done = c.served turns) : exit = some 77 ↔ 2 ∈ c.served turns :=
  h.exit.trans ⟨fun hmem => hdone.subset hmem, fun hmem => h.mem_done hdone hall hmem le_rfl⟩

/-- A poll that has called `write_packets` has called it last, of the calls on the queue. -/
theorem came_writes {exit : Option Nat} {s : FerrySession ε κ Q}
    (h : Came T turns s₀ done (exit, s)) (hdone : done <+: c.served turns) (hone : 1 ∈ done) :
    ∃ reads v' kernel, reads.Sublist (callOf turns 0) ∧ run (FerryCall.step T) reads s₀.view = .ok v' ∧
      (turns 1).served.kernel = some kernel ∧
      FerryCall.step T (.writePackets (turns 1).served.queue kernel) v' = .ok s.state.view := by
  obtain ⟨before, after, rfl⟩ := List.append_of_mem hone
  have hsorted : (before ++ 1 :: after).Pairwise (· < ·) :=
    (called_sorted List.pairwise_lt_range).sublist hdone.sublist
  have hpre : before ++ [1] <+: c.served turns :=
    List.IsPrefix.trans ⟨after, by rw [List.append_assoc]; rfl⟩ hdone
  have hlast : after.flatMap (callOf turns) = [] := by
    refine List.flatMap_eq_nil_iff.mpr fun j hj => ?_
    have hlt := (List.pairwise_cons.mp (List.pairwise_append.mp hsorted).2.1).1 j hj
    match j, hlt with
    | _ + 2, _ => rfl
  have hrun := h.run
  rw [List.flatMap_append, List.flatMap_cons, hlast, List.append_nil, run_append] at hrun
  obtain ⟨v', hreads, hrun⟩ := bind_ok.mp hrun
  obtain ⟨kernel, hkernel⟩ : ∃ kernel, (turns 1).served.kernel = some kernel := by
    refine Option.ne_none_iff_exists'.mp fun hnone => h.wrote hone ?_
    simp [callOf, hnone]
  refine ⟨_, v', kernel, ?_, hreads, hkernel, ?_⟩
  · rw [← List.flatMap_singleton (callOf turns) 0]
    exact (before_one hpre).flatMap _
  · rw [show callOf turns 1 = [.writePackets (turns 1).served.queue kernel] by simp [callOf, hkernel],
      run_singleton] at hrun
    exact hrun

/-- A queue that is done once it is finished; then nothing waits to be written that did not wait
already. -/
structure Drains (T : FerryQueueType ε κ Q) (done idle : Q → Prop) : Prop where
  finished : ∀ {k q}, T.finished k q = true → done q
  pending : ∀ {k q}, T.pendingOutput k q = false → idle q
  writes : ∀ {k kernel q pieces q'}, T.writePackets k kernel q = .ok (pieces, q') → idle q'
  step : ∀ {call v v'}, done v.1 → FerryCall.step T call v = .ok v' →
    done v'.1 ∧ (idle v.1 → idle v'.1)

/-- The two entries of the sibling report alike: they are one descriptor. -/
def Agree (r : FerryRound κ) : Prop :=
  (r.turns 1).revents.pollOut = (r.turns 2).revents.pollOut

variable {isDone isIdle : Q → Prop}

theorem run_drained (D : Drains T isDone isIdle) : ∀ {calls : List (FerryCall κ)}
    {v v' : Q × List (κ × List Payload)}, isDone v.1 →
      (isIdle v.1 ∨ ∃ k kernel, .writePackets k kernel ∈ calls) →
      run (FerryCall.step T) calls v = .ok v' → isDone v'.1 ∧ isIdle v'.1 := by
  intro calls
  induction calls with
  | nil =>
      rintro v v' hdone (hidle | ⟨k, kernel, hmem⟩) hrun
      · cases hrun
        exact ⟨hdone, hidle⟩
      · exact absurd hmem List.not_mem_nil
  | cons call calls ih =>
      intro v v' hdone hidle hrun
      rw [run_cons] at hrun
      obtain ⟨v₁, hstep, hrun⟩ := bind_ok.mp hrun
      obtain ⟨hdone₁, hidle₁⟩ := D.step hdone hstep
      refine ih hdone₁ ?_ hrun
      rcases hidle with hidle | ⟨k, kernel, hmem⟩
      · exact .inl (hidle₁ hidle)
      · rcases List.mem_cons.mp hmem with rfl | hmem
        · obtain ⟨⟨pieces, q'⟩, hwrite, rfl⟩ := of_map_ok hstep
          exact .inl (D.writes hwrite)
        · exact .inr ⟨k, kernel, hmem⟩

/-- A poll that ends the loop with status 77 has written what was there to write. -/
theorem came_drained (D : Drains T isDone isIdle) (hc : c.actions = actions T)
    {s : FerrySession ε κ Q} (hcame : Came T turns c.state done (some 77, s))
    (hdone : done <+: c.served turns)
    (hagree : (turns 1).revents.pollOut = (turns 2).revents.pollOut) :
    isDone s.state.queue ∧ isIdle s.state.queue := by
  have htwo : 2 ∈ done := hcame.exit.mp rfl
  obtain ⟨hfinished, hready, hfailed⟩ := (two_served_iff hc).mp (hdone.subset htwo)
  refine run_drained D (v := c.state.view) (D.finished hfinished) ?_ hcame.run
  cases hpending : T.pendingOutput (turns 1).asked.queue c.state.queue with
  | false => exact .inl (D.pending hpending)
  | true =>
      -- it stands in front of the entry that ended the loop
      have hone : 1 ∈ done := hcame.mem_done hdone (by simp)
        ((one_served_iff hc).mpr ⟨hpending, hagree.trans hready, fun j hj => hfailed j (by omega)⟩)
        (by decide)
      obtain ⟨_, _, kernel, -, -, hkernel, -⟩ := came_writes hcame hdone hone
      refine .inr ⟨(turns 1).served.queue, kernel, List.mem_flatMap.mpr ⟨1, hone, ?_⟩⟩
      simp [callOf, hkernel]

/-- **What is left when the loop exits with status 77.** -/
theorem loop_drained (D : Drains T isDone isIdle) (hagree : ∀ r ∈ rounds, Agree r)
    {s : FerrySession ε κ Q} (h : loop T queue rounds = .ok (some 77, s)) :
    isDone s.state.queue ∧ isIdle s.state.queue := by
  refine (ensures_iff.mp (ensures_run (P := fun done (s : Option Nat × FerrySession ε κ Q) =>
    Runs T queue done s.2 ∧ (s.1 = some 77 → isDone s.2.state.queue ∧ isIdle s.2.state.queue))
    ⟨⟨rfl, [], List.nil_sublist _, rfl, rfl⟩, by simp⟩ ?_) _ h).2 rfl
  rintro done ⟨exit, c⟩ r ⟨hruns, hdrained⟩ - hpre
  cases exit with
  | some status =>
      obtain ⟨hactions, calls, hcalls, hrun⟩ := hruns
      refine ⟨⟨hactions, calls, hcalls.trans ?_, hrun⟩, hdrained⟩
      exact (List.sublist_append_left _ _).flatMap _
  | none =>
      refine ((roundStep_runs hpre hruns).mono ?_).mono_error fun _ _ => trivial
      rintro s ⟨hruns', c', -, hc', served, exit, hserved, hcame, hexit, -⟩
      refine ⟨hruns', fun hstatus => ?_⟩
      rcases hexit with rfl | ⟨-, hzero⟩
      · rw [hstatus] at hcame
        exact came_drained D hc' hcame hserved
          (hagree r (hpre.subset (List.mem_append_right _ List.mem_cons_self)))
      · rw [hstatus] at hzero
        cases hzero

/-- **When the loop exits with status 77**: in the first round in which the queue is finished before
the poll, and the sibling can be written. -/
theorem roundStep_exits_iff {r : FerryRound κ} {s : Option Nat × FerrySession ε κ Q}
    (hc : c.actions = actions T) (h : roundStep T r (none, c) = .ok s) :
    s.1 = some 77 ↔ ∃ c', wait T r.waits c = .ok c' ∧
      T.finished (r.turns 2).asked.queue c'.state.queue = true ∧
      (r.turns 2).revents.pollOut = true ∧ ∀ j ≤ 2, (r.turns j).revents.failed = false := by
  obtain ⟨c', hwait, h⟩ := bind_ok.mp h
  obtain ⟨⟨result, s'⟩, hpoll, h⟩ := bind_ok.mp h
  cases h
  have hc' := ((wait_ensures hc r.waits).of_ok hwait).1
  obtain ⟨served, exit, hserved, hcame, hexit, hall⟩ := (poll_came hc').of_ok hpoll
  have hiff := (hcame.exits_iff hserved hall).trans (two_served_iff hc')
  have hstatus : result.exitStatus? = some 77 ↔ exit = some 77 := by
    rcases hexit with heq | ⟨hnone, hzero⟩
    · rw [← heq]
    · simp [hnone, hzero]
  refine hstatus.trans (hiff.trans ⟨fun hready => ⟨c', hwait, hready⟩, ?_⟩)
  rintro ⟨c₁, hwait₁, hready⟩
  cases hwait.symm.trans hwait₁
  exact hready

end Ferry

end Mahimahi
