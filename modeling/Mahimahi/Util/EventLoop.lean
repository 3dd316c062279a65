import Mathlib.Data.List.Basic
import Mahimahi.Library.Runs

/-!
# Util — `EventLoop` and its children

Children change state at any time, also while the loop handles a signal.  Of a child's changes the
kernel keeps the last one until it is waited for, and of the SIGCHLDs that the changes raise it keeps
one pending.  `handle_signal` takes it, and searches the children from the first.

A run is a list of `Event`s, one for each thing that a child or the loop does next: the search
looks at a child (`look`) and waits for it (`wait`) in two steps, so that children may change
between them.

* `step_tracked`: between two signals, the children that are yet to be waited for are those that the
  search has yet to look at.
* `settled_iff`: no termination is lost in a run exactly when no special child that has ended with
  its continue status ends a search before another child that has terminated.
-/

open Fallible

namespace Mahimahi

/-! ### The kernel's side -/

/-- A change of state, as `waitid` reports it. -/
inductive Change where
  /-- `CLD_EXITED` -/
  | exited (status : Int)
  /-- `CLD_KILLED`, `CLD_DUMPED` -/
  | killed (signal : Int)
  /-- `CLD_STOPPED` -/
  | stopped
  /-- `CLD_CONTINUED` -/
  | continued
  deriving DecidableEq, Repr

inductive Life where
  | running
  | stopped
  | ended
  deriving DecidableEq, Repr

/-- `si_status`, where the change ends the process. -/
def Change.status? : Change → Option Int
  | .exited status => some status
  | .killed signal => some signal
  | .stopped | .continued => none

def Change.life : Change → Life
  | .exited _ | .killed _ => .ended
  | .stopped => .stopped
  | .continued => .running

structure Process where
  life : Life := .running
  /-- the last change, if it has not been waited for -/
  report : Option Change := none
  deriving DecidableEq, Repr

namespace Process

def allows (p : Process) : Change → Bool
  | .exited _ | .stopped => p.life == .running
  | .killed _ => p.life == .running || p.life == .stopped
  | .continued => p.life == .stopped

def after (c : Change) : Process := { life := c.life, report := some c }

end Process

/-! ### `ChildProcess` -/

structure ChildProcess where
  running : Bool := true
  terminated : Bool := false
  exitStatus : Int := 0
  diedOnSignal : Bool := false
  process : Process := {}
  deriving DecidableEq, Repr

namespace ChildProcess

def waitable (c : ChildProcess) : Bool := c.process.report.isSome

/-- `wait( true )`, which throws when there is nothing to report. -/
def wait (c : ChildProcess) : Option ChildProcess :=
  let taken := { c.process with report := none }
  c.process.report.map fun
    | .exited status => { c with terminated := true, exitStatus := status, process := taken }
    | .killed signal =>
        { c with terminated := true, exitStatus := signal, diedOnSignal := true, process := taken }
    | .stopped => { c with running := false, process := taken }
    | .continued => { c with running := true, process := taken }

/-- `resume()`: SIGCONT to a child that is taken to be stopped. -/
def resume (c : ChildProcess) : ChildProcess :=
  if !c.running && !c.terminated && c.process.life == .stopped
  then { c with process := .after .continued } else c

/-- The process has terminated, and the loop does not know. -/
def Unwaited (c : ChildProcess) : Prop := c.process.life = .ended ∧ c.terminated = false

end ChildProcess

/-! ### `EventLoop` -/

/-- Where the loop is. -/
inductive Control where
  /-- in `poll` -/
  | polling
  /-- `handle_signal` looks at this child next -/
  | searching (i : Nat)
  /-- this child was waitable, and is waited for next -/
  | waiting (i : Nat)
  /-- `Exit` was returned -/
  | exited
  | thrown
  deriving DecidableEq, Repr

/-- The children that a search has yet to look at; none between two searches. -/
def Control.ToLookAt : Control → Nat → Prop
  | .polling, _ => False
  | .searching i, j | .waiting i, j => i ≤ j
  | .exited, _ | .thrown, _ => True

structure EventLoop where
  /-- each child with its continue status, which is -1 for a plain child -/
  childProcesses : List (Int × ChildProcess)
  /-- a SIGCHLD is pending -/
  sigchld : Bool := false
  control : Control := .polling
  deriving DecidableEq, Repr

inductive Event where
  | change (i : Nat) (c : Change)
  | sigchld
  | sigcont
  /-- SIGHUP, SIGTERM, SIGQUIT or SIGINT -/
  | sigexit
  | look
  | wait
  deriving DecidableEq, Repr

/-- The event cannot come next. -/
inductive NotNext where
  | notNext
  deriving DecidableEq, Repr

namespace EventLoop

/-- The loop as it starts, with children of these continue statuses. -/
def start (continueStatuses : List Int) : EventLoop where
  childProcesses := continueStatuses.map (·, {})

def allTerminated (children : List (Int × ChildProcess)) : Bool := children.all (·.2.terminated)

/-- After `wait`: the child's place in the list, its continue status, and the children as they are
then. -/
def afterWait (i : Nat) (first : Int) (proc : ChildProcess)
    (children : List (Int × ChildProcess)) : Control :=
  if proc.terminated then
    if proc.exitStatus ≠ 0 ∧ proc.exitStatus ≠ first then .thrown
    else if allTerminated children then .exited
    else if proc.exitStatus = first then .polling else .exited
  -- a stopped child suspends the parent too, which goes on from here when it is continued
  else .searching (i + 1)

def step : Event → EventLoop → Except NotNext EventLoop
  | .change i c, s =>
      match s.childProcesses[i]? with
      | some (first, proc) =>
          if proc.process.allows c then
            .ok { s with
              childProcesses := s.childProcesses.set i (first, { proc with process := .after c })
              sigchld := true }
          else .error .notNext
      | none => .error .notNext
  | .sigchld, s =>
      if s.control = .polling ∧ s.sigchld = true then
        .ok { s with
          sigchld := false
          control := if s.childProcesses.isEmpty then .thrown else .searching 0 }
      else .error .notNext
  | .sigcont, s =>
      if s.control = .polling then
        let children := s.childProcesses.map fun child => (child.1, child.2.resume)
        .ok { s with
          childProcesses := children
          sigchld := s.sigchld || children != s.childProcesses }
      else .error .notNext
  | .sigexit, s => if s.control = .polling then .ok { s with control := .exited } else .error .notNext
  | .look, s =>
      match s.control with
      | .searching i =>
          match s.childProcesses[i]? with
          | some (_, proc) =>
              if proc.terminated || !proc.waitable then .ok { s with control := .searching (i + 1) }
              else .ok { s with control := .waiting i }
          | none => .ok { s with control := .polling }
      | _ => .error .notNext
  | .wait, s =>
      match s.control with
      | .waiting i =>
          match s.childProcesses[i]? with
          | some (first, proc) =>
              match proc.wait with
              | some proc =>
                  let children := s.childProcesses.set i (first, proc)
                  .ok { s with
                    childProcesses := children
                    control := afterWait i first proc children }
              | none => .ok { s with control := .thrown }
          | none => .error .notNext
      | _ => .error .notNext

/-! ### What is to hold when nothing is pending -/

/-- The loop waits for a signal, and no SIGCHLD is pending. -/
def Waits (s : EventLoop) : Prop := s.control = .polling ∧ s.sigchld = false

/-- No terminated child is unwaited for, and so some child has not terminated. -/
structure Settled (s : EventLoop) : Prop where
  waited : ∀ child ∈ s.childProcesses, ¬ child.2.Unwaited
  alive : s.childProcesses ≠ [] → ∃ child ∈ s.childProcesses, child.2.process.life ≠ .ended

/-- A special child that has ended with its continue status is to be waited for, and a later child
has terminated without a SIGCHLD pending. -/
def LeavesBehind (s : EventLoop) : Prop :=
  s.sigchld = false ∧ ∃ i first proc c, s.control = .waiting i ∧
    s.childProcesses[i]? = some (first, proc) ∧ proc.process.report = some c ∧
    c.status? = some first ∧
    ∃ j child, i < j ∧ s.childProcesses[j]? = some child ∧ child.2.Unwaited

/-- Which children the loop knows to have terminated. -/
def flags (s : EventLoop) : List Bool := s.childProcesses.map (·.2.terminated)

structure Tracked (s : EventLoop) : Prop where
  report : ∀ child ∈ s.childProcesses, child.2.Unwaited →
    ∃ c, child.2.process.report = some c ∧ c.status?.isSome
  fresh : ∀ i, s.control = .waiting i → s.flags[i]? ≠ some true
  left : s.control ≠ .exited → s.control ≠ .thrown → s.flags ≠ [] → false ∈ s.flags
  behind : s.sigchld = false → ∀ j child, s.childProcesses[j]? = some child → child.2.Unwaited →
    s.control.ToLookAt j

theorem Tracked.settled {s : EventLoop} (h : Tracked s) (hw : s.Waits) : Settled s := by
  obtain ⟨hpolling, hnone⟩ := hw
  have hwaited : ∀ child ∈ s.childProcesses, ¬ child.2.Unwaited := fun child hchild hun => by
    obtain ⟨j, hj⟩ := List.mem_iff_getElem?.mp hchild
    have := h.behind hnone j child hj hun
    rwa [hpolling] at this
  refine ⟨hwaited, fun hne => ?_⟩
  have hmem := h.left (by rw [hpolling]; nofun) (by rw [hpolling]; nofun) (by simpa [flags] using hne)
  obtain ⟨child, hchild, hflag⟩ := List.mem_map.mp hmem
  exact ⟨child, hchild, fun hended => hwaited child hchild ⟨hended, hflag⟩⟩

/-- In the middle of a search, a child that is yet to be waited for is yet to be looked at. -/
theorem Tracked.le {s : EventLoop} (h : Tracked s) {i j : Nat} {child : Int × ChildProcess}
    (hcontrol : s.control = .searching i ∨ s.control = .waiting i) (hnone : s.sigchld = false)
    (hj : s.childProcesses[j]? = some child) (hun : child.2.Unwaited) : i ≤ j := by
  have hlook := h.behind hnone j child hj hun
  rcases hcontrol with hcontrol | hcontrol <;> rwa [hcontrol] at hlook

theorem start_tracked (continueStatuses : List Int) : Tracked (start continueStatuses) where
  report child hchild hun := by
    obtain ⟨first, -, rfl⟩ := List.mem_map.mp hchild
    cases hun.1
  fresh i hi := by cases hi
  left _ _ hne := by
    cases continueStatuses with
    | nil => exact absurd rfl hne
    | cons first rest => simp [flags, start]
  behind _ j child hj hun := by
    obtain ⟨first, -, rfl⟩ := List.mem_map.mp (List.mem_of_getElem? hj)
    cases hun.1

/-! ### Steps -/

theorem status_isSome {c : Change} (h : c.life = .ended) : c.status?.isSome := by
  cases c <;> first | rfl | cases h

/-- A change of one child that leaves what the loop knows as it was. -/
theorem flags_set {children : List (Int × ChildProcess)} {i : Nat} {old : Int × ChildProcess}
    (new : Int × ChildProcess) (hi : children[i]? = some old)
    (h : new.2.terminated = old.2.terminated) :
    (children.set i new).map (·.2.terminated) = children.map (·.2.terminated) := by
  apply List.ext_getElem?
  intro j
  rw [List.getElem?_map, List.getElem?_map, List.getElem?_set]
  split
  · rename_i hij
    subst hij
    rw [hi]
    split <;> simp_all
  · rfl

theorem mem_set {children : List (Int × ChildProcess)} {i : Nat} {new : Int × ChildProcess}
    {P : Int × ChildProcess → Prop} (hnew : P new) (h : ∀ child ∈ children, P child) :
    ∀ child ∈ children.set i new, P child := fun child hchild => by
  rcases List.mem_or_eq_of_mem_set hchild with hmem | rfl
  · exact h child hmem
  · exact hnew

theorem change_tracked {s s' : EventLoop} {i : Nat} {c : Change} (h : Tracked s)
    (hs : step (.change i c) s = .ok s') : Tracked s' := by
  rw [step] at hs
  split at hs
  · rename_i first proc hi
    split at hs
    · cases hs
      have hflags := flags_set (first, { proc with process := .after c }) hi rfl
      refine ⟨?_, ?_, ?_, fun hfalse => by cases hfalse⟩
      · exact mem_set (fun hun => ⟨c, rfl, status_isSome hun.1⟩) h.report
      · rw [flags, hflags]; exact h.fresh
      · rw [flags, hflags]; exact h.left
    · cases hs
  · cases hs

theorem sigchld_tracked {s s' : EventLoop} (h : Tracked s) (hs : step .sigchld s = .ok s') :
    Tracked s' := by
  rw [step] at hs
  split at hs
  · rename_i hpolling
    cases hs
    have hleft := h.left (by rw [hpolling.1]; nofun) (by rw [hpolling.1]; nofun)
    refine ⟨h.report, ?_, fun _ _ => hleft, ?_⟩
    · intro i hi
      split at hi <;> cases hi
    · -- nothing has been looked at yet
      intro _ j child _ _
      dsimp only
      split
      · trivial
      · exact Nat.zero_le j
  · cases hs

theorem resume_terminated (c : ChildProcess) : c.resume.terminated = c.terminated := by
  unfold ChildProcess.resume
  split <;> rfl

theorem resume_unwaited {c : ChildProcess} (h : c.resume.Unwaited) :
    c.Unwaited ∧ c.resume = c := by
  unfold ChildProcess.resume at h ⊢
  split
  · rename_i hcont
    rw [if_pos hcont] at h
    cases h.1
  · rename_i hcont
    rw [if_neg hcont] at h
    exact ⟨h, rfl⟩

theorem sigcont_tracked {s s' : EventLoop} (h : Tracked s) (hs : step .sigcont s = .ok s') :
    Tracked s' := by
  rw [step] at hs
  split at hs
  · cases hs
    have hflags : (s.childProcesses.map fun child => (child.1, child.2.resume)).map
        (·.2.terminated) = s.flags := by
      simp [flags, resume_terminated]
    refine ⟨?_, ?_, ?_, ?_⟩
    · intro child hchild hun
      obtain ⟨old, hold, rfl⟩ := List.mem_map.mp hchild
      obtain ⟨hun', hsame⟩ := resume_unwaited hun
      obtain ⟨c, hc⟩ := h.report old hold hun'
      exact ⟨c, by rw [hsame]; exact hc⟩
    · rw [flags, hflags]; exact h.fresh
    · rw [flags, hflags]; exact h.left
    · intro hnone j child hj hun
      rw [List.getElem?_map] at hj
      obtain ⟨old, hold, rfl⟩ := Option.map_eq_some_iff.mp hj
      exact h.behind (by simp_all) j old hold (resume_unwaited hun).1
  · cases hs

theorem sigexit_tracked {s s' : EventLoop} (h : Tracked s) (hs : step .sigexit s = .ok s') :
    Tracked s' := by
  rw [step] at hs
  split at hs
  · cases hs
    exact ⟨h.report, fun i hi => by (cases hi), fun hexit => absurd rfl hexit,
      fun _ _ _ _ _ => trivial⟩
  · cases hs

theorem look_tracked {s s' : EventLoop} (h : Tracked s) (hs : step .look s = .ok s') :
    Tracked s' := by
  rw [step] at hs
  split at hs
  · rename_i i hsearching
    have hleft := h.left (by rw [hsearching]; nofun) (by rw [hsearching]; nofun)
    split at hs
    · rename_i first proc hi
      split at hs
      · rename_i hskip
        cases hs
        refine ⟨h.report, fun k hk => by (cases hk), fun _ _ => hleft, ?_⟩
        intro hnone j child hj hun
        have hle := h.le (.inl hsearching) hnone hj hun
        -- the child that is passed over has terminated and been waited for, or has no report
        have hne : i ≠ j := by
          rintro rfl
          obtain rfl : child = (first, proc) := Option.some.inj (hj.symm.trans hi)
          obtain ⟨c, hc, -⟩ := h.report _ (List.mem_of_getElem? hj) hun
          have := hun.2
          simp_all [ChildProcess.waitable]
        exact (by omega : i + 1 ≤ j)
      · rename_i hstop
        cases hs
        refine ⟨h.report, ?_, fun _ _ => hleft, ?_⟩
        · intro k hk
          cases hk
          simp_all [flags]
        · exact fun hnone j child hj hun => h.le (.inl hsearching) hnone hj hun
    · rename_i hi
      cases hs
      refine ⟨h.report, fun k hk => by (cases hk), fun _ _ => hleft, ?_⟩
      intro hnone j child hj hun
      have hle := h.le (.inl hsearching) hnone hj hun
      have hlt : j < s.childProcesses.length := (List.getElem?_eq_some_iff.mp hj).1
      have hlen := List.getElem?_eq_none_iff.mp hi
      omega
  · cases hs

/-- What `wait` does with the report it takes. -/
theorem wait_some {proc proc' : ChildProcess} (h : proc.wait = some proc') :
    ∃ c, proc.process.report = some c ∧ proc'.process.life = proc.process.life ∧
      ((∃ status, c.status? = some status ∧ proc'.terminated = true ∧ proc'.exitStatus = status) ∨
        (c.status? = none ∧ proc'.terminated = proc.terminated)) := by
  obtain ⟨c, hc, rfl⟩ := Option.map_eq_some_iff.mp h
  refine ⟨c, hc, ?_⟩
  cases c with
  | exited status => exact ⟨rfl, .inl ⟨status, rfl, rfl, rfl⟩⟩
  | killed signal => exact ⟨rfl, .inl ⟨signal, rfl, rfl, rfl⟩⟩
  | stopped => exact ⟨rfl, .inr ⟨rfl, rfl⟩⟩
  | continued => exact ⟨rfl, .inr ⟨rfl, rfl⟩⟩

/-- A child that was waited for is no longer to be waited for. -/
theorem not_unwaited_of_wait {proc proc' : ChildProcess} (h : proc.wait = some proc')
    (hfresh : proc.terminated = false)
    (hreport : proc.Unwaited → ∃ c, proc.process.report = some c ∧ c.status?.isSome) :
    ¬ proc'.Unwaited := by
  intro hun
  obtain ⟨c, hc, hlife, ⟨status, -, hterm, -⟩ | ⟨hnone, -⟩⟩ := wait_some h
  · have hfalse := hun.2
    rw [hterm] at hfalse
    cases hfalse
  · obtain ⟨c', hc', hsome⟩ := hreport ⟨hlife ▸ hun.1, hfresh⟩
    obtain rfl : c = c' := Option.some.inj (hc.symm.trans hc')
    rw [hnone] at hsome
    cases hsome

/-- The search goes on after a child that has not terminated, and stops after one that has. -/
theorem afterWait_cases (i : Nat) (first : Int) (proc : ChildProcess)
    (children : List (Int × ChildProcess)) :
    (proc.terminated = false ∧ afterWait i first proc children = .searching (i + 1)) ∨
    (proc.terminated = true ∧ (afterWait i first proc children = .exited ∨
      afterWait i first proc children = .thrown ∨
      (afterWait i first proc children = .polling ∧ proc.exitStatus = first ∧
        allTerminated children = false))) := by
  unfold afterWait
  cases proc.terminated with
  | false => exact .inl ⟨rfl, rfl⟩
  | true =>
      refine .inr ⟨rfl, ?_⟩
      rw [if_pos rfl]
      split
      · exact .inr (.inl rfl)
      · cases allTerminated children with
        | true => exact .inl rfl
        | false =>
            rw [if_neg (by decide)]
            split
            · rename_i hfirst
              exact .inr (.inr ⟨rfl, hfirst, rfl⟩)
            · exact .inl rfl

/-- The child answers to `wait`, or `waitid` throws. -/
theorem step_wait {s s' : EventLoop} (hs : step .wait s = .ok s') :
    ∃ i first proc, s.control = .waiting i ∧ s.childProcesses[i]? = some (first, proc) ∧
      ((∃ proc', proc.wait = some proc' ∧ s' = { s with
          childProcesses := s.childProcesses.set i (first, proc')
          control := afterWait i first proc' (s.childProcesses.set i (first, proc')) }) ∨
        s' = { s with control := .thrown }) := by
  rw [step] at hs
  split at hs
  · rename_i i hwaiting
    split at hs
    · rename_i first proc hi
      split at hs
      · rename_i proc' hwait
        cases hs
        exact ⟨i, first, proc, hwaiting, hi, .inl ⟨proc', hwait, rfl⟩⟩
      · cases hs
        exact ⟨i, first, proc, hwaiting, hi, .inr rfl⟩
    · cases hs
  · cases hs

theorem wait_tracked {s s' : EventLoop} (h : Tracked s) (hs : step .wait s = .ok s')
    (hleaves : ¬ s.LeavesBehind) : Tracked s' := by
  obtain ⟨i, first, proc, hwaiting, hi, ⟨proc', hwait, rfl⟩ | rfl⟩ := step_wait hs
  · obtain ⟨c, hc, -, hstatus⟩ := wait_some hwait
    have hlt : i < s.childProcesses.length := (List.getElem?_eq_some_iff.mp hi).1
    have hfresh : proc.terminated = false := by
      have := h.fresh i hwaiting
      simpa [flags, hi] using this
    have hdone := not_unwaited_of_wait hwait hfresh (h.report _ (List.mem_of_getElem? hi))
    have hcases := afterWait_cases i first proc' (s.childProcesses.set i (first, proc'))
    refine ⟨?_, ?_, ?_, ?_⟩
    · exact mem_set (fun hun => absurd hun hdone) h.report
    · intro k hk
      dsimp only at hk
      rcases hcases with ⟨-, heq⟩ | ⟨-, heq | heq | ⟨heq, -⟩⟩ <;> rw [heq] at hk <;> cases hk
    · intro hexited hthrown _
      dsimp only at hexited hthrown
      rcases hcases with ⟨hterm, -⟩ | ⟨-, heq | heq | ⟨-, -, hall⟩⟩
      · exact List.mem_map.mpr ⟨_, List.mem_set hlt _, hterm⟩
      · exact absurd heq hexited
      · exact absurd heq hthrown
      · obtain ⟨child, hchild, hflag⟩ := List.all_eq_false.mp hall
        exact List.mem_map.mpr ⟨child, hchild, Bool.eq_false_iff.mpr hflag⟩
    · intro hnone j child hj hun
      dsimp only at hnone hj ⊢
      have hne : i ≠ j := by
        rintro rfl
        rw [List.getElem?_set_self hlt] at hj
        obtain rfl : child = (first, proc') := (Option.some.inj hj).symm
        exact hdone hun
      rw [List.getElem?_set_ne hne] at hj
      have hle := h.le (.inr hwaiting) hnone hj hun
      rcases hcases with ⟨-, heq⟩ | ⟨htrue, heq | heq | ⟨heq, hfirst, -⟩⟩ <;> rw [heq]
      · exact (by omega : i + 1 ≤ j)
      · trivial
      · trivial
      · -- the search has ended early, with `child` still to be looked at
        rcases hstatus with ⟨status, hstatus, -, hexit⟩ | ⟨-, hterm⟩
        · exact hleaves ⟨hnone, i, first, proc, c, hwaiting, hi, hc,
            by rw [hstatus, ← hexit, hfirst], j, child, by omega, hj, hun⟩
        · rw [hterm, hfresh] at htrue
          cases htrue
  · exact ⟨h.report, fun k hk => by (cases hk), fun _ hthrown => absurd rfl hthrown,
      fun _ _ _ _ _ => trivial⟩

theorem step_tracked {e : Event} {s s' : EventLoop} (h : Tracked s) (hs : step e s = .ok s')
    (hleaves : e = .wait → ¬ s.LeavesBehind) : Tracked s' := by
  cases e with
  | change i c => exact change_tracked h hs
  | sigchld => exact sigchld_tracked h hs
  | sigcont => exact sigcont_tracked h hs
  | sigexit => exact sigexit_tracked h hs
  | look => exact look_tracked h hs
  | wait => exact wait_tracked h hs (hleaves rfl)

/-- The search ends early, and the loop waits with a termination unwaited for. -/
theorem LeavesBehind.lost {s : EventLoop} (h : s.LeavesBehind) :
    ∃ s', step .wait s = .ok s' ∧ s'.Waits ∧ ¬ s'.Settled := by
  obtain ⟨hnone, i, first, proc, c, hwaiting, hi, hc, hstatus, j, child, hij, hj, hun⟩ := h
  obtain ⟨proc', hwait⟩ : ∃ proc', proc.wait = some proc' := by simp [ChildProcess.wait, hc]
  obtain ⟨c', hc', -, hcases⟩ := wait_some hwait
  obtain rfl : c = c' := Option.some.inj (hc.symm.trans hc')
  obtain ⟨hterm, hexit⟩ : proc'.terminated = true ∧ proc'.exitStatus = first := by
    rcases hcases with ⟨status, hs, hterm, hexit⟩ | ⟨hs, -⟩
    · exact ⟨hterm, hexit.trans (Option.some.inj (hs.symm.trans hstatus))⟩
    · rw [hs] at hstatus; cases hstatus
  have hj' : (s.childProcesses.set i (first, proc'))[j]? = some child := by
    rw [List.getElem?_set_ne (by omega), hj]
  have hall : allTerminated (s.childProcesses.set i (first, proc')) = false :=
    List.all_eq_false.mpr ⟨child, List.mem_of_getElem? hj', by simp [hun.2]⟩
  have hpolling : afterWait i first proc' (s.childProcesses.set i (first, proc')) = .polling := by
    rw [afterWait, if_pos hterm, if_neg fun hbad => hbad.2 hexit, hall, if_neg (by decide),
      if_pos hexit]
  refine ⟨{ s with
      childProcesses := s.childProcesses.set i (first, proc')
      control := afterWait i first proc' (s.childProcesses.set i (first, proc')) },
    by rw [step, hwaiting]; simp only [hi, hwait], ⟨hpolling, hnone⟩, fun hsettled => ?_⟩
  exact hsettled.waited child (List.mem_of_getElem? hj') hun

/-! ### Runs -/

/-- **When no termination is lost.** -/
theorem settled_iff {continueStatuses : List Int} {es : List Event} :
    (∀ done s, done <+: es → run step done (start continueStatuses) = .ok s → s.Waits → s.Settled) ↔
      ∀ done s, done ++ [.wait] <+: es → run step done (start continueStatuses) = .ok s →
        ¬ s.LeavesBehind := by
  constructor
  · intro hall done s hpre hrun hleaves
    obtain ⟨s', hstep, hwaits, hlost⟩ := hleaves.lost
    refine hlost (hall _ s' hpre ?_ hwaits)
    rw [run_append, hrun, ok_bind, run_singleton, hstep]
  · intro hall done s hpre hrun hwaits
    have htracked : Ensures (fun _ => True) Tracked (run step done (start continueStatuses)) :=
      ensures_run (P := fun _ => Tracked) (start_tracked continueStatuses)
        fun before s e hs hbefore hnext => ensures_iff.mpr fun s' hs' =>
          step_tracked hs hs' fun he => by
            subst he
            exact hall before s (hnext.trans hpre) hbefore
    exact (htracked.of_ok hrun).settled hwaits

/-- Two children of one loop that both end with their continue status, before the loop looks. -/
def bothEnd : List Event :=
  [.change 0 (.exited 77), .change 1 (.exited 77), .sigchld, .look, .wait]

/-- The loop waits for a signal that will not come. -/
theorem termination_lost : ¬ ∀ (continueStatuses : List Int) (es : List Event) (s : EventLoop),
    run step es (start continueStatuses) = .ok s → s.Waits → s.Settled := by
  intro hall
  have hsettled := hall [77, 77] bothEnd
    { childProcesses :=
        [(77, { terminated := true, exitStatus := 77, process := { life := .ended } }),
         (77, { process := { life := .ended, report := some (.exited 77) } })] }
    (by decide) ⟨rfl, rfl⟩
  exact hsettled.waited (77, { process := { life := .ended, report := some (.exited 77) } })
    (by decide) ⟨rfl, rfl⟩

end EventLoop

end Mahimahi
