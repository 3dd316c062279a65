import Mahimahi.Queues.Conservation

/-!
# Queues — CoDel drops only after an interval above the target

* `dropped_after_interval`: whenever a `dodequeue` returns `ok_to_drop`, an earlier one was made at
  least an interval before, and from that one on every `dodequeue` took a packet that had waited for
  the target and left more than a packet's worth of bytes.

The class remembers one time, `first_above_time_`, where 0 stands for none.  `Timed` says which call
that time is counted from.
-/

open Fallible MachineInt

namespace Mahimahi

namespace CODELPacketQueue

/-! ### The calls of `dodequeue` -/

/-- A `dodequeue` that returned: the packet it took and what it left. -/
structure Dodequeue where
  now : Nat
  packet : QueuedPacket
  left : List QueuedPacket
  okToDrop : Bool
  deriving DecidableEq

/-- The calls that `dropLoop` makes, up to one that a fault stops. -/
def dropLoopCalls (now : Nat) : Nat → CODELPacketQueue → List Dodequeue
  | 0, _ => []
  | fuel + 1, s =>
      if s.dropNext ≤ now ∧ s.dropping then
        match s.dodequeue now with
        | .error _ => []
        | .ok (packet, okToDrop, s) =>
            let s := { s with count := toU32 (s.count + 1) }
            { now, packet, left := s.internalQueue, okToDrop } ::
              if okToDrop then
                dropLoopCalls now fuel { s with dropNext := s.controlLaw s.dropNext s.count }
              else dropLoopCalls now fuel { s with dropping := false }
      else []

/-- The calls that `drop` makes. -/
def dropCalls (now : Nat) (okToDrop : Bool) (s : CODELPacketQueue) : List Dodequeue :=
  if s.dropping then
    dropLoopCalls now (s.internalQueue.length + 1) { s with dropping := okToDrop }
  else if okToDrop then
    match s.dodequeue now with
    | .error _ => []
    | .ok (packet, okToDrop, s) => [{ now, packet, left := s.internalQueue, okToDrop }]
  else []

/-- The calls that `dequeue` makes. -/
def dequeueCalls (now : Nat) (s : CODELPacketQueue) : List Dodequeue :=
  match s.dodequeue now with
  | .error _ => []
  | .ok (packet, okToDrop, s) =>
      { now, packet, left := s.internalQueue, okToDrop } :: s.dropCalls now okToDrop

def step : Discipline.Call → CODELPacketQueue → Except Fault CODELPacketQueue
  | .enqueue _ arrivalTime contents, s => s.enqueue { arrivalTime, contents }
  | .dequeue clock, s => (s.dequeue (clock 0)).map Prod.snd
  | .setBandwidth bandwidth, s => .ok (s.setBandwidth bandwidth)

def callsOf : Discipline.Call → CODELPacketQueue → List Dodequeue
  | .dequeue clock, s => s.dequeueCalls (clock 0)
  | _, _ => []

/-- The calls of `dodequeue` in a run, which may end with a fault. -/
def dodequeues : List Discipline.Call → CODELPacketQueue → List Dodequeue
  | [], _ => []
  | c :: cs, s => callsOf c s ++ match step c s with
    | .error _ => []
    | .ok s' => dodequeues cs s'

/-- The clock readings of a run: `arrival_time` of a packet is one. -/
def readings : List Discipline.Call → List Nat
  | [] => []
  | .enqueue _ arrivalTime _ :: cs => arrivalTime :: readings cs
  | .dequeue clock :: cs => clock 0 :: readings cs
  | .setBandwidth _ :: cs => readings cs

/-! ### What one call does -/

/-- The packet had waited for the target, and more than a packet's worth of bytes was left. -/
structure Dodequeue.Standing (target : Nat) (c : Dodequeue) : Prop where
  sojourn : c.packet.arrivalTime + target ≤ c.now
  bytes : PACKET_SIZE < totalBytes c.left
  left : c.left ≠ []

/-- `calls` has been above the target since `first`. -/
def Since (target : Nat) (first : Dodequeue) (calls : List Dodequeue) : Prop :=
  ∃ earlier between, calls = earlier ++ first :: between ∧
    ∀ c ∈ first :: between, c.Standing target

theorem Since.append {target : Nat} {first c : Dodequeue} {calls : List Dodequeue}
    (h : Since target first calls) (hc : c.Standing target) : Since target first (calls ++ [c]) := by
  obtain ⟨earlier, between, rfl, hall⟩ := h
  refine ⟨earlier, between ++ [c], by simp, fun d hd => ?_⟩
  rcases List.mem_append.mp (List.cons_append ▸ hd) with hd | hd
  · exact hall d hd
  · exact List.mem_singleton.mp hd ▸ hc

theorem since_last {target : Nat} {c : Dodequeue} (calls : List Dodequeue)
    (hc : c.Standing target) : Since target c (calls ++ [c]) :=
  ⟨calls, [], rfl, fun _ hd => List.mem_singleton.mp hd ▸ hc⟩

/-- What a call that allowed a drop has behind it. -/
def Justified (a : CodelArgs) (before : List Dodequeue) (c : Dodequeue) : Prop :=
  c.okToDrop = true → c.Standing a.target ∧
    ∃ first, Since a.target first before ∧ first.now + a.interval ≤ c.now

/-- Every call that allowed a drop has. -/
def AllJustified (a : CodelArgs) (calls : List Dodequeue) : Prop :=
  ∀ before c after, calls = before ++ c :: after → Justified a before c

theorem AllJustified.append {a : CodelArgs} {calls : List Dodequeue} {c : Dodequeue}
    (h : AllJustified a calls) (hc : Justified a calls c) : AllJustified a (calls ++ [c]) := by
  intro before d after he
  rcases List.eq_nil_or_concat after with rfl | ⟨after, e, rfl⟩
  · obtain ⟨rfl, hd⟩ := List.append_inj' he rfl
    rw [← List.singleton_inj.mp hd]
    exact hc
  · rw [List.concat_eq_append, ← List.cons_append, ← List.append_assoc] at he
    exact h before d after (List.append_inj' he rfl).1

/-- `first_above_time_` is an interval after the call from which on the queue has been above the
target, and every drop allowed so far was due. -/
structure Timed (a : CodelArgs) (latest : Nat) (calls : List Dodequeue) (s : CODELPacketQueue) :
    Prop where
  target : s.target = a.target
  interval : s.interval = a.interval
  counted : s.Counted
  arrived : ∀ p ∈ s.internalQueue, p.arrivalTime ≤ latest
  since : s.firstAboveTime ≠ 0 →
    ∃ first, Since a.target first calls ∧ s.firstAboveTime = first.now + a.interval
  justified : AllJustified a calls

/-- Only these fields matter. -/
theorem Timed.of_eq {a : CodelArgs} {latest : Nat} {calls : List Dodequeue}
    {s s' : CODELPacketQueue} (h : Timed a latest calls s)
    (hcounted : s'.toCountedQueue = s.toCountedQueue)
    (habove : s'.firstAboveTime = s.firstAboveTime) (htarget : s'.target = s.target)
    (hinterval : s'.interval = s.interval) : Timed a latest calls s' where
  target := htarget.trans h.target
  interval := hinterval.trans h.interval
  counted := hcounted ▸ h.counted
  arrived := hcounted ▸ h.arrived
  since hne := by
    rw [habove] at hne ⊢
    exact h.since hne
  justified := h.justified

theorem Timed.later {a : CodelArgs} {latest now : Nat} {calls : List Dodequeue}
    {s : CODELPacketQueue} (h : Timed a latest calls s) (hle : latest ≤ now) :
    Timed a now calls s :=
  ⟨h.target, h.interval, h.counted, fun p hp => (h.arrived p hp).trans hle, h.since, h.justified⟩

theorem toU64_le {x : Int} (h : 0 ≤ x) : (toU64 x : Int) ≤ x := by
  unfold toU64
  omega

/-- The byte count read never exceeds the bytes there are. -/
theorem sizeBytes_le {c : CountedQueue} {bytes : Nat} (h : c.Counted)
    (hbytes : c.sizeBytes = .ok bytes) : bytes ≤ totalBytes c.internalQueue := by
  rw [(h.sizeBytes_ok_iff.mp hbytes).2]
  exact toU32_le _

/-- The ways a `dodequeue` returns: `first_above_time_` is reset, set, or kept and compared. -/
theorem dodequeue_above {now : Nat} {p : QueuedPacket} {okToDrop : Bool} {s s' : CODELPacketQueue}
    (h : s.dodequeue now = .ok (p, okToDrop, s')) :
    (okToDrop = false ∧ s'.firstAboveTime = 0 ∧
      (s'.empty = true ∨ toU64 (now - p.arrivalTime) < s.target ∨
        ∃ bytes, s'.sizeBytes = .ok bytes ∧ bytes ≤ PACKET_SIZE)) ∨
    (s.target ≤ toU64 (now - p.arrivalTime) ∧ s'.empty = false ∧
      (∃ bytes, s'.sizeBytes = .ok bytes ∧ PACKET_SIZE < bytes) ∧
      ((s.firstAboveTime = 0 ∧ okToDrop = false ∧ s'.firstAboveTime = now + s.interval) ∨
        (s.firstAboveTime ≠ 0 ∧ s'.firstAboveTime = s.firstAboveTime ∧
          okToDrop = decide (s.firstAboveTime ≤ now)))) := by
  obtain ⟨⟨p₀, q⟩, hpop, h⟩ := bind_ok.mp h
  obtain ⟨c, -, rfl⟩ := DroppingPacketQueue.popFront_ok hpop
  obtain ⟨⟨⟩, -, h⟩ := bind_ok.mp h
  dsimp only at h
  split at h
  next hempty =>
    cases h
    exact .inl ⟨rfl, rfl, .inl hempty⟩
  next hempty =>
    obtain ⟨bytes, hbytes, h⟩ := bind_ok.mp h
    split at h
    next hbelow =>
      cases h
      exact .inl ⟨rfl, rfl, .inr (hbelow.imp_right fun hle => ⟨bytes, hbytes, hle⟩)⟩
    next habove =>
      rw [not_or, Nat.not_lt, Nat.not_le] at habove
      refine .inr ?_
      split at h
      next hzero =>
        cases h
        exact ⟨habove.1, by simpa using hempty, ⟨bytes, hbytes, habove.2⟩,
          .inl ⟨hzero, rfl, rfl⟩⟩
      next hne =>
        cases h
        exact ⟨habove.1, by simpa using hempty, ⟨bytes, hbytes, habove.2⟩, .inr ⟨hne, rfl, rfl⟩⟩

/-- **One call.**  A drop is allowed only after an interval above the target. -/
theorem Timed.dodequeue {a : CodelArgs} {now : Nat} {calls : List Dodequeue} {p : QueuedPacket}
    {okToDrop : Bool} {s s' : CODELPacketQueue} (h : Timed a now calls s)
    (hd : s.dodequeue now = .ok (p, okToDrop, s')) :
    Timed a now (calls ++ [{ now, packet := p, left := s'.internalQueue, okToDrop }]) s' := by
  obtain ⟨c, firstAboveTime, hpop, hs', -⟩ := dodequeue_cases hd
  have hlist : s.internalQueue = p :: s'.internalQueue := hs' ▸ (CountedQueue.pop_ok hpop).1
  have hcounted : s'.Counted := hs' ▸ (CountedQueue.pop_ok hpop).2 h.counted
  have harrived : ∀ q ∈ p :: s'.internalQueue, q.arrivalTime ≤ now := hlist ▸ h.arrived
  have htarget : s'.target = a.target := hs' ▸ h.target
  have hinterval : s'.interval = a.interval := hs' ▸ h.interval
  have htail : ∀ q ∈ s'.internalQueue, q.arrivalTime ≤ now :=
    fun q hq => harrived q (List.mem_cons_of_mem _ hq)
  rcases dodequeue_above hd with ⟨hfalse, hzero, -⟩ | ⟨hwait, hleft, ⟨bytes, hbytes, hmany⟩, hkept⟩
  · -- the queue is good: `first_above_time_` is reset and nothing may be dropped
    refine ⟨htarget, hinterval, hcounted, htail, fun hne => absurd hzero hne, ?_⟩
    exact h.justified.append fun htrue => absurd (hfalse.symm.trans htrue) (by decide)
  · have hstanding : Dodequeue.Standing a.target
        { now, packet := p, left := s'.internalQueue, okToDrop } := by
      refine ⟨?_, hmany.trans_le (sizeBytes_le hcounted hbytes), ?_⟩
      · have hpos : (0 : Int) ≤ now - p.arrivalTime := by
          have := harrived p List.mem_cons_self
          omega
        have hle := toU64_le hpos
        rw [h.target] at hwait
        dsimp only
        omega
      · intro hnil
        rw [CountedQueue.empty, show s'.internalQueue = [] from hnil] at hleft
        cases hleft
    rcases hkept with ⟨-, hfalse, hset⟩ | ⟨hne, hkept, hdue⟩
    · -- this call is the first above the target
      refine ⟨htarget, hinterval, hcounted, htail, fun _ => ?_, ?_⟩
      · exact ⟨_, since_last calls hstanding, by rw [hset, h.interval]⟩
      · exact h.justified.append fun htrue => absurd (hfalse.symm.trans htrue) (by decide)
    · -- the first call above the target is the one that set `first_above_time_`
      obtain ⟨first, hsince, hfirst⟩ := h.since hne
      refine ⟨htarget, hinterval, hcounted, htail, fun _ => ?_, ?_⟩
      · exact ⟨first, hsince.append hstanding, hkept.trans hfirst⟩
      · refine h.justified.append fun htrue => ⟨hstanding, first, hsince, ?_⟩
        rw [hdue, hfirst, decide_eq_true_iff] at htrue
        exact htrue

/-! ### Runs of calls -/

/-- The calls made, `result` being how they ended, keep to `Timed`. -/
structure Kept (a : CodelArgs) (now : Nat) (calls : List Dodequeue)
    (result : Except Fault CODELPacketQueue) : Prop where
  justified : AllJustified a calls
  timed : ∀ s, result = .ok s → Timed a now calls s

theorem Timed.kept {a : CodelArgs} {now : Nat} {calls : List Dodequeue} {s : CODELPacketQueue}
    (h : Timed a now calls s) : Kept a now calls (.ok s) :=
  ⟨h.justified, fun _ he => Except.ok.inj he ▸ h⟩

theorem dropLoop_kept {a : CodelArgs} {now fuel : Nat} : ∀ {calls : List Dodequeue}
    {s : CODELPacketQueue}, Timed a now calls s →
      Kept a now (calls ++ dropLoopCalls now fuel s) (dropLoop now fuel s) := by
  induction fuel with
  | zero => intro calls s h; simpa [dropLoopCalls, dropLoop] using h.kept
  | succ fuel ih =>
      intro calls s h
      rw [dropLoopCalls, dropLoop]
      split
      · cases hd : s.dodequeue now with
        | error e => exact ⟨by simpa using h.justified, fun s' he => by cases he⟩
        | ok r =>
            obtain ⟨p, okToDrop, s₁⟩ := r
            have h₁ := h.dodequeue hd
            dsimp only
            rw [List.append_cons, ok_bind]
            cases okToDrop with
            | true => exact ih (h₁.of_eq rfl rfl rfl rfl)
            | false => exact ih (h₁.of_eq rfl rfl rfl rfl)
      · simpa using h.kept

theorem drop_kept {a : CodelArgs} {now : Nat} (okToDrop : Bool) {calls : List Dodequeue}
    {s : CODELPacketQueue} (h : Timed a now calls s) :
    Kept a now (calls ++ dropCalls now okToDrop s) (s.drop now okToDrop) := by
  rw [dropCalls, drop]
  split
  · exact dropLoop_kept (h.of_eq rfl rfl rfl rfl)
  · split
    · cases hd : s.dodequeue now with
      | error e => exact ⟨by simpa using h.justified, fun s' he => by cases he⟩
      | ok r =>
          obtain ⟨p, okToDrop, s₁⟩ := r
          refine ⟨(h.dodequeue hd).justified, fun s' he => ?_⟩
          cases he
          exact (h.dodequeue hd).of_eq rfl rfl rfl rfl
    · rw [List.append_nil]
      exact h.kept

theorem dequeue_kept {a : CodelArgs} {now : Nat} {calls : List Dodequeue}
    {s : CODELPacketQueue} (h : Timed a now calls s) :
    Kept a now (calls ++ dequeueCalls now s) ((s.dequeue now).map Prod.snd) := by
  rw [dequeueCalls]
  cases hd : s.dodequeue now with
  | error e =>
      refine ⟨by simpa using h.justified, fun s' he => ?_⟩
      obtain ⟨⟨p, s₂⟩, hdeq, -⟩ := of_map_ok he
      obtain ⟨okToDrop, s₁, hd', -⟩ := dequeue_split hdeq
      rw [hd] at hd'
      cases hd'
  | ok r =>
      obtain ⟨p, okToDrop, s₁⟩ := r
      have hdrop := drop_kept okToDrop (h.dodequeue hd)
      dsimp only
      rw [List.append_cons]
      refine ⟨hdrop.justified, fun s' he => ?_⟩
      obtain ⟨⟨p₂, s₂⟩, hdeq, rfl⟩ := of_map_ok he
      obtain ⟨okToDrop', s₁', hd', hdrop'⟩ := dequeue_split hdeq
      rw [hd] at hd'
      cases hd'
      exact hdrop.timed _ hdrop'

theorem Timed.enqueue {a : CodelArgs} {latest : Nat} {calls : List Dodequeue} {p : QueuedPacket}
    {s s' : CODELPacketQueue} (h : Timed a latest calls s) (hle : latest ≤ p.arrivalTime)
    (hs : s.enqueue p = .ok s') : Timed a p.arrivalTime calls s' := by
  have h' := h.later hle
  rcases (enqueue_cases hs).2 with ⟨-, rfl⟩ | ⟨-, rfl⟩
  · refine ⟨h.target, h.interval, h.counted.push p, fun q hq => ?_, h.since, h.justified⟩
    rcases List.mem_append.mp hq with hq | hq
    · exact h'.arrived q hq
    · exact (List.mem_singleton.mp hq ▸ Nat.le_refl _)
  · exact h'

theorem dodequeues_justified {a : CodelArgs} (cs : List Discipline.Call) :
    ∀ {latest : Nat} {calls : List Dodequeue} {s : CODELPacketQueue}, Timed a latest calls s →
      (latest :: readings cs).Pairwise (· ≤ ·) → AllJustified a (calls ++ dodequeues cs s) := by
  induction cs with
  | nil => intro latest calls s h hclock; simpa [dodequeues] using h.justified
  | cons c cs ih =>
      intro latest calls s h hclock
      rw [dodequeues, ← List.append_assoc]
      -- whatever the call was, the rest goes on from a `Timed` state
      have key : ∀ now, (now :: readings cs).Pairwise (· ≤ ·) →
          Kept a now (calls ++ callsOf c s) (step c s) → AllJustified a
            ((calls ++ callsOf c s) ++ match step c s with
              | .error _ => []
              | .ok s' => dodequeues cs s') := by
        intro now hclock hkept
        cases hs : step c s with
        | error e => simpa using hkept.justified
        | ok s' => exact ih (hkept.timed s' hs) hclock
      cases c with
      | enqueue ts arrivalTime contents =>
          rw [readings, List.pairwise_cons] at hclock
          refine key arrivalTime hclock.2 ⟨by simpa [callsOf] using h.justified, fun s' hs => ?_⟩
          have := h.enqueue (p := { arrivalTime, contents })
            (hclock.1 arrivalTime List.mem_cons_self) hs
          simpa [callsOf] using this
      | dequeue clock =>
          rw [readings, List.pairwise_cons] at hclock
          exact key (clock 0) hclock.2 (dequeue_kept (h.later (hclock.1 _ List.mem_cons_self)))
      | setBandwidth bandwidth =>
          refine key latest hclock ?_
          rw [callsOf, List.append_nil]
          · have hset : Timed a latest calls (s.setBandwidth bandwidth) := h.of_eq rfl rfl rfl rfl
            exact hset.kept
          · nofun

/-- **CoDel drops only after an interval above the target.** -/
theorem dropped_after_interval {a : CodelArgs} {calls : List Discipline.Call}
    (hclock : (readings calls).Pairwise (· ≤ ·)) {before after : List Dodequeue} {c : Dodequeue}
    (hcalls : dodequeues calls a.make = before ++ c :: after) (hdrop : c.okToDrop = true) :
    ∃ earlier first between, before = earlier ++ first :: between ∧
      first.now + a.interval ≤ c.now ∧ ∀ d ∈ first :: between ++ [c], d.Standing a.target := by
  have hstart : Timed a 0 [] a.make :=
    ⟨rfl, rfl, CountedQueue.counted_nil, fun p hp => (nomatch hp), fun hne => absurd rfl hne,
      fun before c after he => by simp at he⟩
  have hall := dodequeues_justified calls hstart
    (List.pairwise_cons.mpr ⟨fun _ _ => Nat.zero_le _, hclock⟩)
  obtain ⟨hc, first, ⟨earlier, between, hbefore, hstanding⟩, hdue⟩ :=
    hall before c after hcalls hdrop
  refine ⟨earlier, first, between, hbefore, hdue, fun d hd => ?_⟩
  rcases List.mem_append.mp hd with hd | hd
  · exact hstanding d hd
  · exact List.mem_singleton.mp hd ▸ hc

/-- A target of 5, an interval of 100, and drops 100 apart. -/
def hundredMs : CodelArgs :=
  { packetLimit := 0, byteLimit := 10000, logFd := false, bandwidth := 0, limited := by decide,
    target := 5, interval := 100, controlLaw := fun t _ => t + 100, target_ne := by decide,
    interval_ne := by decide }

def thousandBytes : QueuedPacket := { arrivalTime := 0, contents := List.replicate 1000 0 }

/-- Six packets, of which two calls of `dequeue` take three. -/
def sixPackets : List Discipline.Call :=
  List.replicate 6 (.enqueue 0 0 (List.replicate 1000 0)) ++
    [.dequeue fun _ => 10, .dequeue fun _ => 120]

/-- The queue is above the target at 10, and the packet taken first at 120 allows a drop. -/
theorem dropped_after_interval_sixPackets :
    ∃ before c after, dodequeues sixPackets hundredMs.make = before ++ c :: after ∧
      c.okToDrop = true ∧
      ∃ earlier first between, before = earlier ++ first :: between ∧
        first.now + hundredMs.interval ≤ c.now ∧
        ∀ d ∈ first :: between ++ [c], d.Standing hundredMs.target := by
  have hcalls : dodequeues sixPackets hundredMs.make =
      [⟨10, thousandBytes, .replicate 5 thousandBytes, false⟩] ++
        ⟨120, thousandBytes, .replicate 4 thousandBytes, true⟩ ::
        [⟨120, thousandBytes, .replicate 3 thousandBytes, true⟩] := by decide +kernel
  exact ⟨_, _, _, hcalls, rfl, dropped_after_interval (by decide +kernel) hcalls rfl⟩

end CODELPacketQueue

end Mahimahi
