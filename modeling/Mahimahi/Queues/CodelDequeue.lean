import Mahimahi.Library.Loops
import Mahimahi.Queues.Discards

/-!
# Queues — the packets that CoDel's `dequeue` takes

* `dequeue_never_empty`: `dequeue` of a queue that is not empty ends, and takes no packet of an empty
  queue.
* `served_last_iff`: it returns the packet of its last `dodequeue`, as the pseudo-code does, exactly
  when it makes one only.  The `r` of the inner calls is a variable of its own, so their packets are
  lost.
-/

open Fallible MachineInt Loops

namespace Mahimahi

namespace CODELPacketQueue

variable {now : Nat} {s s' : CODELPacketQueue}

/-! ### The loop of the dropping state -/

/-- One turn. -/
def dropStep (now : Nat) (s : CODELPacketQueue) :
    Except Fault (Next CODELPacketQueue CODELPacketQueue) :=
  if s.dropNext ≤ now ∧ s.dropping then do
    let (_, okToDrop, s) ← s.dodequeue now
    let s := { s with count := toU32 (s.count + 1) }
    if okToDrop then return .more { s with dropNext := s.controlLaw s.dropNext s.count }
    else return .more { s with dropping := false }
  else return .stop s

/-- A turn that goes on has taken a packet. -/
theorem dropStep_more (h : dropStep now s = .ok (.more s')) :
    (s.dropNext ≤ now ∧ s.dropping = true) ∧ ∃ p okToDrop s₁,
      s.dodequeue now = .ok (p, okToDrop, s₁) ∧
      s' = if okToDrop then { s₁ with
          count := toU32 (s₁.count + 1)
          dropNext := s₁.controlLaw s₁.dropNext (toU32 (s₁.count + 1)) }
        else { s₁ with count := toU32 (s₁.count + 1), dropping := false } := by
  unfold dropStep at h
  split at h
  next hdue =>
    obtain ⟨⟨p, okToDrop, s₁⟩, hd, h⟩ := bind_ok.mp h
    refine ⟨hdue, p, okToDrop, s₁, hd, ?_⟩
    cases okToDrop with
    | true => cases h; rfl
    | false => cases h; rfl
  · cases h

theorem dropStep_shrinks (h : dropStep now s = .ok (.more s')) :
    s'.internalQueue.length < s.internalQueue.length := by
  obtain ⟨-, p, okToDrop, s₁, hd, rfl⟩ := dropStep_more h
  rw [dodequeue_list hd, List.length_cons]
  split
  · exact Nat.lt_succ_self _
  · exact Nat.lt_succ_self _

def droppingLoop (now : Nat) : Loop Fault CODELPacketQueue CODELPacketQueue where
  step := dropStep now
  measure s := s.internalQueue.length
  shrinks := dropStep_shrinks

/-- The fuel of `dropLoop` is enough: it is the loop. -/
theorem dropLoop_eq_run {fuel : Nat} : ∀ {s : CODELPacketQueue}, s.internalQueue.length < fuel →
    dropLoop now fuel s = (droppingLoop now).run s := by
  induction fuel with
  | zero => exact fun h => absurd h (Nat.not_lt_zero _)
  | succ fuel ih =>
      intro s hfuel
      rw [dropLoop]
      have hstep : (droppingLoop now).step s = dropStep now s := rfl
      unfold dropStep at hstep
      split
      next hdue =>
        rw [if_pos hdue] at hstep
        cases hd : s.dodequeue now with
        | error e =>
            rw [hd] at hstep
            exact (Loop.run_error hstep).symm
        | ok r =>
            obtain ⟨p, okToDrop, s₁⟩ := r
            rw [hd] at hstep
            have hlength : s₁.internalQueue.length < fuel := by
              rw [dodequeue_list hd, List.length_cons] at hfuel
              omega
            cases okToDrop with
            | true =>
                rw [Loop.run_more hstep]
                exact ih hlength
            | false =>
                rw [Loop.run_more hstep]
                exact ih hlength
      next hdue =>
        rw [if_neg hdue] at hstep
        exact (Loop.run_stop hstep).symm

/-! ### No packet of an empty queue -/

/-- No `front()` of an empty queue. -/
def FrontFree (f : Fault) : Prop := f ≠ .emptyQueue

instance : DecidablePred FrontFree := fun f => inferInstanceAs (Decidable (f ≠ .emptyQueue))

theorem sizeBytes_frontFree (c : CountedQueue) : Ensures FrontFree (fun _ => True) c.sizeBytes :=
  c.sizeBytes_faults.mono_fault (by decide)

theorem assertGood_frontFree (q : DroppingPacketQueue) :
    Ensures FrontFree (fun _ => True) q.assertGood := q.assertGood_faults.mono_error (by decide)

theorem logPacket_frontFree (p : QueuedPacket) (s : CODELPacketQueue) :
    Ensures FrontFree (fun _ => True) (s.logPacket p) :=
  (s.logPacket_faults p).mono_error (by decide)

/-- A packet that may be dropped is not the last one. -/
theorem dodequeue_frontFree (h : s.internalQueue ≠ []) (now : Nat) :
    Ensures FrontFree (fun r => r.2.1 = true → r.2.2.internalQueue ≠ []) (s.dodequeue now) := by
  cases hd : s.dodequeue now with
  | ok r =>
      obtain ⟨p, okToDrop, s₁⟩ := r
      rintro rfl hnil
      rcases dodequeue_above hd with ⟨hfalse, -⟩ | ⟨-, hleft, -⟩
      · cases hfalse
      · rw [CountedQueue.empty, hnil] at hleft
        cases hleft
  | error e =>
      obtain ⟨p, rest, hq⟩ := List.exists_cons_of_ne_nil h
      have hrest : Ensures FrontFree (fun _ => True) (s.dodequeue now) := by
        rw [dodequeue, DroppingPacketQueue.popFront, CountedQueue.pop_cons hq, ok_bind]
        refine Ensures.bind (P := fun _ => True) trivial fun _ _ => ?_
        refine (assertGood_frontFree _).bind fun _ _ => ?_
        split
        · trivial
        · refine (sizeBytes_frontFree _).bind fun _ _ => ?_
          repeat' split
          all_goals trivial
      exact hrest.of_error hd

theorem droppingLoop_frontFree (h : s.dropping = true → s.internalQueue ≠ []) :
    Ensures FrontFree (fun _ => True) ((droppingLoop now).run s) := by
  refine Loop.ensures_run (P := fun s => s.dropping = true → s.internalQueue ≠ [])
    (fun s _ hs => ?_) h
  show Ensures _ _ (dropStep now s)
  unfold dropStep
  split
  next hdue =>
    refine (dodequeue_frontFree (hs hdue.2) now).bind fun r hleft => ?_
    obtain ⟨_, okToDrop, s₁⟩ := r
    cases okToDrop with
    | true => exact fun _ => hleft rfl
    | false => exact fun hdropping => by cases hdropping
  · trivial

/-- **`dequeue` never takes from an empty queue, and it ends**: its loop comes to a state where it
does not go on, and that is how `drop` ends. -/
theorem dequeue_never_empty (s : CODELPacketQueue) (h : s.internalQueue ≠ []) (now : Nat) :
    s.dequeue now ≠ .error .emptyQueue ∧
    ∀ p okToDrop s₁, s.dodequeue now = .ok (p, okToDrop, s₁) → s₁.dropping = true →
      (droppingLoop now).Ends { s₁ with dropping := okToDrop } ∧
      s₁.drop now okToDrop = (droppingLoop now).run { s₁ with dropping := okToDrop } := by
  have hdrop : ∀ {okToDrop : Bool} {s₁ : CODELPacketQueue},
      s₁.dropping = true → s₁.drop now okToDrop =
        (droppingLoop now).run { s₁ with dropping := okToDrop } := by
    intro okToDrop s₁ hdropping
    rw [drop, if_pos hdropping]
    exact dropLoop_eq_run (s := { s₁ with dropping := okToDrop }) (Nat.lt_succ_self _)
  refine ⟨fun he => ?_, fun p okToDrop s₁ _ hdropping => ⟨Loop.ends _ _, hdrop hdropping⟩⟩
  have hsafe : Ensures FrontFree (fun _ => True) (s.dequeue now) := by
    refine (dodequeue_frontFree h now).bind fun r hleft => ?_
    obtain ⟨p, okToDrop, s₁⟩ := r
    refine Ensures.bind (P := fun _ => True) ?_ fun s₂ _ =>
      (logPacket_frontFree p s₂).bind fun _ _ => trivial
    cases hdropping : s₁.dropping with
    | true =>
        rw [hdrop hdropping]
        exact droppingLoop_frontFree hleft
    | false =>
        rw [drop, if_neg (by rw [hdropping]; decide)]
        split
        next hok => exact (dodequeue_frontFree (hleft hok) now).bind fun _ _ => trivial
        · trivial
  exact hsafe.of_error he rfl

/-- Six packets are queued, and the queue has been dropping since 120. -/
def sixDropping : CODELPacketQueue :=
  { hundredMs.make with
    queueSizeInBytes := 6000
    queueSizeInPackets := 6
    internalQueue := List.replicate 6 thousandBytes
    firstAboveTime := 110
    dropNext := 220
    count := 1
    lastcount := 1
    dropping := true }

/-- At 330 two drops are due: the loop takes two packets beside the one taken first. -/
theorem dequeue_never_empty_dropping : sixDropping.dequeue 330 ≠ .error .emptyQueue ∧
    (sixDropping.dequeue 330).map (fun r => r.2.internalQueue.length) = .ok 3 ∧
    ∃ p okToDrop s₁, sixDropping.dodequeue 330 = .ok (p, okToDrop, s₁) ∧
      s₁.internalQueue.length = 5 ∧ (droppingLoop 330).Ends { s₁ with dropping := okToDrop } := by
  obtain ⟨⟨p, okToDrop, s₁⟩, hd, hs₁⟩ := of_map_ok (x := sixDropping.dodequeue 330)
    (f := fun r => (r.2.2.internalQueue.length, r.2.2.dropping)) (b := (5, true)) (by decide +kernel)
  obtain ⟨hlength, hdropping⟩ := Prod.mk.inj hs₁
  obtain ⟨hnever, hends⟩ := dequeue_never_empty sixDropping (by decide) 330
  exact ⟨hnever, by decide +kernel, p, okToDrop, s₁, hd, hlength,
    (hends p okToDrop s₁ hd hdropping).1⟩

/-! ### The packet that is returned -/

/-- `dequeue`, with the call of `dodequeue` whose packet it returns, and the calls of which it keeps
no packet. -/
def dequeueServing (now : Nat) (s : CODELPacketQueue) :
    Except Fault (Dodequeue × List Dodequeue × CODELPacketQueue) := do
  let (packet, okToDrop, s₁) ← s.dodequeue now
  let s₂ ← s₁.drop now okToDrop
  s₂.logPacket packet
  return ({ now, packet, left := s₁.internalQueue, okToDrop }, s₁.dropCalls now okToDrop, s₂)

theorem dequeue_serving (now : Nat) (s : CODELPacketQueue) :
    s.dequeue now = (s.dequeueServing now).map fun r => (r.1.packet, r.2.2) := by
  rw [dequeue, dequeueServing, map_bind]
  refine bind_congr_ok fun _ _ => ?_
  rw [map_bind]
  refine bind_congr_ok fun s₂ _ => ?_
  rw [map_bind]
  exact bind_congr_ok fun _ _ => rfl

/-- The call whose packet is returned is the first of all that are made. -/
theorem dequeueCalls_serving {served : Dodequeue} {lost : List Dodequeue}
    (h : s.dequeueServing now = .ok (served, lost, s')) : s.dequeueCalls now = served :: lost := by
  obtain ⟨⟨p, okToDrop, s₁⟩, hd, h⟩ := bind_ok.mp h
  obtain ⟨s₂, -, h⟩ := bind_ok.mp h
  obtain ⟨-, -, h⟩ := bind_ok.mp h
  cases h
  rw [dequeueCalls, hd]

/-- Every call takes a packet of what the one before has left. -/
theorem dropLoopCalls_left {fuel : Nat} : ∀ {s : CODELPacketQueue},
    ∀ c ∈ dropLoopCalls now fuel s, c.left.length < s.internalQueue.length := by
  induction fuel with
  | zero => intro s c hc; cases hc
  | succ fuel ih =>
      intro s c hc
      rw [dropLoopCalls] at hc
      split at hc
      · cases hd : s.dodequeue now with
        | error e => rw [hd] at hc; cases hc
        | ok r =>
            obtain ⟨p, okToDrop, s₁⟩ := r
            rw [hd] at hc
            have hlist := congrArg List.length (dodequeue_list hd)
            rw [List.length_cons] at hlist
            rcases List.mem_cons.mp hc with rfl | hc
            · dsimp only
              omega
            · have hlt : c.left.length < s₁.internalQueue.length := by
                cases okToDrop with
                | true =>
                    have hrest := ih c hc
                    exact hrest
                | false =>
                    have hrest := ih c hc
                    exact hrest
              omega
      · cases hc

theorem dropCalls_left {okToDrop : Bool} : ∀ c ∈ s.dropCalls now okToDrop,
    c.left.length < s.internalQueue.length := by
  intro c hc
  rw [dropCalls] at hc
  split at hc
  · have hloop := dropLoopCalls_left c hc
    exact hloop
  · split at hc
    · cases hd : s.dodequeue now with
      | error e => rw [hd] at hc; cases hc
      | ok r =>
          obtain ⟨p, ok, s₁⟩ := r
          rw [hd] at hc
          rw [List.mem_singleton.mp hc, dodequeue_list hd]
          exact Nat.lt_succ_self _
    · cases hc

/-- No packet is lost when the first one may not be dropped, or no drop is due. -/
theorem dropCalls_eq_nil_iff {okToDrop : Bool} (h : s.drop now okToDrop = .ok s') :
    s.dropCalls now okToDrop = [] ↔
      ¬ (okToDrop = true ∧ (s.dropping = true → s.dropNext ≤ now)) := by
  rw [drop] at h
  rw [dropCalls]
  split at h
  next hdropping =>
    rw [if_pos hdropping, dropLoopCalls]
    rw [dropLoop] at h
    split at h
    next hdue =>
      obtain ⟨r, hd, -⟩ := bind_ok.mp h
      rw [if_pos hdue, hd]
      simp only [reduceCtorEq, false_iff, not_not]
      exact ⟨hdue.2, fun _ => hdue.1⟩
    next hdue =>
      rw [if_neg hdue]
      exact iff_of_true rfl fun hall => hdue ⟨hall.2 hdropping, hall.1⟩
  next hdropping =>
    rw [if_neg hdropping]
    split at h
    next hok =>
      obtain ⟨r, hd, -⟩ := bind_ok.mp h
      rw [if_pos hok, hd]
      simp only [reduceCtorEq, false_iff, not_not]
      exact ⟨hok, fun hno => absurd hno hdropping⟩
    next hok =>
      rw [if_neg hok]
      exact iff_of_true rfl fun hall => hok hall.1

/-- The packet at the head may be dropped, and a drop is due: the class is not dropping yet, or
`drop_next_` is past. -/
def TakesMore (now : Nat) (s : CODELPacketQueue) : Prop :=
  ∃ p rest, s.internalQueue = p :: rest ∧ rest ≠ [] ∧ s.target ≤ toU64 (now - p.arrivalTime) ∧
    PACKET_SIZE < toU32 (totalBytes rest) ∧ s.firstAboveTime ≠ 0 ∧ s.firstAboveTime ≤ now ∧
    (s.dropping = true → s.dropNext ≤ now)

theorem lost_eq_nil_iff (hc : s.Counted) {served : Dodequeue} {lost : List Dodequeue}
    (h : s.dequeueServing now = .ok (served, lost, s')) : lost = [] ↔ ¬ s.TakesMore now := by
  obtain ⟨⟨p, okToDrop, s₁⟩, hd, h⟩ := bind_ok.mp h
  obtain ⟨s₂, hdrop, h⟩ := bind_ok.mp h
  obtain ⟨-, -, h⟩ := bind_ok.mp h
  cases h
  obtain ⟨c, firstAboveTime, hpop, hs₁, -⟩ := dodequeue_cases hd
  have hlist := dodequeue_list hd
  have hc₁ : s₁.Counted := hs₁ ▸ (CountedQueue.pop_ok hpop).2 hc
  have hdropping : s₁.dropping = s.dropping := by rw [hs₁]
  have hdropNext : s₁.dropNext = s.dropNext := by rw [hs₁]
  rw [dropCalls_eq_nil_iff hdrop, dodequeue_okToDrop_iff hc₁ hd, hdropping, hdropNext]
  refine not_congr ⟨fun ⟨⟨h₁, h₂, h₃, h₄, h₅⟩, h₆⟩ => ⟨p, _, hlist, h₁, h₂, h₃, h₄, h₅, h₆⟩, ?_⟩
  rintro ⟨p', rest, hq, h₁, h₂, h₃, h₄, h₅, h₆⟩
  obtain ⟨rfl, rfl⟩ := List.cons.inj (hlist.symm.trans hq)
  exact ⟨⟨h₁, h₂, h₃, h₄, h₅⟩, h₆⟩

/-- **When `dequeue` returns the packet of its last `dodequeue`**, and loses only packets that may be
dropped: when it calls `dodequeue` once. -/
theorem served_last_iff {a : CodelArgs} {calls : List Discipline.Call} {t : Discipline.Trace}
    (hrun : run Discipline.Call.step calls ({}, (QueueArgs.codel a).make) = .ok (t, .codel s))
    {served : Dodequeue} {lost : List Dodequeue}
    (h : s.dequeueServing now = .ok (served, lost, s')) :
    ((s.dequeueCalls now).getLast? = some served ∧ ∀ c ∈ lost, c.okToDrop = true) ↔
      ¬ s.TakesMore now := by
  rw [← lost_eq_nil_iff (Discipline.run_conserved hrun).counted h, dequeueCalls_serving h]
  constructor
  · rintro ⟨hlast, -⟩
    by_contra hne
    have hmem : served ∈ lost := by
      rw [List.getLast?_cons_of_ne_nil hne] at hlast
      exact List.mem_of_getLast? hlast
    -- the call whose packet is returned has left more than any behind it
    obtain ⟨⟨p, okToDrop, s₁⟩, -, h⟩ := bind_ok.mp h
    obtain ⟨s₂, -, h⟩ := bind_ok.mp h
    obtain ⟨-, -, h⟩ := bind_ok.mp h
    cases h
    exact absurd (dropCalls_left _ hmem) (Nat.lt_irrefl _)
  · rintro rfl
    exact ⟨rfl, fun c hc => by cases hc⟩

/-- A packet of a thousand bytes, all of them `b`. -/
def thousandOf (b : UInt8) : QueuedPacket := { arrivalTime := 0, contents := List.replicate 1000 b }

/-- Four packets, of which one is taken at 10. -/
def fourPackets : List Discipline.Call :=
  [1, 2, 3, 4].map (fun b => .enqueue 0 0 (thousandOf b).contents) ++ [.dequeue fun _ => 10]

/-- The CoDel queue that a run has come to. -/
def codelOf : Discipline → Option CODELPacketQueue
  | .codel s => some s
  | _ => none

set_option synthInstance.maxSize 512 in
theorem run_fourPackets : ∃ t s,
    run Discipline.Call.step fourPackets ({}, (QueueArgs.codel hundredMs).make) =
      .ok (t, .codel s) ∧
    s.dequeueCalls 120 = [⟨120, thousandOf 2, [thousandOf 3, thousandOf 4], true⟩,
      ⟨120, thousandOf 3, [thousandOf 4], false⟩] ∧
    (s.dequeue 120).toOption.map (fun r => (r.1, r.2.internalQueue)) =
      some (thousandOf 2, [thousandOf 4]) ∧
    (s.dequeueServing 100).toOption.isSome = true := by
  obtain ⟨⟨t, q⟩, hrun, hq⟩ := of_map_ok
    (x := run Discipline.Call.step fourPackets ({}, (QueueArgs.codel hundredMs).make))
    (f := fun x => (codelOf x.2).map fun s => (s.dequeueCalls 120,
      (s.dequeue 120).toOption.map (fun r => (r.1, r.2.internalQueue)),
      (s.dequeueServing 100).toOption.isSome))
    (b := some ([⟨120, thousandOf 2, [thousandOf 3, thousandOf 4], true⟩,
      ⟨120, thousandOf 3, [thousandOf 4], false⟩], some (thousandOf 2, [thousandOf 4]),
      true)) (by decide +kernel)
  obtain ⟨s, hs, hfacts⟩ := Option.map_eq_some_iff.mp hq
  simp only [Prod.mk.injEq] at hfacts
  cases q with
  | codel s =>
      cases hs
      exact ⟨t, s, hrun, hfacts⟩
  | _ => cases hs

/-- At 120, the packet taken last may not be dropped, and it is lost: the one taken first is
returned. -/
theorem last_taken_lost : ∃ t s,
    run Discipline.Call.step fourPackets ({}, (QueueArgs.codel hundredMs).make) =
      .ok (t, .codel s) ∧
    s.dequeueCalls 120 = [⟨120, thousandOf 2, [thousandOf 3, thousandOf 4], true⟩,
      ⟨120, thousandOf 3, [thousandOf 4], false⟩] ∧
    (s.dequeue 120).toOption.map (fun r => (r.1, r.2.internalQueue)) =
      some (thousandOf 2, [thousandOf 4]) := by
  obtain ⟨t, s, hrun, hcalls, hdequeue, -⟩ := run_fourPackets
  exact ⟨t, s, hrun, hcalls, hdequeue⟩

/-- At 100, no drop is allowed. -/
theorem served_last_iff_fourPackets : ∃ s served lost s',
    dequeueServing 100 s = .ok (served, lost, s') ∧
    (((s.dequeueCalls 100).getLast? = some served ∧ ∀ c ∈ lost, c.okToDrop = true) ↔
      ¬ s.TakesMore 100) := by
  obtain ⟨t, s, hrun, -, -, hserving⟩ := run_fourPackets
  cases h : s.dequeueServing 100 with
  | error e =>
      rw [h] at hserving
      cases hserving
  | ok r =>
      obtain ⟨served, lost, s'⟩ := r
      exact ⟨s, served, lost, s', h, served_last_iff hrun h⟩

end CODELPacketQueue

end Mahimahi
