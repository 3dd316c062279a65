import Mahimahi.Library.Windows
import Mahimahi.Link.Runs

/-!
# Link — the window of the rate estimate

`dequeue_trace_` is to hold the departures of the last 50 ms since the packet queue was last found
empty, and at least the last four of them.  `LinkEvent`s are the two things that change it, in the
order in which a run meets them; a departure comes with the trace as it leaves it.

`t - 50` is unsigned, and below 50 ms every entry counts as old.

* `follows_run`: a run changes the trace only by its departures, which do not go back in time, and
  by finding the packet queue empty.
* `windows_right_iff`: the traces of a run are right exactly when no packet departs before 50 ms
  as the fifth or later since the packet queue was found empty.
-/

open Fallible MachineInt Catchup Windows

namespace Mahimahi

inductive LinkEvent where
  /-- a packet departed, and left the trace like this -/
  | departure (time size : Nat) (trace : List (Nat × Int))
  | foundEmpty
  deriving DecidableEq, Repr

/-- The departures since the packet queue was last found empty, after `d` such departures. -/
def sinceEmpty (d : List (Nat × Int)) : List LinkEvent → List (Nat × Int)
  | [] => d
  | .departure time size _ :: es => sinceEmpty (d ++ [(time, (size : Int))]) es
  | .foundEmpty :: es => sinceEmpty [] es

/-- Older than 50 ms at time `t`, as integers. -/
def olderThan50 (t : Nat) (entry : Nat × Int) : Bool := entry.1 + 50 < t

/-- What the trace is to hold after a departure at `t`, the last of `d`. -/
def window (t : Nat) (d : List (Nat × Int)) : List (Nat × Int) := recent (olderThan50 t) 4 d

namespace LinkQueue

open AbstractPacketQueue

variable {sched : Schedule} {Q : Type} [AbstractPacketQueue Q]

/-! ### The events of a run -/

/-- The events of `serve`. -/
def serveEvents (now deliveryTime : Nat) : Nat → Nat → LinkQueue sched Q → List LinkEvent
  | 0, _, _ => []
  | fuel + 1, bytesLeft, s =>
      if bytesLeft = 0 then []
      else if s.packetInTransitBytesLeft = 0 ∧ empty s.packetQueue then [.foundEmpty]
      else match s.sendSome now deliveryTime bytesLeft with
        | .error _ => []
        | .ok (amountToSend, s) =>
            let rest := serveEvents now deliveryTime fuel (bytesLeft - amountToSend) s
            if s.packetInTransitBytesLeft = 0
            then .departure deliveryTime s.packetInTransit.size s.dequeueTrace :: rest else rest

def rationalizeEvents (now : Nat) : Nat → LinkQueue sched Q → List LinkEvent
  | 0, _ => []
  | fuel + 1, s =>
      match s.nextDeliveryTime with
      | some t =>
          if t ≤ now then
            serveEvents now t PACKET_SIZE PACKET_SIZE s.useADeliveryOpportunity ++
              match s.burn now t with
              | .ok s => rationalizeEvents now fuel s
              | .error _ => []
          else []
      | none => []

def Call.events : Call → LinkQueue sched Q → List LinkEvent
  | .readPacket now contents, s =>
      if PACKET_SIZE < contents.length then [] else rationalizeEvents now (sched.passes now) s
  | .waitTime now, s => rationalizeEvents now (sched.passes now) s
  | .writePackets, _ => []

/-- The events of a run, up to its end or its fault. -/
def runEvents : List Call → LinkQueue sched Q → List LinkEvent
  | [], _ => []
  | c :: calls, s =>
      c.events s ++ match c.step s with
        | .ok s => runEvents calls s
        | .error _ => []

/-! ### What the events do to the trace -/

/-- The events take the trace and the time of the last departure from `x` to `y`. -/
inductive Follows : List (Nat × Int) × Nat → List LinkEvent → List (Nat × Int) × Nat → Prop where
  | nil (x : List (Nat × Int) × Nat) : Follows x [] x
  | foundEmpty {trace : List (Nat × Int)} {last : Nat} {es : List LinkEvent}
      {y : List (Nat × Int) × Nat} (h : Follows ([], last) es y) :
      Follows (trace, last) (.foundEmpty :: es) y
  | departure {trace trace' : List (Nat × Int)} {last t size : Nat} {es : List LinkEvent}
      {y : List (Nat × Int) × Nat} (hlast : last ≤ t) (ht : t < 2 ^ 64)
      (htrace : trace' = popOld t (trace ++ [(t, (size : Int))]))
      (h : Follows (trace', t) es y) :
      Follows (trace, last) (.departure t size trace' :: es) y

theorem Follows.append {x y z : List (Nat × Int) × Nat} {es es' : List LinkEvent}
    (h : Follows x es y) (h' : Follows y es' z) : Follows x (es ++ es') z := by
  induction h with
  | nil => exact h'
  | foundEmpty _ ih => exact .foundEmpty (ih h')
  | departure hlast ht htrace _ ih => exact .departure hlast ht htrace (ih h')

theorem recordDeparture_ok {t : Nat} {p : QueuedPacket} {s s' : LinkQueue sched Q}
    (h : s.recordDeparture t p = .ok s') : ∃ log, s' = { s with log } :=
  (recordDeparture_ensures (E := fun _ => True) (R := fun s' => ∃ log, s' = { s with log })
    (fun _ _ _ => trivial) fun log => ⟨log, rfl⟩).of_ok h

/-- An iteration that does not depart leaves the trace alone. -/
theorem sendSome_trace {now t bytesLeft amount : Nat} {s s' : LinkQueue sched Q}
    (h : s.sendSome now t bytesLeft = .ok (amount, s')) :
    s'.dequeueTrace = if s'.packetInTransitBytesLeft = 0
      then popOld t (s.dequeueTrace ++ [(t, (s'.packetInTransit.size : Int))])
      else s.dequeueTrace := by
  obtain ⟨s₁, hload, h⟩ := bind_ok.mp h
  obtain ⟨-, -, h⟩ := bind_ok.mp h
  have htrace : s₁.dequeueTrace = s.dequeueTrace := by
    rcases load_ok hload with ⟨-, p, q, -, rfl⟩ | ⟨-, rfl⟩ <;> rfl
  dsimp only at h
  split at h
  · rename_i hzero
    obtain ⟨s₂, hdepart, h⟩ := bind_ok.mp h
    cases h
    obtain ⟨s₃, hrec, hdepart⟩ := bind_ok.mp hdepart
    cases hdepart
    obtain ⟨log, rfl⟩ := recordDeparture_ok hrec
    rw [← htrace]
    simp only [measureRate, hzero, if_true]
    rfl
  · rename_i hpos
    cases h
    rw [if_neg hpos]
    exact htrace

theorem follows_serve (now : Nat) {t : Nat} (ht : t < 2 ^ 64) (fuel : Nat) :
    ∀ (bytesLeft sent : Nat) {last : Nat} {s : LinkQueue sched Q}, last ≤ t →
      ∃ y, Follows (s.dequeueTrace, last) (serveEvents now t fuel bytesLeft s) y ∧ y.2 ≤ t ∧
        ∀ r, serve now t fuel bytesLeft sent s = .ok r → r.2.dequeueTrace = y.1 := by
  induction fuel with
  | zero =>
      intro bytesLeft sent last s hlast
      exact ⟨_, .nil _, hlast, fun r hr => by cases hr; rfl⟩
  | succ fuel ih =>
      intro bytesLeft sent last s hlast
      rw [serveEvents, serve]
      split
      · exact ⟨_, .nil _, hlast, fun r hr => by cases hr; rfl⟩
      · split
        · exact ⟨_, .foundEmpty (.nil _), hlast, fun r hr => by cases hr; rfl⟩
        · cases hsend : s.sendSome now t bytesLeft with
          | error e => exact ⟨_, .nil _, hlast, fun r hr => by cases hr⟩
          | ok r =>
              obtain ⟨amount, s'⟩ := r
              have htrace := sendSome_trace hsend
              dsimp only
              split
              · rename_i hzero
                rw [if_pos hzero] at htrace
                obtain ⟨y, hy, hle, hret⟩ := ih (bytesLeft - amount) (sent + amount)
                  (s := s') le_rfl
                exact ⟨y, .departure hlast ht htrace hy, hle, hret⟩
              · rename_i hpos
                rw [if_neg hpos] at htrace
                obtain ⟨y, hy, hle, hret⟩ := ih (bytesLeft - amount) (sent + amount)
                  (s := s') hlast
                exact ⟨y, htrace ▸ hy, hle, hret⟩

/-- No opportunity that is left comes before `last`. -/
def NotBefore (last : Nat) (s : LinkQueue sched Q) : Prop :=
  ∀ t, s.nextDeliveryTime = some t → last ≤ t

theorem follows_rationalize {now : Nat} (hnow : now < 2 ^ 64) (fuel : Nat) :
    ∀ {last : Nat} {s : LinkQueue sched Q}, OnSchedule s → s.NotBefore last →
      ∃ y, Follows (s.dequeueTrace, last) (rationalizeEvents now fuel s) y ∧
        ∀ s', rationalizeLoop now fuel s = .ok s' →
          OnSchedule s' ∧ s'.NotBefore y.2 ∧ s'.dequeueTrace = y.1 := by
  induction fuel with
  | zero =>
      intro last s hs hlast
      exact ⟨_, .nil _, fun s' hs' => by cases hs'; exact ⟨hs, hlast, rfl⟩⟩
  | succ fuel ih =>
      intro last s hs hlast
      rw [rationalizeEvents, rationalizeLoop]
      cases hnext : s.nextDeliveryTime with
      | none => exact ⟨_, .nil _, fun s' hs' => by cases hs'; exact ⟨hs, hlast, rfl⟩⟩
      | some t =>
          dsimp only
          by_cases hdue : t ≤ now
          · rw [if_pos hdue, if_pos hdue]
            obtain ⟨_, _, _, _, hframe⟩ := useADeliveryOpportunity_frame s
            have hsame : s.useADeliveryOpportunity.dequeueTrace = s.dequeueTrace := by rw [hframe]
            obtain ⟨y, hy, hle, hret⟩ := follows_serve now (by omega : t < 2 ^ 64) PACKET_SIZE
              PACKET_SIZE 0 (s := s.useADeliveryOpportunity) (hlast t hnext)
            rw [hsame] at hy
            cases hburn : s.burn now t with
            | error e => exact ⟨y, by simpa using hy, fun s' hs' => by cases hs'⟩
            | ok s₁ =>
                have hadv := (burn_advanced now hs hnext).of_ok hburn
                obtain ⟨r, hserve, hburn⟩ := bind_ok.mp hburn
                have htrace : s₁.dequeueTrace = y.1 := by rw [← hret r hserve]; cases hburn; rfl
                have hbefore : s₁.NotBefore y.2 := fun t' ht' => by
                  by_contra hlt
                  exact lt_irrefl t' (hadv.early hs hnext (by omega) t' ht')
                obtain ⟨z, hz, hend⟩ := ih hadv.onSchedule hbefore
                rw [htrace] at hz
                exact ⟨z, hy.append hz, hend⟩
          · rw [if_neg hdue, if_neg hdue]
            exact ⟨_, .nil _, fun s' hs' => by cases hs'; exact ⟨hs, hlast, rfl⟩⟩

/-- One call. -/
theorem follows_call {c : Call} (hclock : ∀ now, c.clock? = some now → now < 2 ^ 64) {last : Nat}
    {s : LinkQueue sched Q} (hs : OnSchedule s) (hlast : s.NotBefore last) :
    ∃ y, Follows (s.dequeueTrace, last) (c.events s) y ∧
      ∀ s', c.step s = .ok s' → OnSchedule s' ∧ s'.NotBefore y.2 ∧ s'.dequeueTrace = y.1 := by
  cases c with
  | readPacket now contents =>
      rw [Call.events, Call.step, readPacket]
      split
      · exact ⟨_, .nil _, fun s' hs' => by cases hs'⟩
      · obtain ⟨y, hy, hret⟩ := follows_rationalize (hclock now rfl) (sched.passes now)
          hs hlast
        refine ⟨y, hy, fun s' hs' => ?_⟩
        obtain ⟨s₁, hrat, henq⟩ := bind_ok.mp hs'
        obtain ⟨hs₁, hbefore, htrace⟩ := hret s₁ hrat
        obtain ⟨q, log, -, rfl⟩ := enqueuePacket_ok henq
        exact ⟨⟨hs₁.1, hs₁.2, hs₁.3, hs₁.4⟩, hbefore, htrace⟩
  | waitTime now =>
      obtain ⟨y, hy, hret⟩ := follows_rationalize (hclock now rfl) (sched.passes now)
        hs hlast
      refine ⟨y, hy, fun s' hs' => ?_⟩
      obtain ⟨r, hwait, rfl⟩ := of_map_ok hs'
      obtain ⟨s₁, hrat, hwait⟩ := bind_ok.mp hwait
      cases hwait
      exact hret s₁ hrat
  | writePackets =>
      exact ⟨_, .nil _, fun s' hs' => by cases hs'; exact ⟨⟨hs.1, hs.2, hs.3, hs.4⟩, hlast, rfl⟩⟩

/-- **What a run does to the trace.** -/
theorem follows_run {calls : List Call} (hclock : ∀ now ∈ clocks calls, now < 2 ^ 64) :
    ∀ {last : Nat} {s : LinkQueue sched Q}, OnSchedule s → s.NotBefore last →
      ∃ y, Follows (s.dequeueTrace, last) (runEvents calls s) y := by
  induction calls with
  | nil => exact fun _ _ => ⟨_, .nil _⟩
  | cons c calls ih =>
      intro last s hs hlast
      obtain ⟨y, hy, hret⟩ := follows_call (c := c)
        (fun now hc => hclock now (by simp [clocks, hc])) hs hlast
      rw [runEvents]
      cases hstep : c.step s with
      | error e => exact ⟨y, by simpa using hy⟩
      | ok s' =>
          obtain ⟨hs', hlast', htrace⟩ := hret s' hstep
          have hrest : ∀ now ∈ clocks calls, now < 2 ^ 64 := fun now hnow => by
            obtain ⟨c', hc', hc⟩ := List.mem_filterMap.mp hnow
            exact hclock now (List.mem_filterMap.mpr ⟨c', List.mem_cons_of_mem _ hc', hc⟩)
          obtain ⟨z, hz⟩ := ih hrest hs' hlast'
          rw [htrace] at hz
          exact ⟨z, hy.append hz⟩

/-! ### The window -/

theorem popOld_eq_expire (t : Nat) (l : List (Nat × Int)) :
    popOld t l = expire (fun entry => decide (entry.1 < toU64 (t - 50))) 4 l := by
  induction l with
  | nil => rfl
  | cons entry rest ih => simp only [popOld, expire, ih, decide_eq_true_eq]; rfl

theorem popOld_late {t : Nat} (h₅₀ : 50 ≤ t) (ht : t < 2 ^ 64) (l : List (Nat × Int)) :
    popOld t l = expire (olderThan50 t) 4 l := by
  have hold : (fun entry : Nat × Int => decide (entry.1 < toU64 (t - 50))) = olderThan50 t := by
    funext entry
    rw [toU64, Int.emod_eq_of_lt (by omega) (by omega), olderThan50, decide_eq_decide]
    omega
  rw [popOld_eq_expire, hold]

/-- Below 50 ms every entry is popped but four. -/
theorem length_popOld_early {t : Nat} (h₅₀ : t < 50) {l : List (Nat × Int)}
    (hl : ∀ entry ∈ l, entry.1 ≤ t) : (popOld t l).length ≤ 4 := by
  rw [popOld_eq_expire]
  refine length_expire_le fun entry hentry => ?_
  have := hl entry hentry
  rw [decide_eq_true_eq, toU64]
  omega

theorem popOld_short {t : Nat} {l : List (Nat × Int)} (h : l.length ≤ 4) : popOld t l = l := by
  cases l with
  | nil => rfl
  | cons entry rest => rw [popOld, if_neg (by omega)]

/-- Below 50 ms nothing is to go. -/
theorem window_early {t : Nat} (h₅₀ : t < 50) (d : List (Nat × Int)) : window t d = d := by
  have hyoung : d.filter (!olderThan50 t ·) = d := List.filter_eq_self.mpr fun entry _ => by
    rw [Bool.not_eq_true', olderThan50, decide_eq_false_iff_not]
    omega
  rw [window, recent, hyoung]
  split
  · rw [Nat.sub_eq_zero_of_le (by omega), List.drop_zero]
  · rfl

/-- What is to go at `last` is to go at `t`. -/
theorem excess_mono {last t : Nat} (hlast : last ≤ t) (d : List (Nat × Int)) (entry : Nat × Int) :
    excess (olderThan50 last) 4 d ≤ excess (olderThan50 t) 4 (d ++ [entry]) := by
  have hmono : d.countP (olderThan50 last) ≤ d.countP (olderThan50 t) :=
    List.countP_mono_left fun a _ ha => by
      simp only [olderThan50, decide_eq_true_eq] at ha ⊢
      omega
  unfold excess
  rw [List.countP_append, List.length_append]
  omega

/-- Entries of nondecreasing times, none after `last`. -/
structure Dated (last : Nat) (d : List (Nat × Int)) : Prop where
  sorted : d.Pairwise fun a b => a.1 ≤ b.1
  le_last : ∀ entry ∈ d, entry.1 ≤ last

theorem Dated.concat {last t : Nat} {d : List (Nat × Int)} (h : Dated last d) (hlast : last ≤ t)
    (size : Int) : Dated t (d ++ [(t, size)]) where
  sorted := List.pairwise_append.mpr ⟨h.sorted, by simp, fun a ha b hb => by
    obtain rfl := List.mem_singleton.mp hb
    exact (h.le_last a ha).trans hlast⟩
  le_last := List.forall_mem_append.mpr
    ⟨fun a ha => (h.le_last a ha).trans hlast, List.forall_mem_singleton.mpr le_rfl⟩

theorem Dated.aging {last : Nat} {d : List (Nat × Int)} (h : Dated last d) (t : Nat) :
    Aging (olderThan50 t) d :=
  h.sorted.imp fun hab hb => by
    simp only [olderThan50, decide_eq_true_eq] at hb ⊢
    omega

/-- The trace is what is left of the departures `d` after no more was dropped than is to go. -/
def Keeps (last : Nat) (d trace : List (Nat × Int)) : Prop :=
  Dated last d ∧ ∃ j ≤ excess (olderThan50 last) 4 d, trace = d.drop j

/-- **One departure.**  The trace is right after it, unless it is the fifth or later before 50 ms. -/
theorem Keeps.departure {last t : Nat} {d trace : List (Nat × Int)} (h : Keeps last d trace)
    (hlast : last ≤ t) (ht : t < 2 ^ 64) (size : Int) :
    (popOld t (trace ++ [(t, size)]) = window t (d ++ [(t, size)]) ↔ 50 ≤ t ∨ d.length < 4) ∧
    (50 ≤ t ∨ d.length < 4 →
      Keeps t (d ++ [(t, size)]) (popOld t (trace ++ [(t, size)]))) := by
  obtain ⟨htimely, j, hj, rfl⟩ := h
  have htimely' := htimely.concat hlast size
  have hjd : j ≤ d.length := by unfold excess at hj; omega
  have hsplit : d.drop j ++ [(t, size)] = (d ++ [(t, size)]).drop j := by
    rw [List.drop_append_of_le_length hjd]
  have hj' := Nat.le_trans hj (excess_mono hlast d (t, size))
  have hwindow : window t (d ++ [(t, size)]) =
      (d ++ [(t, size)]).drop (excess (olderThan50 t) 4 (d ++ [(t, size)])) :=
    (htimely'.aging t).recent_eq_drop
  have hright : 50 ≤ t ∨ d.length < 4 →
      popOld t (d.drop j ++ [(t, size)]) = window t (d ++ [(t, size)]) := by
    rintro (hlate | hshort)
    · rw [hsplit, popOld_late hlate ht, expire_drop (htimely'.aging t) hj']
      rfl
    · have hzero : excess (olderThan50 t) 4 (d ++ [(t, size)]) = 0 := by
        simp only [excess, List.length_append, List.length_singleton]
        omega
      obtain rfl : j = 0 := by omega
      rw [hwindow, hzero, hsplit, List.drop_zero]
      exact popOld_short (by rw [List.length_append, List.length_singleton]; omega)
  refine ⟨⟨fun heq => ?_, hright⟩, fun hcond => ?_⟩
  · by_contra hwrong
    obtain ⟨hearly, hlong⟩ := not_or.mp hwrong
    have hfew : (popOld t (d.drop j ++ [(t, size)])).length ≤ 4 := by
      rw [hsplit]
      exact length_popOld_early (by omega) fun entry hentry =>
        htimely'.le_last entry (List.mem_of_mem_drop hentry)
    rw [heq, window_early (by omega), List.length_append, List.length_singleton] at hfew
    omega
  · rw [hright hcond]
    exact ⟨htimely', _, le_rfl, hwindow⟩

/-- A departure among the events: the departures since the packet queue was last found empty, then
its time and size, and the trace that it leaves. -/
def Departs (d₀ : List (Nat × Int)) (events : List LinkEvent) (d : List (Nat × Int)) (t size : Nat)
    (trace : List (Nat × Int)) : Prop :=
  ∃ before after, events = before ++ .departure t size trace :: after ∧ d = sinceEmpty d₀ before

theorem not_departs_nil {d₀ d trace : List (Nat × Int)} {t size : Nat} :
    ¬ Departs d₀ [] d t size trace := by
  rintro ⟨before, after, heq, -⟩
  cases before <;> cases heq

theorem departs_foundEmpty {d₀ d trace : List (Nat × Int)} {es : List LinkEvent} {t size : Nat} :
    Departs d₀ (.foundEmpty :: es) d t size trace ↔ Departs [] es d t size trace := by
  constructor
  · rintro ⟨before, after, heq, rfl⟩
    cases before with
    | nil => cases heq
    | cons e before => cases heq; exact ⟨before, after, rfl, rfl⟩
  · rintro ⟨before, after, rfl, rfl⟩
    exact ⟨.foundEmpty :: before, after, rfl, rfl⟩

theorem departs_departure {d₀ d trace trace₀ : List (Nat × Int)} {es : List LinkEvent}
    {t t₀ size size₀ : Nat} :
    Departs d₀ (.departure t₀ size₀ trace₀ :: es) d t size trace ↔
      (d = d₀ ∧ t = t₀ ∧ size = size₀ ∧ trace = trace₀) ∨
        Departs (d₀ ++ [(t₀, (size₀ : Int))]) es d t size trace := by
  constructor
  · rintro ⟨before, after, heq, rfl⟩
    cases before with
    | nil => cases heq; exact .inl ⟨rfl, rfl, rfl, rfl⟩
    | cons e before => cases heq; exact .inr ⟨before, after, rfl, rfl⟩
  · rintro (⟨rfl, rfl, rfl, rfl⟩ | ⟨before, after, rfl, rfl⟩)
    · exact ⟨[], es, rfl, rfl⟩
    · exact ⟨.departure t₀ size₀ trace₀ :: before, after, rfl, rfl⟩

/-- The traces that follow from a kept one are right as long as the condition holds. -/
theorem Follows.windows {x y : List (Nat × Int) × Nat} {es : List LinkEvent} (h : Follows x es y) :
    ∀ {d₀ : List (Nat × Int)}, Keeps x.2 d₀ x.1 →
      ((∀ d t size trace, Departs d₀ es d t size trace →
          trace = window t (d ++ [(t, (size : Int))])) ↔
        ∀ d t size trace, Departs d₀ es d t size trace → 50 ≤ t ∨ d.length < 4) := by
  induction h with
  | nil x =>
      intro d₀ _
      exact ⟨fun _ _ _ _ _ h => absurd h not_departs_nil,
        fun _ _ _ _ _ h => absurd h not_departs_nil⟩
  | foundEmpty h ih =>
      intro d₀ _
      simp only [departs_foundEmpty]
      exact ih ⟨⟨by simp, by simp⟩, 0, Nat.zero_le _, rfl⟩
  | @departure trace trace' last t size es y hlast ht htrace h ih =>
      intro d₀ hkeeps
      obtain ⟨hright, hkeeps'⟩ := hkeeps.departure hlast ht size
      rw [← htrace] at hright hkeeps'
      -- the first departure is right if and only if the condition holds, and then so are the rest
      constructor
      · intro hall
        have hcond := hright.mp
          (hall d₀ t size trace' (departs_departure.mpr (.inl ⟨rfl, rfl, rfl, rfl⟩)))
        intro d t₁ size₁ trace₁ hd
        rcases departs_departure.mp hd with ⟨rfl, rfl, rfl, rfl⟩ | hd
        · exact hcond
        · refine (ih (hkeeps' hcond)).mp (fun d t size trace hd => ?_) _ _ _ _ hd
          exact hall d t size trace (departs_departure.mpr (.inr hd))
      · intro hall
        have hcond := hall d₀ t size trace' (departs_departure.mpr (.inl ⟨rfl, rfl, rfl, rfl⟩))
        intro d t₁ size₁ trace₁ hd
        rcases departs_departure.mp hd with ⟨rfl, rfl, rfl, rfl⟩ | hd
        · exact hright.mpr hcond
        · refine (ih (hkeeps' hcond)).mpr (fun d t size trace hd => ?_) _ _ _ _ hd
          exact hall d t size trace (departs_departure.mpr (.inr hd))

/-- **When the window is right.** -/
theorem windows_right_iff {calls : List Call} (hclock : ∀ now ∈ clocks calls, now < 2 ^ 64)
    (repeats logging : Bool) (q : Q) :
    (∀ d t size trace,
      Departs [] (runEvents calls (ofArgs sched repeats logging q)) d t size trace →
        trace = window t (d ++ [(t, (size : Int))])) ↔
    ∀ d t size trace,
      Departs [] (runEvents calls (ofArgs sched repeats logging q)) d t size trace →
        50 ≤ t ∨ d.length < 4 := by
  have hstart : OnSchedule (ofArgs sched repeats logging q) := onSchedule_ofArgs repeats logging q
  have hbefore : (ofArgs sched repeats logging q).NotBefore 0 := fun _ _ => Nat.zero_le _
  obtain ⟨y, hy⟩ := follows_run hclock hstart hbefore
  exact hy.windows ⟨⟨List.Pairwise.nil, by simp⟩, 0, Nat.zero_le _, rfl⟩

/-- One opportunity, at 1 ms. -/
def earlySchedule : Schedule where
  times := [1]
  nonempty := by decide
  sorted := by decide
  last_pos := by decide

/-- `n` packets of one byte arrive before it. -/
def readAll (n : Nat) : List Call := List.replicate n (.readPacket 0 [0]) ++ [.waitTime 1]

/-- The third of three packets finds the first two in the window. -/
theorem windows_right_iff_three : ∃ trace,
    Departs [] (runEvents (readAll 3) (ofArgs earlySchedule false false ({} : InfinitePacketQueue)))
      [(1, 1), (1, 1)] 1 1 trace ∧ trace = window 1 [(1, 1), (1, 1), (1, 1)] := by
  have hevents : runEvents (readAll 3) (ofArgs earlySchedule false false ({} : InfinitePacketQueue)) =
      [.departure 1 1 [(1, 1)], .departure 1 1 [(1, 1), (1, 1)],
       .departure 1 1 [(1, 1), (1, 1), (1, 1)], .foundEmpty] := by decide
  have hclock : ∀ now ∈ clocks (readAll 3), now < 2 ^ 64 := by decide
  have hright := (windows_right_iff hclock false false ({} : InfinitePacketQueue)).mpr fun d t size trace h => by
      rw [hevents] at h
      simp only [departs_departure, departs_foundEmpty, not_departs_nil, or_false] at h
      rcases h with ⟨rfl, -⟩ | ⟨rfl, -⟩ | ⟨rfl, -⟩ <;> exact .inr (by decide)
  have hthird : Departs [] (runEvents (readAll 3)
      (ofArgs earlySchedule false false ({} : InfinitePacketQueue)))
      [(1, 1), (1, 1)] 1 1 [(1, 1), (1, 1), (1, 1)] :=
    ⟨[.departure 1 1 [(1, 1)], .departure 1 1 [(1, 1), (1, 1)]], [.foundEmpty], hevents, by decide⟩
  exact ⟨_, hthird, hright _ _ _ _ hthird⟩

/-- Five packets that depart in the first millisecond: the fifth finds the first gone. -/
theorem window_short : ¬ ∀ (sched : Schedule) (calls : List Call) (repeats logging : Bool)
    (q : InfinitePacketQueue), (∀ now ∈ clocks calls, now < 2 ^ 64) → ∀ d t size trace,
    Departs [] (runEvents calls (ofArgs sched repeats logging q)) d t size trace →
      trace = window t (d ++ [(t, (size : Int))]) := by
  intro hall
  have hfifth := hall earlySchedule (readAll 5) false false {} (by decide)
    [(1, 1), (1, 1), (1, 1), (1, 1)] 1 1 [(1, 1), (1, 1), (1, 1), (1, 1)]
    ⟨[.departure 1 1 [(1, 1)], .departure 1 1 [(1, 1), (1, 1)],
      .departure 1 1 [(1, 1), (1, 1), (1, 1)], .departure 1 1 [(1, 1), (1, 1), (1, 1), (1, 1)]],
      [.foundEmpty], by decide, by decide⟩
  exact absurd hfifth (by decide)

end LinkQueue

end Mahimahi
