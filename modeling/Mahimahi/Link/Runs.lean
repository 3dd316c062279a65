import Mahimahi.Link.Queue

/-!
# Link — what a call does to the link

Rules for proving that a call `Ensures` something, from the innermost block outwards:
`sendSome_ensures` for one iteration, `serve_ensures` for one opportunity, `rationalize_ensures` for
all those that are due.

`OnSchedule` says that the fields `next_delivery_`, `base_timestamp_` and `finished_` together hold
the number of opportunities used, so that `next_delivery_time()` is that opportunity of the schedule
(`OnSchedule.nextDeliveryTime_eq`).  `rationalize now` uses exactly those that are due at `now`.
-/

open Fallible MachineInt Catchup

namespace Mahimahi

namespace LinkQueue

open AbstractPacketQueue

variable {sched : Schedule} {Q : Type}

theorem ensures_ofQueue {α : Type} {E : LinkFault → Prop} {P : α → Prop} {x : Except Fault α} :
    Ensures E P (ofQueue x) ↔ Ensures (fun f => E (.queue f)) P x := by
  cases x <;> rfl

theorem ofQueue_ok {α : Type} {x : Except Fault α} {a : α} (h : ofQueue x = .ok a) : x = .ok a := by
  cases x with
  | error f => cases h
  | ok b => cases h; rfl

/-! ### The schedule -/

/-- Where the link is in its schedule. -/
def position (s : LinkQueue sched Q) : Fin sched.size × Nat × Bool × Bool × List Opportunity :=
  (s.nextDelivery, s.baseTimestamp, s.repeats, s.finished, s.history.opportunities)

/-- The number of opportunities used. -/
def used (s : LinkQueue sched Q) : Nat := s.history.opportunities.length

theorem used_congr {s s' : LinkQueue sched Q} (h : s'.position = s.position) :
    s'.used = s.used := by
  simp only [position, Prod.mk.injEq] at h
  rw [used, used, h.2.2.2.2]

/-- The schedule's fields are those of the number of opportunities used. -/
structure OnSchedule (s : LinkQueue sched Q) : Prop where
  next : s.nextDelivery.val = s.used % sched.size
  base : s.baseTimestamp = if s.repeats then s.used / sched.size * sched.back else 0
  finished : s.finished = (!s.repeats && decide (sched.size ≤ s.used))
  onePass : s.repeats = false → s.used ≤ sched.size

/-- **`next_delivery_time()` is the next opportunity of the schedule.** -/
theorem OnSchedule.nextDeliveryTime_eq {s : LinkQueue sched Q} (h : OnSchedule s) :
    s.nextDeliveryTime = sched.opportunity s.repeats s.used := by
  have hnext : s.nextDelivery = ⟨s.used % sched.size, Nat.mod_lt _ sched.size_pos⟩ :=
    Fin.ext h.next
  unfold nextDeliveryTime Schedule.opportunity
  rw [h.finished, h.base, hnext]
  cases hrep : s.repeats with
  | true => simp
  | false =>
      rcases Nat.lt_or_ge s.used sched.size with hlt | hge
      · simp [hlt, Nat.not_le.mpr hlt, Nat.div_eq_of_lt hlt]
      · simp [hge, Nat.not_lt.mpr hge]

theorem onSchedule_congr {s s' : LinkQueue sched Q} (h : s'.position = s.position)
    (hs : OnSchedule s) : OnSchedule s' := by
  have hused := used_congr h
  simp only [position, Prod.mk.injEq] at h
  obtain ⟨hnext, hbase, hrep, hfin, -⟩ := h
  exact ⟨by rw [hnext, hused, hs.next], by rw [hbase, hused, hrep, hs.base],
    by rw [hfin, hused, hrep, hs.finished], by rw [hrep, hused]; exact hs.onePass⟩

theorem onSchedule_ofArgs (repeats logging : Bool) (q : Q) :
    OnSchedule (ofArgs sched repeats logging q) where
  next := by simp [ofArgs, used]
  base := by simp [ofArgs, used]
  finished := by
    have := sched.size_pos
    simp [ofArgs, used]
    omega
  onePass _ := by simp [ofArgs, used]

/-- Arrived before the next opportunity. -/
def Early (s : LinkQueue sched Q) (a : Nat) : Prop := ∀ t, s.nextDeliveryTime = some t → a < t

/-! ### One opportunity -/

theorem checkInTransit_pos {t : Nat} {s : LinkQueue sched Q} (h : s.checkInTransit t = .ok ()) :
    0 < s.packetInTransitBytesLeft := by
  unfold checkInTransit at h
  repeat' split at h
  all_goals first | omega | cases h

/-- The four assertions hold of a packet in transit that arrived early enough. -/
theorem checkInTransit_ok {t : Nat} {s : LinkQueue sched Q}
    (harr : s.packetInTransit.arrivalTime ≤ t) (hpos : 0 < s.packetInTransitBytesLeft)
    (hsize : s.packetInTransit.size ≤ PACKET_SIZE)
    (hleft : s.packetInTransitBytesLeft ≤ s.packetInTransit.size) : s.checkInTransit t = .ok () := by
  unfold checkInTransit
  rw [if_neg (by omega), if_neg (by omega), if_neg (by omega), if_neg (by omega)]

variable [AbstractPacketQueue Q]

theorem recordDeparture_ensures {E : LinkFault → Prop} {t : Nat} {p : QueuedPacket}
    {s : LinkQueue sched Q} {R : LinkQueue sched Q → Prop}
    (hE : ∀ f, s.log.isSome = true → sizePackets s.packetQueue = .error f → E (.queue f))
    (hR : ∀ log, R { s with log }) : Ensures E R (s.recordDeparture t p) := by
  unfold recordDeparture
  split
  · rename_i hlog
    refine Ensures.bind (P := fun _ => True) (ensures_ofQueue.mpr ?_) fun n _ => hR _
    cases hsize : sizePackets s.packetQueue with
    | error f => exact hE f hlog hsize
    | ok n => trivial
  · exact hR s.log

/-- What `depart` does: the packet in transit is logged, counted and pushed to the output. -/
theorem depart_ensures {E : LinkFault → Prop} {t : Nat} {s : LinkQueue sched Q}
    {R : LinkQueue sched Q → Prop}
    (hE : ∀ f, s.log.isSome = true → sizePackets s.packetQueue = .error f → E (.queue f))
    (hR : ∀ log dequeueRate dequeueTrace, R { s with
      log, dequeueRate, dequeueTrace
      outputQueue := s.outputQueue ++ [s.packetInTransit.contents]
      history := { s.history with
        departed := s.history.departed ++ [(s.packetInTransit.contents, t)] } }) :
    Ensures E R (s.depart t) :=
  Ensures.bind (P := fun s' => ∃ log, s' = { s with log })
    (recordDeparture_ensures hE fun log => ⟨log, rfl⟩)
    (by rintro _ ⟨log, rfl⟩; exact hR _ _ _)

/-- One iteration: load a packet if none is in transit, check it, send what fits. -/
theorem sendSome_ensures {E : LinkFault → Prop} {now t bytesLeft : Nat} {s : LinkQueue sched Q}
    {R : Nat × LinkQueue sched Q → Prop}
    (h : Ensures E (fun s₁ => Ensures E (fun _ =>
        (bytesLeft < s₁.packetInTransitBytesLeft →
          let left := s₁.packetInTransitBytesLeft - bytesLeft
          R (bytesLeft, { s₁ with packetInTransitBytesLeft := left })) ∧
        (s₁.packetInTransitBytesLeft ≤ bytesLeft →
          Ensures E (fun s₂ => R (s₁.packetInTransitBytesLeft, s₂))
            (depart t { s₁ with packetInTransitBytesLeft := 0 })))
      (s₁.checkInTransit t)) (s.load now)) :
    Ensures E R (s.sendSome now t bytesLeft) := by
  refine h.bind fun s₁ hcheck => hcheck.bind fun _ hsend => ?_
  rcases Nat.lt_or_ge bytesLeft s₁.packetInTransitBytesLeft with hlt | hge
  · have hmin : min bytesLeft s₁.packetInTransitBytesLeft = bytesLeft := Nat.min_eq_left hlt.le
    have hleft : s₁.packetInTransitBytesLeft - bytesLeft ≠ 0 := by omega
    simp only [hmin, if_neg hleft]
    exact hsend.1 hlt
  · have hmin : min bytesLeft s₁.packetInTransitBytesLeft = s₁.packetInTransitBytesLeft :=
      Nat.min_eq_right hge
    simp only [hmin, Nat.sub_self, if_true]
    exact (hsend.2 hge).bind fun s₂ hR => hR

/-- An iteration sends at least one byte, so `PACKET_SIZE` iterations are enough. -/
theorem sendSome_amount {now t bytesLeft : Nat} (hpos : 0 < bytesLeft) (s : LinkQueue sched Q) :
    Ensures (fun _ => True) (fun r => 0 < r.1 ∧ r.1 ≤ bytesLeft) (s.sendSome now t bytesLeft) := by
  refine sendSome_ensures (ensures_iff.mpr fun s₁ _ => ensures_iff.mpr fun _ hcheck => ?_)
  exact ⟨fun _ => ⟨hpos, le_rfl⟩,
    fun hle => ensures_iff.mpr fun _ _ => ⟨checkInTransit_pos hcheck, hle⟩⟩

/-- **The loop of one opportunity.**  `P bytesLeft sent` holds at its head. -/
theorem serve_ensures {E : LinkFault → Prop} {now t : Nat}
    {P : Nat → Nat → LinkQueue sched Q → Prop} {R : Nat × LinkQueue sched Q → Prop}
    (hsend : ∀ bytesLeft sent s, 0 < bytesLeft → P bytesLeft sent s →
      ¬ (s.packetInTransitBytesLeft = 0 ∧ empty s.packetQueue) →
      Ensures E (fun r => r.1 ≤ bytesLeft → P (bytesLeft - r.1) (sent + r.1) r.2)
        (s.sendSome now t bytesLeft))
    (hfull : ∀ sent s, P 0 sent s → R (sent, s))
    (hempty : ∀ bytesLeft sent s, 0 < bytesLeft → P bytesLeft sent s →
      s.packetInTransitBytesLeft = 0 → empty s.packetQueue = true → R (sent, s.foundEmpty))
    {fuel : Nat} : ∀ {bytesLeft sent : Nat} {s : LinkQueue sched Q}, bytesLeft ≤ fuel →
      P bytesLeft sent s → Ensures E R (serve now t fuel bytesLeft sent s) := by
  induction fuel with
  | zero =>
      intro bytesLeft sent s hfuel hP
      obtain rfl : bytesLeft = 0 := by omega
      exact hfull sent s hP
  | succ fuel ih =>
      intro bytesLeft sent s hfuel hP
      rw [serve]
      split
      · rename_i hzero
        subst hzero
        exact hfull sent s hP
      · rename_i hpos
        split
        · rename_i hidle
          exact hempty bytesLeft sent s (by omega) hP hidle.1 hidle.2
        · rename_i hbusy
          have hiter := hsend bytesLeft sent s (by omega) hP hbusy
          cases hx : s.sendSome now t bytesLeft with
          | error e => exact hiter.of_error hx
          | ok r =>
              -- at least a byte is sent, so the fuel is enough for what is left
              have hr : 0 < r.1 ∧ r.1 ≤ bytesLeft := (sendSome_amount (by omega) s).of_ok hx
              exact ih (by omega) (hiter.of_ok hx hr.2)

theorem depart_position (t : Nat) (s : LinkQueue sched Q) :
    Ensures (fun _ => True) (fun s' => s'.position = s.position) (s.depart t) :=
  depart_ensures (fun _ _ _ => trivial) fun _ _ _ => rfl

/-- What `load` has done when it returns. -/
theorem load_ok {now : Nat} {s s' : LinkQueue sched Q} (h : s.load now = .ok s') :
    (s.packetInTransitBytesLeft = 0 ∧ ∃ p q, dequeue now s.packetQueue = .ok (p, q) ∧
        s' = { s with
          packetInTransit := p, packetInTransitBytesLeft := p.size, packetQueue := q
          history := { s.history with taken := s.history.taken ++ [p] } }) ∨
      (s.packetInTransitBytesLeft ≠ 0 ∧ s' = s) := by
  unfold load at h
  split at h
  next hidle =>
    obtain ⟨⟨p, q⟩, hq, h⟩ := bind_ok.mp h
    cases h
    exact .inl ⟨hidle, p, q, ofQueue_ok hq, rfl⟩
  next hbusy =>
    cases h
    exact .inr ⟨hbusy, rfl⟩

theorem load_position (now : Nat) (s : LinkQueue sched Q) :
    Ensures (fun _ => True) (fun s' => s'.position = s.position) (s.load now) := by
  unfold load
  split
  · exact Ensures.bind (P := fun _ => True) (ensures_iff.mpr fun _ _ => trivial) fun _ _ => rfl
  · exact rfl

theorem sendSome_position (now t bytesLeft : Nat) (s : LinkQueue sched Q) :
    Ensures (fun _ => True) (fun r => r.2.position = s.position) (s.sendSome now t bytesLeft) := by
  refine sendSome_ensures ((load_position now s).mono fun s₁ hs₁ => ensures_iff.mpr fun _ _ => ?_)
  exact ⟨fun _ => hs₁, fun _ => (depart_position t _).mono fun s₂ hs₂ => hs₂.trans hs₁⟩

theorem serve_position (now t : Nat) {fuel bytesLeft : Nat} (hfuel : bytesLeft ≤ fuel) (sent : Nat)
    (s : LinkQueue sched Q) : Ensures (fun _ => True) (fun r => r.2.position = s.position)
      (serve now t fuel bytesLeft sent s) :=
  serve_ensures (P := fun _ _ s' => s'.position = s.position)
    (fun _ _ _ _ hP _ => (sendSome_position now t _ _).mono fun _ hr _ => hr.trans hP)
    (fun _ _ hP => hP) (fun _ _ _ _ hP _ _ => hP) hfuel rfl

/-! ### The opportunities that are due -/

/-- Using an opportunity only moves the schedule on, logs, and tells the queue the rate. -/
theorem useADeliveryOpportunity_frame (s : LinkQueue sched Q) :
    ∃ nextDelivery baseTimestamp finished log, s.useADeliveryOpportunity = { s with
      nextDelivery, baseTimestamp, finished, log
      packetQueue := setBandwidth s.dequeueRate s.packetQueue } := by
  unfold useADeliveryOpportunity recordDepartureOpportunity writeLog
  dsimp only
  repeat' split
  all_goals exact ⟨_, _, _, _, rfl⟩

omit [AbstractPacketQueue Q] in
theorem used_lt_size {s : LinkQueue sched Q} (h : OnSchedule s) {t : Nat}
    (ht : s.nextDeliveryTime = some t) (hrep : s.repeats = false) : s.used < sched.size := by
  by_contra hge
  rw [h.nextDeliveryTime_eq, Schedule.opportunity, if_neg (by simp [hrep, hge])] at ht
  cases ht

theorem useADeliveryOpportunity_fields {s : LinkQueue sched Q} (h : OnSchedule s) {t : Nat}
    (ht : s.nextDeliveryTime = some t) :
    s.useADeliveryOpportunity.nextDelivery.val = (s.used + 1) % sched.size ∧
    s.useADeliveryOpportunity.baseTimestamp =
      (if s.repeats then (s.used + 1) / sched.size * sched.back else 0) ∧
    s.useADeliveryOpportunity.finished =
      (!s.repeats && decide (sched.size ≤ s.used + 1)) := by
  have hnext : (s.nextDelivery.val + 1) % sched.size = (s.used + 1) % sched.size := by
    rw [h.next, Nat.mod_add_mod]
  simp only [useADeliveryOpportunity, recordDepartureOpportunity, writeLog, hnext]
  by_cases hwrap : (s.used + 1) % sched.size = 0
  · have hdiv := Nat.succ_div_of_mod_eq_zero hwrap
    rw [if_pos hwrap]
    cases hrep : s.repeats with
    | true =>
        -- the next pass starts
        have hbase : s.baseTimestamp + sched.back = (s.used + 1) / sched.size * sched.back := by
          rw [h.base, hrep, if_pos rfl, hdiv, Nat.add_mul, Nat.one_mul]
        have hfinished : s.finished = false := by rw [h.finished, hrep]; rfl
        exact ⟨rfl, hbase, hfinished⟩
    | false =>
        -- the schedule is used up
        have hlast : sched.size ≤ s.used + 1 :=
          Nat.le_of_dvd (Nat.succ_pos _) (Nat.dvd_of_mod_eq_zero hwrap)
        have hbase : s.baseTimestamp = 0 := by rw [h.base, hrep]; rfl
        exact ⟨rfl, hbase, by simp [hlast]⟩
  · have hdiv := Nat.succ_div_of_mod_ne_zero hwrap
    rw [if_neg hwrap]
    refine ⟨rfl, by rw [hdiv]; exact h.base, h.finished.trans ?_⟩
    cases hrep : s.repeats with
    | true => rfl
    | false =>
        have hlt := used_lt_size h ht hrep
        have hne : s.used + 1 ≠ sched.size := fun heq => hwrap (by rw [heq, Nat.mod_self])
        simp only [Bool.not_false, Bool.true_and, decide_eq_decide]
        omega

/-- Using an opportunity moves the fields to the next one. -/
theorem onSchedule_use {s : LinkQueue sched Q} (h : OnSchedule s) {t : Nat}
    (ht : s.nextDeliveryTime = some t) {opportunity : Opportunity} {s' : LinkQueue sched Q}
    (hs' : s'.position = s.useADeliveryOpportunity.position) :
    OnSchedule { s' with history := { s'.history with
      opportunities := s'.history.opportunities ++ [opportunity] } } := by
  obtain ⟨hnext, hbase, hfinished⟩ := useADeliveryOpportunity_fields h ht
  obtain ⟨_, _, _, _, hframe⟩ := useADeliveryOpportunity_frame s
  have hrepeats : s.useADeliveryOpportunity.repeats = s.repeats := by rw [hframe]
  have hused : s.useADeliveryOpportunity.used = s.used := by rw [hframe]; rfl
  have hused' : used { s' with history := { s'.history with
      opportunities := s'.history.opportunities ++ [opportunity] } } = s.used + 1 := by
    rw [← hused, ← used_congr hs']
    simp [used]
  simp only [position, Prod.mk.injEq, hrepeats] at hs'
  obtain ⟨h₁, h₂, h₃, h₄, -⟩ := hs'
  refine ⟨?_, ?_, ?_, fun hr => ?_⟩
  · rw [hused', h₁, hnext]
  · rw [hused', h₂, hbase, h₃]
  · rw [hused', h₄, hfinished, h₃]
  · rw [hused']
    exact used_lt_size h ht (h₃ ▸ hr)

theorem burn_ensures {E : LinkFault → Prop} {now t : Nat} {s : LinkQueue sched Q}
    {R : LinkQueue sched Q → Prop}
    (h : Ensures E (fun r => R { r.2 with history := { r.2.history with
        opportunities := r.2.history.opportunities ++ [⟨t, r.1, empty r.2.packetQueue⟩] } })
      (s.useADeliveryOpportunity.serve now t PACKET_SIZE PACKET_SIZE 0)) :
    Ensures E R (s.burn now t) :=
  h.bind fun _ hR => hR

/-- What an opportunity changes of the schedule. -/
structure Advanced (s s' : LinkQueue sched Q) : Prop where
  onSchedule : OnSchedule s'
  used : s'.used = s.used + 1
  repeats : s'.repeats = s.repeats

theorem burn_advanced (now : Nat) {t : Nat} {s : LinkQueue sched Q} (hs : OnSchedule s)
    (ht : s.nextDeliveryTime = some t) :
    Ensures (fun _ => True) (Advanced s) (s.burn now t) := by
  refine burn_ensures ((serve_position now t le_rfl 0 _).mono fun r hr => ?_)
  obtain ⟨_, _, _, _, hframe⟩ := useADeliveryOpportunity_frame s
  have hrep : s.useADeliveryOpportunity.repeats = s.repeats := by rw [hframe]
  have hhist : s.useADeliveryOpportunity.history = s.history := by rw [hframe]
  have hparts := hr
  simp only [position, Prod.mk.injEq, hrep, hhist] at hparts
  obtain ⟨-, -, hr₃, -, hr₅⟩ := hparts
  exact ⟨onSchedule_use hs ht hr, by simp [used, hr₅], hr₃⟩

omit [AbstractPacketQueue Q] in
/-- The next opportunity is not before this one. -/
theorem Advanced.early {s s' : LinkQueue sched Q} (h : Advanced s s') (hs : OnSchedule s)
    {t a : Nat} (ht : s.nextDeliveryTime = some t) (ha : a < t) : s'.Early a := by
  intro t' ht'
  rw [h.onSchedule.nextDeliveryTime_eq, h.repeats, h.used] at ht'
  obtain ⟨b, hb, hle⟩ := Schedule.opportunity_mono ht'
  cases (hs.nextDeliveryTime_eq.symm.trans ht).symm.trans hb
  exact Nat.lt_of_lt_of_le ha hle

variable (sched) in
/-- The number of opportunities due at `now`. -/
def due (repeats : Bool) (now : Nat) : Nat := (sched.deadlines repeats).upto now

omit [AbstractPacketQueue Q] in
theorem used_lt_due_iff {s : LinkQueue sched Q} (hs : OnSchedule s) (now : Nat) :
    s.used < due sched s.repeats now ↔ ∃ t, s.nextDeliveryTime = some t ∧ t ≤ now := by
  rw [due, Deadlines.lt_upto_iff, Deadlines.due_iff, hs.nextDeliveryTime_eq]
  rfl

theorem rationalizeLoop_ensures {E : LinkFault → Prop} {now : Nat} {P : LinkQueue sched Q → Prop}
    (hburn : ∀ s t, OnSchedule s → P s → s.nextDeliveryTime = some t → t ≤ now →
      Ensures E P (s.burn now t)) {fuel : Nat} :
    ∀ {s : LinkQueue sched Q}, OnSchedule s → P s → due sched s.repeats now ≤ s.used + fuel →
      Ensures E (fun s' => P s' ∧ OnSchedule s' ∧ s'.repeats = s.repeats ∧
        s'.used = max s.used (due sched s.repeats now)) (rationalizeLoop now fuel s) := by
  induction fuel with
  | zero =>
      intro s hs hP hfuel
      exact ⟨hP, hs, rfl, by omega⟩
  | succ fuel ih =>
      intro s hs hP hfuel
      have hdue := used_lt_due_iff hs now
      rw [rationalizeLoop]
      split
      · rename_i t ht
        split
        · -- an opportunity is due, and the others are due after it
          rename_i hle
          have hlt := hdue.mpr ⟨t, ht, hle⟩
          have hadv := burn_advanced now hs ht
          have hP' := hburn s t hs hP ht hle
          cases hb : s.burn now t with
          | error e => exact hP'.of_error hb
          | ok s₁ =>
              have hs₁ := hadv.of_ok hb
              refine (ih hs₁.onSchedule (hP'.of_ok hb) ?_).mono ?_
              · rw [hs₁.repeats, hs₁.used]; omega
              · rintro s' ⟨hPs', hs', hrep, hused⟩
                rw [hs₁.repeats] at hrep hused
                rw [hs₁.used] at hused
                exact ⟨hPs', hs', hrep, by omega⟩
        · rename_i hgt
          have hge : ¬ s.used < due sched s.repeats now := fun hlt => by
            obtain ⟨t', ht', hle⟩ := hdue.mp hlt
            cases ht.symm.trans ht'
            exact hgt hle
          exact ⟨hP, hs, rfl, by omega⟩
      · rename_i hnone
        have hge : ¬ s.used < due sched s.repeats now := fun hlt => by
          obtain ⟨t', ht', -⟩ := hdue.mp hlt
          cases hnone.symm.trans ht'
        exact ⟨hP, hs, rfl, by omega⟩

/-- **`rationalize` uses the opportunities that are due, and no other.** -/
theorem rationalize_ensures {E : LinkFault → Prop} {now : Nat} {P : LinkQueue sched Q → Prop}
    (hburn : ∀ s t, OnSchedule s → P s → s.nextDeliveryTime = some t → t ≤ now →
      Ensures E P (s.burn now t)) {s : LinkQueue sched Q} (hs : OnSchedule s) (hP : P s) :
    Ensures E (fun s' => P s' ∧ OnSchedule s' ∧ s'.repeats = s.repeats ∧
      s'.used = max s.used (due sched s.repeats now)) (s.rationalize now) :=
  rationalizeLoop_ensures hburn hs hP
    (Nat.le_add_left_of_le (List.countP_le_length.trans (by simp [Schedule.deadlines])))

/-! ### Calls -/

/-- What `read_packet` does once the link is up to date. -/
theorem enqueuePacket_ok {now : Nat} {contents : Payload} {s s' : LinkQueue sched Q}
    (h : s.enqueuePacket now contents = .ok s') :
    ∃ q log, enqueue now { arrivalTime := now, contents } s.packetQueue = .ok q ∧
      s' = { s with packetQueue := q, log } := by
  obtain ⟨bytesBefore, -, h⟩ := bind_ok.mp h
  obtain ⟨packetsBefore, -, h⟩ := bind_ok.mp h
  obtain ⟨q, hq, h⟩ := bind_ok.mp h
  obtain ⟨packetsAfter, -, h⟩ := bind_ok.mp h
  have hq' := ofQueue_ok hq
  split at h
  · cases h
  · obtain ⟨bytesAfter, -, h⟩ := bind_ok.mp h
    split at h
    · cases h
    · dsimp only at h
      split at h
      · cases h; exact ⟨q, _, hq', rfl⟩
      · cases h; exact ⟨q, _, hq', rfl⟩

theorem ofQueue_error {α : Type} {x : Except Fault α} {e : LinkFault} (h : ofQueue x = .error e) :
    ∃ f, x = .error f ∧ e = .queue f := by
  unfold ofQueue at h
  split at h
  · cases h
  · cases h; exact ⟨_, rfl, rfl⟩

theorem enqueuePacket_error {now : Nat} {contents : Payload} {s : LinkQueue sched Q} {e : LinkFault}
    (h : s.enqueuePacket now contents = .error e) :
    (∃ f, e = .queue f) ∨ e = .packetsGrew ∨ e = .bytesGrew := by
  have hqueue : ∀ {α : Type} {x : Except Fault α}, ofQueue x = .error e → ∃ f, e = .queue f :=
    fun hx => by obtain ⟨f, -, rfl⟩ := ofQueue_error hx; exact ⟨f, rfl⟩
  rcases bind_error.mp h with h | ⟨bytesBefore, -, h⟩
  · exact .inl (hqueue h)
  rcases bind_error.mp h with h | ⟨packetsBefore, -, h⟩
  · exact .inl (hqueue h)
  rcases bind_error.mp h with h | ⟨q, -, h⟩
  · exact .inl (hqueue h)
  rcases bind_error.mp h with h | ⟨packetsAfter, -, h⟩
  · exact .inl (hqueue h)
  split at h
  · cases h; exact .inr (.inl rfl)
  · rcases bind_error.mp h with h | ⟨bytesAfter, -, h⟩
    · exact .inl (hqueue h)
    split at h
    · cases h; exact .inr (.inr rfl)
    · cases h

def Call.clock? : Call → Option Nat
  | .readPacket now _ => some now
  | .waitTime now => some now
  | .writePackets => none

def clocks (calls : List Call) : List Nat := calls.filterMap Call.clock?

def Call.offered? : Call → Option QueuedPacket
  | .readPacket now contents => some { arrivalTime := now, contents }
  | .waitTime _ => none
  | .writePackets => none

/-- The packets given to the link. -/
def offered (calls : List Call) : List QueuedPacket := calls.filterMap Call.offered?

theorem offered_append (calls calls' : List Call) :
    offered (calls ++ calls') = offered calls ++ offered calls' := List.filterMap_append

/-- Clock readings do not go back, and packets have 1 to `PACKET_SIZE` bytes. -/
structure Orderly (calls : List Call) : Prop where
  clock : (clocks calls).Pairwise (· ≤ ·)
  size : ∀ now contents, .readPacket now contents ∈ calls →
    1 ≤ contents.length ∧ contents.length ≤ PACKET_SIZE

theorem Orderly.before {done calls : List Call} (h : Orderly calls) (hpre : done <+: calls) :
    Orderly done where
  clock := h.clock.sublist (hpre.sublist.filterMap _)
  size now contents hmem := h.size now contents (hpre.subset hmem)

theorem Orderly.clock_le {done : List Call} {c : Call} {now : Nat}
    (h : Orderly (done ++ [c])) (hc : c.clock? = some now) : ∀ t ∈ clocks done, t ≤ now := by
  have hsorted := h.clock
  rw [clocks, List.filterMap_append, List.filterMap_cons_some hc] at hsorted
  intro t ht
  exact (List.pairwise_append.mp hsorted).2.2 t ht now (by simp)

omit [AbstractPacketQueue Q] in
theorem early_of_due_le {s : LinkQueue sched Q} (hs : OnSchedule s) {now : Nat}
    (hdue : due sched s.repeats now ≤ s.used) : s.Early now := fun _ ht =>
  Deadlines.lt_time (D := sched.deadlines s.repeats) hdue (hs.nextDeliveryTime_eq.symm.trans ht)

theorem due_mono (repeats : Bool) {now now' : Nat} (h : now ≤ now') :
    due sched repeats now ≤ due sched repeats now' := Deadlines.upto_mono h

/-- After the calls `done`, in order, the link has used what was due at them and nothing more. -/
structure InStep (repeats : Bool) (done : List Call) (s : LinkQueue sched Q) : Prop where
  onSchedule : OnSchedule s
  repeats_eq : s.repeats = repeats
  due_le : ∀ now ∈ clocks done, due sched repeats now ≤ s.used
  le_due : ∀ now, (∀ t ∈ clocks done, t ≤ now) → s.used ≤ due sched repeats now

omit [AbstractPacketQueue Q] in
theorem inStep_ofArgs (repeats logging : Bool) (q : Q) :
    InStep repeats [] (ofArgs sched repeats logging q) where
  onSchedule := onSchedule_ofArgs repeats logging q
  repeats_eq := rfl
  due_le := by simp [clocks]
  le_due := by simp [ofArgs, used]

omit [AbstractPacketQueue Q] in
/-- A call that reads the clock leaves the link up to date. -/
theorem InStep.of_clock {repeats : Bool} {done : List Call} {c : Call} {now : Nat}
    {s : LinkQueue sched Q} (ho : Orderly (done ++ [c])) (hc : c.clock? = some now)
    (hs : OnSchedule s) (hrep : s.repeats = repeats) (hused : s.used = due sched repeats now) :
    InStep repeats (done ++ [c]) s := by
  have hclocks : clocks (done ++ [c]) = clocks done ++ [now] := by simp [clocks, hc]
  refine ⟨hs, hrep, fun t ht => ?_, fun later hle => ?_⟩
  · rw [hclocks] at ht
    rw [hused]
    rcases List.mem_append.mp ht with ht | ht
    · exact due_mono repeats (ho.clock_le hc t ht)
    · rw [List.mem_singleton.mp ht]
  · rw [hused]
    exact due_mono repeats (hle now (by simp [hclocks]))

/-- **The run rule of the link.**  `P done s` relates the calls made to the state they lead to.  It
survives every opportunity, every packet that is read when all opportunities up to then have been
used, and the calls that do nothing else. -/
theorem run_ensures {E : LinkFault → Prop} {P : List Call → LinkQueue sched Q → Prop}
    {repeats logging : Bool} {q : Q} {calls : List Call}
    (h₀ : P [] (ofArgs sched repeats logging q))
    (hburn : ∀ done s t now, done <+: calls → OnSchedule s → P done s →
      s.nextDeliveryTime = some t → t ≤ now → Ensures E (P done) (s.burn now t))
    (henq : ∀ done s now contents, done ++ [.readPacket now contents] <+: calls → OnSchedule s →
      P done s → 1 ≤ contents.length ∧ contents.length ≤ PACKET_SIZE →
      s.used = due sched s.repeats now →
      Ensures E (P (done ++ [.readPacket now contents])) (s.enqueuePacket now contents))
    (hwait : ∀ done s now, P done s → P (done ++ [.waitTime now]) s)
    (hwrite : ∀ done s, P done s → P (done ++ [.writePackets]) s.writePackets)
    (ho : Orderly calls) :
    Ensures E (fun s => P calls s ∧ OnSchedule s ∧ s.repeats = repeats ∧
        ∀ now ∈ clocks calls, due sched repeats now ≤ s.used)
      (run Call.step calls (ofArgs sched repeats logging q)) := by
  refine Ensures.mono (P := fun s => P calls s ∧ InStep repeats calls s) ?_
    fun s hs => ⟨hs.1, hs.2.onSchedule, hs.2.repeats_eq, hs.2.due_le⟩
  refine ensures_run (P := fun done s => P done s ∧ InStep repeats done s)
    ⟨h₀, inStep_ofArgs repeats logging q⟩ ?_
  rintro done s c ⟨hP, hs⟩ - hpre
  have hdone : done <+: calls := (List.prefix_append done [c]).trans hpre
  have ho' : Orderly (done ++ [c]) := ho.before hpre
  -- a call that reads the clock first brings the link up to date
  have hupdate : ∀ {now : Nat}, c.clock? = some now → Ensures E (fun s' => P done s' ∧
      OnSchedule s' ∧ s'.repeats = repeats ∧ s'.used = due sched repeats now)
      (s.rationalize now) := by
    intro now hc
    refine (rationalize_ensures (fun s t => hburn done s t now hdone) hs.onSchedule hP).mono ?_
    rintro s' ⟨hP', hs', hrep', hused⟩
    rw [hs.repeats_eq] at hrep' hused
    have hnot : s.used ≤ due sched repeats now := hs.le_due now (ho'.clock_le hc)
    exact ⟨hP', hs', hrep', hused.trans (Nat.max_eq_right hnot)⟩
  cases c with
  | readPacket now contents =>
      have hsize := ho'.size now contents (by simp)
      have hread : Call.step (.readPacket now contents) s =
          s.rationalize now >>= enqueuePacket now contents := if_neg (Nat.not_lt.mpr hsize.2)
      rw [hread]
      refine (hupdate rfl).bind fun s₁ ⟨hP₁, hs₁, hrep₁, hused₁⟩ => ?_
      have henq₁ := henq done s₁ now contents hpre hs₁ hP₁ hsize (by rw [hrep₁, hused₁])
      cases hx : s₁.enqueuePacket now contents with
      | error e => exact henq₁.of_error hx
      | ok s₂ =>
          have hP₂ := henq₁.of_ok hx
          obtain ⟨q, log, -, rfl⟩ := enqueuePacket_ok hx
          exact ⟨hP₂, .of_clock ho' rfl (onSchedule_congr (s := s₁) rfl hs₁) hrep₁ hused₁⟩
  | waitTime now =>
      refine Ensures.map ((hupdate rfl).bind fun s₁ ⟨hP₁, hs₁, hrep₁, hused₁⟩ => ?_)
      exact ⟨hwait done s₁ now hP₁, .of_clock ho' rfl hs₁ hrep₁ hused₁⟩
  | writePackets =>
      have hclocks : clocks (done ++ [.writePackets]) = clocks done := by
        simp [clocks, Call.clock?]
      have hwritten : InStep repeats (done ++ [.writePackets]) s.writePackets :=
        ⟨onSchedule_congr (s := s) rfl hs.onSchedule, hs.repeats_eq, hclocks ▸ hs.due_le,
          hclocks ▸ hs.le_due⟩
      exact ⟨hwrite done s hP, hwritten⟩

/-- What an action that is not the first use of an opportunity may change of the schedule. -/
structure Later (s s' : LinkQueue sched Q) : Prop where
  onSchedule : OnSchedule s'
  repeats : s'.repeats = s.repeats
  used : s.used ≤ s'.used

omit [AbstractPacketQueue Q] in
theorem Later.trans {s₁ s₂ s₃ : LinkQueue sched Q} (h : Later s₁ s₂) (h' : Later s₂ s₃) :
    Later s₁ s₃ := ⟨h'.onSchedule, h'.repeats.trans h.repeats, h.used.trans h'.used⟩

/-- **The run rule of the link, whatever the clock does.**  `P` survives every opportunity, every
packet that is read before the next opportunity, and the writing of packets. -/
theorem run_keeps {E : LinkFault → Prop} {P : LinkQueue sched Q → Prop} {calls : List Call}
    (hE : E .tooLarge)
    (hburn : ∀ s t now, OnSchedule s → P s → s.nextDeliveryTime = some t → t ≤ now →
      Ensures E P (s.burn now t))
    (henq : ∀ s now contents, .readPacket now contents ∈ calls → OnSchedule s → P s → s.Early now →
      contents.length ≤ PACKET_SIZE → Ensures E P (s.enqueuePacket now contents))
    (hwrite : ∀ s, P s → P s.writePackets) {s₀ : LinkQueue sched Q} (hs₀ : OnSchedule s₀)
    (hP₀ : P s₀) : Ensures E (fun s => P s ∧ Later s₀ s) (run Call.step calls s₀) := by
  refine ensures_run (P := fun _ s => P s ∧ Later s₀ s) ⟨hP₀, hs₀, rfl, le_rfl⟩ ?_
  rintro done s c ⟨hP, hs⟩ - hpre
  have hupdate : ∀ now, Ensures E (fun s' => P s' ∧ Later s s' ∧ s'.Early now)
      (s.rationalize now) := fun now => by
    refine (rationalize_ensures (fun s t => hburn s t now) hs.onSchedule hP).mono ?_
    rintro s' ⟨hP', hs', hrep, hused⟩
    refine ⟨hP', ⟨hs', hrep, hused ▸ Nat.le_max_left _ _⟩, early_of_due_le hs' ?_⟩
    rw [hrep, hused]
    exact Nat.le_max_right _ _
  cases c with
  | readPacket now contents =>
      show Ensures E _ (s.readPacket now contents)
      rw [readPacket]
      split
      · exact hE
      next hsize =>
        refine (hupdate now).bind fun s₁ ⟨hP₁, hs₁, hearly⟩ => ?_
        have hmem : Call.readPacket now contents ∈ calls := hpre.subset (by simp)
        have henq₁ := henq s₁ now contents hmem hs₁.onSchedule hP₁ hearly (Nat.not_lt.mp hsize)
        cases hx : s₁.enqueuePacket now contents with
        | error e => exact henq₁.of_error hx
        | ok s₂ =>
            refine ⟨henq₁.of_ok hx, hs.trans (hs₁.trans ?_)⟩
            obtain ⟨q, log, -, rfl⟩ := enqueuePacket_ok hx
            exact ⟨onSchedule_congr (s := s₁) rfl hs₁.onSchedule, rfl, le_rfl⟩
  | waitTime now =>
      refine Ensures.map ((hupdate now).bind fun s₁ ⟨hP₁, hs₁, _⟩ => ?_)
      exact ⟨hP₁, hs.trans hs₁⟩
  | writePackets =>
      exact ⟨hwrite s hP, hs.trans ⟨onSchedule_congr (s := s) rfl hs.onSchedule, rfl, le_rfl⟩⟩

/-! ### A run to look at -/

def everyTen : Schedule := ⟨[10], by decide, by decide, by decide⟩

/-- The second packet is sent by two opportunities. -/
def sharedOpportunity : List Call :=
  [.readPacket 0 (List.replicate 1000 1), .readPacket 0 (List.replicate 1000 2), .waitTime 10,
    .writePackets, .waitTime 20]

theorem orderly_sharedOpportunity : Orderly sharedOpportunity where
  clock := by decide
  size now contents hmem := by
    simp only [sharedOpportunity, List.mem_cons, List.not_mem_nil, or_false, reduceCtorEq,
      Call.readPacket.injEq] at hmem
    obtain ⟨-, hc⟩ | ⟨-, hc⟩ := hmem
    · rw [hc, List.length_replicate]; decide
    · rw [hc, List.length_replicate]; decide

end LinkQueue

end Mahimahi
