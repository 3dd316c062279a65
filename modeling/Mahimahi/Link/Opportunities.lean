import Mahimahi.Link.Runs

/-!
# Link — the delivery opportunities of a run

* `opportunities_in_order`: in every run, whatever the clock does, the `k`-th opportunity used is
  that of the schedule repeated end to end; without repetition one pass is used and the link is then
  finished for ever; `rationalize` returns with every opportunity up to `now` used.

`rationalizeLoop` and `serve` have fuel.  `rationalizeLoop_fuel` and `serve_fuel` say that what
`rationalize` gives them is enough: with more they do the same.
-/

open Fallible MachineInt Catchup

namespace Mahimahi

namespace LinkQueue

open AbstractPacketQueue

variable {sched : Schedule} {Q : Type}

/-- The times of the opportunities used. -/
def times (s : LinkQueue sched Q) : List Nat := s.history.opportunities.map Opportunity.time

/-- The opportunities used are the first ones of the schedule. -/
def Timely (s : LinkQueue sched Q) : Prop :=
  ∀ k, k < s.used → s.times[k]? = sched.opportunity s.repeats k

theorem length_times (s : LinkQueue sched Q) : s.times.length = s.used := List.length_map _

theorem opportunity_mono_of_le {repeats : Bool} {j k b : Nat} (hjk : j ≤ k)
    (h : sched.opportunity repeats k = some b) :
    ∃ a, sched.opportunity repeats j = some a ∧ a ≤ b := by
  induction k, hjk using Nat.le_induction generalizing b with
  | base => exact ⟨b, h, le_rfl⟩
  | succ k _ ih =>
      obtain ⟨c, hc, hcb⟩ := Schedule.opportunity_mono h
      obtain ⟨a, ha, hac⟩ := ih hc
      exact ⟨a, ha, hac.trans hcb⟩

theorem Timely.pairwise {s : LinkQueue sched Q} (h : Timely s) : s.times.Pairwise (· ≤ ·) := by
  refine List.pairwise_iff_getElem.mpr fun i j hi hj hij => ?_
  have hopp : ∀ k (hk : k < s.times.length), sched.opportunity s.repeats k = some s.times[k] :=
    fun k hk => (h k (s.length_times ▸ hk)).symm.trans (List.getElem?_eq_getElem hk)
  obtain ⟨a, ha, hle⟩ := opportunity_mono_of_le hij.le (hopp j hj)
  rw [hopp i hi] at ha
  cases ha
  exact hle

/-- The `k`-th opportunity of the schedule repeated end to end. -/
theorem Timely.time {s : LinkQueue sched Q} (h : Timely s) {k t : Nat} (hk : s.times[k]? = some t) :
    t = sched.entry ⟨k % sched.size, Nat.mod_lt _ sched.size_pos⟩ + k / sched.size * sched.back := by
  have hlt : k < s.used := s.length_times ▸ (List.getElem?_eq_some_iff.mp hk).1
  have hopp := (h k hlt).symm.trans hk
  unfold Schedule.opportunity at hopp
  split at hopp
  · exact (Option.some.inj hopp).symm
  · cases hopp

theorem timely_congr {s s' : LinkQueue sched Q} (h : s'.position = s.position) (hs : Timely s) :
    Timely s' := by
  simp only [position, Prod.mk.injEq] at h
  intro k hk
  rw [times, used, h.2.2.2.2] at *
  rw [h.2.2.1]
  exact hs k hk

variable [AbstractPacketQueue Q]

theorem burn_timely (now : Nat) {t : Nat} {s : LinkQueue sched Q} (hs : OnSchedule s)
    (hP : Timely s) (ht : s.nextDeliveryTime = some t) :
    Ensures (fun _ => True) (fun s' => Timely s' ∧ s'.times = s.times ++ [t]) (s.burn now t) := by
  refine burn_ensures ((serve_position now t le_rfl 0 _).mono fun r hr => ?_)
  obtain ⟨_, _, _, _, hframe⟩ := useADeliveryOpportunity_frame s
  have hrep : s.useADeliveryOpportunity.repeats = s.repeats := by rw [hframe]
  have hhist : s.useADeliveryOpportunity.history = s.history := by rw [hframe]
  simp only [position, Prod.mk.injEq, hrep, hhist] at hr
  obtain ⟨-, -, hr₃, -, hr₅⟩ := hr
  have htimes : times { r.2 with history := { r.2.history with
      opportunities := r.2.history.opportunities ++ [⟨t, r.1, empty r.2.packetQueue⟩] } } = s.times ++ [t] := by
    simp [times, hr₅]
  refine ⟨fun k hk => ?_, htimes⟩
  rw [← length_times, htimes, List.length_append, length_times, List.length_singleton] at hk
  rw [htimes]
  show _ = sched.opportunity r.2.repeats k
  rw [hr₃]
  rcases Nat.lt_succ_iff_lt_or_eq.mp hk with hlt | rfl
  · rw [List.getElem?_append_left (s.length_times.symm ▸ hlt)]
    exact hP k hlt
  · rw [List.getElem?_append_right (s.length_times.le), s.length_times, Nat.sub_self,
      ← hs.nextDeliveryTime_eq, ht]
    rfl

/-! ### The loops end -/

/-- Any fuel that covers the bytes left of the opportunity is enough. -/
theorem serve_fuel {now t fuel fuel' : Nat} : ∀ {bytesLeft sent : Nat} {s : LinkQueue sched Q},
    bytesLeft ≤ fuel → bytesLeft ≤ fuel' →
      serve now t fuel bytesLeft sent s = serve now t fuel' bytesLeft sent s := by
  induction fuel generalizing fuel' with
  | zero =>
      intro bytesLeft sent s h h'
      obtain rfl : bytesLeft = 0 := by omega
      cases fuel' with
      | zero => rfl
      | succ fuel' => rw [serve, serve, if_pos rfl]
  | succ fuel ih =>
      intro bytesLeft sent s h h'
      cases fuel' with
      | zero =>
          obtain rfl : bytesLeft = 0 := by omega
          rw [serve, serve, if_pos rfl]
      | succ fuel' =>
          rw [serve, serve]
          split
          · rfl
          next hpos =>
            split
            · rfl
            · cases hx : s.sendSome now t bytesLeft with
              | error e => rfl
              | ok r =>
                  -- a turn sends at least one byte
                  have hr := (sendSome_amount (Nat.pos_of_ne_zero hpos) s).of_ok hx
                  exact ih (by omega) (by omega)

theorem rationalizeLoop_early {now : Nat} {s : LinkQueue sched Q} (h : s.Early now) (fuel : Nat) :
    rationalizeLoop now fuel s = .ok s := by
  cases fuel with
  | zero => rfl
  | succ fuel =>
      rw [rationalizeLoop]
      split
      next t ht => rw [if_neg (Nat.not_le.mpr (h t ht))]
      · rfl

/-- Any fuel that covers the opportunities that are due is enough. -/
theorem rationalizeLoop_fuel {now fuel : Nat} : ∀ {fuel' : Nat} {s : LinkQueue sched Q},
    OnSchedule s → due sched s.repeats now ≤ s.used + fuel →
      due sched s.repeats now ≤ s.used + fuel' →
      rationalizeLoop now fuel s = rationalizeLoop now fuel' s := by
  induction fuel with
  | zero =>
      intro fuel' s hs h h'
      have hearly := early_of_due_le hs h
      rw [rationalizeLoop_early hearly, rationalizeLoop_early hearly]
  | succ fuel ih =>
      intro fuel' s hs h h'
      rcases Nat.lt_or_ge s.used (due sched s.repeats now) with hlt | hge
      · obtain ⟨fuel', rfl⟩ : ∃ n, fuel' = n + 1 := ⟨fuel' - 1, by omega⟩
        obtain ⟨t, ht, hle⟩ := (used_lt_due_iff hs now).mp hlt
        rw [rationalizeLoop, rationalizeLoop, ht]
        dsimp only
        rw [if_pos hle, if_pos hle]
        cases hb : s.burn now t with
        | error e => rfl
        | ok s₁ =>
            have hadv := (burn_advanced now hs ht).of_ok hb
            exact ih hadv.onSchedule (by rw [hadv.repeats, hadv.used]; omega)
              (by rw [hadv.repeats, hadv.used]; omega)
      · have hearly := early_of_due_le hs hge
        rw [rationalizeLoop_early hearly, rationalizeLoop_early hearly]

theorem due_le_passes (repeats : Bool) (now : Nat) : due sched repeats now ≤ sched.passes now :=
  List.countP_le_length.trans (by simp [Schedule.deadlines])

/-! ### The opportunities of a run -/

theorem run_timely {s₀ s : LinkQueue sched Q} {calls : List Call} (hs₀ : OnSchedule s₀)
    (hP₀ : Timely s₀) (hrun : run Call.step calls s₀ = .ok s) :
    Timely s ∧ Later s₀ s ∧ s₀.times <+: s.times := by
  have h := (run_keeps (E := fun _ => True) (P := fun s => Timely s ∧ s₀.times <+: s.times)
    trivial ?_ ?_ ?_ hs₀ ⟨hP₀, List.prefix_rfl⟩).of_ok hrun
  · exact ⟨h.1.1, h.2, h.1.2⟩
  · rintro s t now hs ⟨hP, hpre⟩ ht -
    refine (burn_timely now hs hP ht).mono ?_
    rintro s' ⟨hP', htimes⟩
    exact ⟨hP', htimes ▸ hpre.trans (List.prefix_append _ _)⟩
  · rintro s now contents - hs ⟨hP, hpre⟩ - -
    refine ensures_iff.mpr fun s' hs' => ?_
    obtain ⟨q, log, -, rfl⟩ := enqueuePacket_ok hs'
    exact ⟨timely_congr (s := s) rfl hP, hpre⟩
  · rintro s ⟨hP, hpre⟩
    exact ⟨timely_congr (s := s) rfl hP, hpre⟩

omit [AbstractPacketQueue Q] in
theorem finished_iff {s : LinkQueue sched Q} (h : OnSchedule s) :
    s.finished = true ↔ s.repeats = false ∧ s.used = sched.size := by
  rw [h.finished]
  cases hrep : s.repeats with
  | true => simp
  | false =>
      have := h.onePass hrep
      simp only [Bool.not_false, Bool.true_and, decide_eq_true_eq, true_and]
      omega

/-- What has been used of the schedule, and when it is over. -/
structure InOrder (repeats : Bool) (s : LinkQueue sched Q) : Prop where
  time : ∀ k t, s.times[k]? = some t →
    t = sched.entry ⟨k % sched.size, Nat.mod_lt _ sched.size_pos⟩ + k / sched.size * sched.back
  mono : s.times.Pairwise (· ≤ ·)
  onePass : repeats = false → s.times.length ≤ sched.size
  finished : s.finished = true ↔ repeats = false ∧ s.times.length = sched.size

omit [AbstractPacketQueue Q] in
theorem Timely.inOrder {s : LinkQueue sched Q} (h : Timely s) (hs : OnSchedule s) :
    InOrder s.repeats s where
  time _ _ hk := h.time hk
  mono := h.pairwise
  onePass hrep := s.length_times ▸ hs.onePass hrep
  finished := s.length_times ▸ finished_iff hs

/-- What `rationalize now` leaves behind: the opportunities up to `now` are used, and no other than
were used before. -/
structure UpToDate (repeats : Bool) (now : Nat) (s s' : LinkQueue sched Q) : Prop where
  inOrder : InOrder repeats s'
  kept : s.times <+: s'.times
  used : ∀ k t, sched.opportunity repeats k = some t → t ≤ now → s'.times[k]? = some t
  noOther : ∀ k t, s'.times[k]? = some t → s.times.length ≤ k → t ≤ now
  next : now < s'.nextDeliveryTime.getD (2 ^ 64 - 1)

theorem rationalize_upToDate {now : Nat} (hnow : now < 2 ^ 64 - 1) {s s' : LinkQueue sched Q}
    (hs : OnSchedule s) (hP : Timely s) (h : s.rationalize now = .ok s') :
    UpToDate s.repeats now s s' := by
  have hr := (rationalize_ensures (E := fun _ => True)
    (P := fun s' => Timely s' ∧ s.times <+: s'.times ∧
      ∀ k t, s'.times[k]? = some t → s.times.length ≤ k → t ≤ now) ?_ hs
    ⟨hP, List.prefix_rfl, ?_⟩).of_ok h
  · obtain ⟨⟨hP', hpre, hno⟩, hs', hrep, hused⟩ := hr
    refine ⟨hrep ▸ hP'.inOrder hs', hpre, fun k t hopp hle => ?_, hno, ?_⟩
    · have hdue : k < due sched s.repeats now :=
        Deadlines.lt_upto_iff.mpr (Deadlines.due_iff.mpr ⟨t, hopp, hle⟩)
      exact (hP' k (by omega)).trans (hrep ▸ hopp)
    · have hearly : s'.Early now := early_of_due_le hs' (by rw [hrep]; omega)
      cases ht : s'.nextDeliveryTime with
      | none => exact hnow
      | some t => exact hearly t ht
  · -- an opportunity that the loop uses was due
    rintro s₁ t hs₁ ⟨hP₁, hpre, hno⟩ ht hle
    refine (burn_timely now hs₁ hP₁ ht).mono ?_
    rintro s₂ ⟨hP₂, htimes⟩
    refine ⟨hP₂, htimes ▸ hpre.trans (List.prefix_append _ _), fun k u hk hge => ?_⟩
    rw [htimes] at hk
    rcases Nat.lt_or_ge k s₁.times.length with hlt | hge'
    · rw [List.getElem?_append_left hlt] at hk
      exact hno k u hk hge
    · rw [List.getElem?_append_right hge'] at hk
      have := List.mem_singleton.mp (List.mem_of_getElem? hk)
      omega
  · intro k t hk hge
    exact absurd (List.getElem?_eq_some_iff.mp hk).1 (Nat.not_lt.mpr hge)

/-- **The opportunities of a run are those of the schedule, in order.** -/
theorem opportunities_in_order {repeats logging : Bool} {q : Q} {calls : List Call}
    {s : LinkQueue sched Q}
    (hrun : run Call.step calls (ofArgs sched repeats logging q) = .ok s) :
    InOrder repeats s ∧
    (s.finished = true → ∀ more s', run Call.step more s = .ok s' →
      s'.finished = true ∧ s'.times = s.times) ∧
    (∀ now, (∀ fuel, sched.passes now ≤ fuel → rationalizeLoop now fuel s = s.rationalize now) ∧
      ∀ s', s.rationalize now = .ok s' → now < 2 ^ 64 - 1 → UpToDate repeats now s s') ∧
    ∀ (s' : LinkQueue sched Q) now t fuel, PACKET_SIZE ≤ fuel →
      serve now t fuel PACKET_SIZE 0 s' = serve now t PACKET_SIZE PACKET_SIZE 0 s' := by
  have hs₀ : OnSchedule (ofArgs sched repeats logging q) := onSchedule_ofArgs repeats logging q
  obtain ⟨hP, hs, -⟩ := run_timely hs₀ (fun k hk => absurd hk (Nat.not_lt_zero k)) hrun
  have hrep : s.repeats = repeats := hs.repeats
  refine ⟨hrep ▸ hP.inOrder hs.onSchedule, fun hfin more s' hmore => ?_, fun now => ⟨?_, ?_⟩,
    fun s' now t fuel hfuel => serve_fuel hfuel le_rfl⟩
  · -- the pass is used up, and no later call can use more of it
    obtain ⟨hone, hused⟩ := (finished_iff hs.onSchedule).mp hfin
    obtain ⟨-, hs', hpre⟩ := run_timely hs.onSchedule hP hmore
    have hle : s'.used ≤ sched.size := hs'.onSchedule.onePass (hs'.repeats.trans hone)
    have hge : s.used ≤ s'.used := hs'.used
    refine ⟨(finished_iff hs'.onSchedule).mpr ⟨hs'.repeats.trans hone, by omega⟩, ?_⟩
    exact (hpre.eq_of_length (by rw [length_times, length_times]; omega)).symm
  · intro fuel hfuel
    have hdue : due sched s.repeats now ≤ sched.passes now := due_le_passes s.repeats now
    exact rationalizeLoop_fuel hs.onSchedule (by omega) (by omega)
  · intro s' hs' hnow
    exact hrep ▸ rationalize_upToDate hnow hs.onSchedule hP hs'

/-- One pass of a schedule with two opportunities at the same time. -/
def twoAtTen : Schedule := ⟨[10, 10], by decide, by decide, by decide⟩

theorem opportunities_in_order_sharedOpportunity :
    ∃ s : LinkQueue twoAtTen InfinitePacketQueue,
      run Call.step sharedOpportunity (ofArgs twoAtTen false false {}) = .ok s ∧
      InOrder false s ∧
      (s.finished = true → ∀ more s', run Call.step more s = .ok s' →
        s'.finished = true ∧ s'.times = s.times) ∧
      (∀ now, (∀ fuel, twoAtTen.passes now ≤ fuel →
          rationalizeLoop now fuel s = s.rationalize now) ∧
        ∀ s', s.rationalize now = .ok s' → now < 2 ^ 64 - 1 → UpToDate false now s s') ∧
      ∀ (s' : LinkQueue twoAtTen InfinitePacketQueue) now t fuel, PACKET_SIZE ≤ fuel →
        serve now t fuel PACKET_SIZE 0 s' = serve now t PACKET_SIZE PACKET_SIZE 0 s' := by
  obtain ⟨s, hrun, -⟩ := of_map_ok (f := times) (b := [10, 10])
    (x := run Call.step sharedOpportunity (ofArgs twoAtTen false false ({} : InfinitePacketQueue)))
    (by decide +kernel)
  exact ⟨s, hrun, opportunities_in_order hrun⟩

end LinkQueue

end Mahimahi
