import Mahimahi.Queues.Limits

/-!
# Queues — the active-network queue and its limits

`DropActiveNetQueue::enqueue` accepts a packet that is not UDP without looking at the limits.

* `three_tcp_fault`: three such packets make `dequeue` fail its assertion on `good()`.
* `activeNet_within_iff`: a run keeps within the limits, and fails no assertion on `good()`, exactly
  when every packet that is not UDP fits at its own `enqueue`.
-/

open Fallible MachineInt

namespace Mahimahi

def QueuedPacket.isUdp (p : QueuedPacket) : Bool := holds do
  let header ← PacketHeader.ofPayload p.contents
  return header.isUdp

open DroppingPacketQueue

namespace DropActiveNetQueue

/-- The invariant: the limits are kept, every header can be read, and there is a log. -/
structure Sound (s : DropActiveNetQueue) : Prop where
  base : s.toDroppingPacketQueue.Sound
  headers : ∀ p ∈ s.internalQueue, 44 ≤ p.size
  log : s.logFd = true

theorem Sound.reduced {s s' : DropActiveNetQueue} (h : s.Sound)
    (hr : s.toDroppingPacketQueue.Reduced s'.toDroppingPacketQueue)
    (hsub : s'.internalQueue.Sublist s.internalQueue) (hlog : s'.logFd = s.logFd) : s'.Sound :=
  ⟨h.base.reduced hr, fun p hp => h.headers p (hsub.subset hp), hlog.trans h.log⟩

theorem Sound.accept {s : DropActiveNetQueue} (h : s.Sound) {p : QueuedPacket}
    (hsize : 44 ≤ p.size) (hsmall : Small (s.internalQueue ++ [p])) (hw : s.WithinWith p) :
    (s.accept p).Sound where
  base := h.base.accept hsmall hw
  headers p' hp' := by
    rcases List.mem_append.mp hp' with hp' | hp'
    · exact h.headers p' hp'
    · rw [List.mem_singleton.mp hp']
      exact hsize
  log := h.log

theorem logPackets_ok {s : DropActiveNetQueue} (h : s.Sound) : s.logPackets = .ok () := by
  rw [logPackets, h.log, if_pos rfl, h.base.counted.sizePackets_eq h.base.small.2]
  rfl

/-- The purge reads only headers that are there, and the log is open. -/
theorem dropStaleLoop_ok (toDrop : Nat) (dropperMsg : Int) {ps : List QueuedPacket} :
    ∀ {s : DropActiveNetQueue}, (∀ p ∈ ps, 43 ≤ p.size) → s.logFd = true →
      ∃ r, dropStaleLoop toDrop dropperMsg ps s = .ok r := by
  induction ps with
  | nil => exact fun _ _ => ⟨_, rfl⟩
  | cons p ps ih =>
      intro s hps hlog
      obtain ⟨header, hheader⟩ := PacketHeader.ofPayload_ok_iff.mpr (hps p (by simp))
      have hrest : ∀ {s' : DropActiveNetQueue}, s'.logFd = true →
          ∃ r, dropStaleLoop toDrop dropperMsg ps s' = .ok r :=
        fun hs' => ih (fun q hq => hps q (by simp [hq])) hs'
      have hprint : fprintf s.logFd = .ok () := by rw [hlog]; rfl
      simp only [dropStaleLoop, hheader, ok_bind]
      split
      · obtain ⟨r, hr⟩ := @hrest ({ s with msgInDrop := header.msgNo }.discount p) hlog
        have hprint' : fprintf ({ s with msgInDrop := header.msgNo }.discount p).logFd = .ok () :=
          hprint
        rw [hprint', ok_bind, hr]
        exact ⟨_, rfl⟩
      · split
        · obtain ⟨r, hr⟩ := @hrest (s.discount p) hlog
          rw [hr]
          exact ⟨_, rfl⟩
        · obtain ⟨r, hr⟩ := hrest hlog
          rw [hr]
          exact ⟨_, rfl⟩

theorem makeRoom_ok {s : DropActiveNetQueue} (h : s.Sound) (p : QueuedPacket)
    (header : PacketHeader) : ∃ s', s.makeRoom p header = .ok s' ∧ s'.Sound ∧
      s'.internalQueue.Sublist s.internalQueue := by
  have hreturns : ∃ s', s.makeRoom p header = .ok s' := by
    rw [makeRoom, h.base.fits_eq, ok_bind]
    split
    · exact ⟨_, rfl⟩
    · split
      · obtain ⟨r, hr⟩ := dropStaleLoop_ok 2 header.msgNo
          (fun p hp => (Nat.le_succ 43).trans (h.headers p hp)) h.log
        rw [dropStaleFrames, hr]
        exact ⟨_, rfl⟩
      · exact ⟨_, rfl⟩
  obtain ⟨s', hs'⟩ := hreturns
  have hroom := makeRoom_madeRoom hs'
  obtain ⟨m, c, hframe⟩ := hroom.frame
  exact ⟨s', hs', h.reduced ⟨hroom.shrinks, by rw [hframe]; rfl⟩ hroom.sublist (by rw [hframe]),
    hroom.sublist⟩

theorem isUdp_of_ok {p : QueuedPacket} {header : PacketHeader}
    (h : PacketHeader.ofPayload p.contents = .ok header) : p.isUdp = header.isUdp := by
  rw [QueuedPacket.isUdp, h]
  rfl

/-- A queue that has lost packets stays small with one more. -/
theorem Sound.small_offered {s : DropActiveNetQueue} (h : s.Sound) {ps : List QueuedPacket}
    {p : QueuedPacket} (hsub : s.internalQueue.Sublist ps) (hsize : 44 ≤ p.size)
    (hsmall : totalBytes ps + p.size < 2 ^ 31) : Small (s.internalQueue ++ [p]) := by
  have hbytes : totalBytes s.internalQueue ≤ totalBytes ps :=
    (hsub.map _).sum_le_sum fun _ _ => Nat.zero_le _
  have htotal : totalBytes (s.internalQueue ++ [p]) < 2 ^ 31 := by
    simp only [totalBytes_append, totalBytes_cons, totalBytes_nil]
    omega
  refine ⟨htotal, Nat.lt_of_le_of_lt (length_le_totalBytes fun q hq => ?_) htotal⟩
  rcases List.mem_append.mp hq with hq | hq
  · exact Nat.le_trans (by decide) (h.headers q hq)
  · rw [List.mem_singleton.mp hq]
    exact Nat.le_trans (by decide) hsize

/-- An `enqueue` that keeps within the limits: only a packet that is not UDP could break them. -/
theorem enqueue_sound {s : DropActiveNetQueue} (h : s.Sound) {p : QueuedPacket}
    (hsize : 44 ≤ p.size) (hsmall : totalBytes s.internalQueue + p.size < 2 ^ 31)
    (hother : p.isUdp = false → s.WithinWith p) : ∃ s', s.enqueue p = .ok s' ∧ s'.Sound := by
  have hfew : ∀ {s' : DropActiveNetQueue}, s'.Sound →
      s'.internalQueue.Sublist s.internalQueue → Small (s'.internalQueue ++ [p]) :=
    fun hs' hsub => hs'.small_offered hsub hsize hsmall
  obtain ⟨header, hheader⟩ := PacketHeader.ofPayload_ok hsize
  cases hudp : header.isUdp with
  | false =>
      -- accepted without a look at the limits: `hother` keeps them
      refine ⟨s.accept p, ?_, h.accept hsize (hfew h (.refl _))
        (hother ((isUdp_of_ok hheader).trans hudp))⟩
      rw [enqueue, hheader, ok_bind, hudp]
      rfl
  | true =>
      -- the queue may have been purged, and the packet is tested against what is left
      obtain ⟨s₁, hs₁, hsound, hsub⟩ := makeRoom_ok h p header
      rw [enqueue, hheader, ok_bind, hudp, if_pos rfl, hs₁, ok_bind]
      have hfits := hsound.base.fits_eq p
      cases hfit : s₁.goodWith (toU32 (totalBytes s₁.internalQueue + p.size))
          (toU32 (s₁.internalQueue.length + 1)) with
      | true =>
          rw [hfit] at hfits
          have haccept := hsound.accept hsize (hfew hsound hsub)
            (hsound.base.withinWith_of_fits (hfew hsound hsub) hfits)
          rw [hfits]
          refine ⟨s₁.accept p, ?_, haccept⟩
          show (s₁.accept p).logPackets >>= _ = _
          rw [logPackets_ok haccept]
          rfl
      | false =>
          rw [hfits, hfit]
          refine ⟨s₁, ?_, hsound⟩
          show s₁.logPackets >>= _ = _
          rw [logPackets_ok hsound]
          rfl

theorem dequeue_sound {s : DropActiveNetQueue} (h : s.Sound) :
    Ensures (· = .emptyQueue) (fun r => Sound r.2) s.dequeue := by
  match hq : s.internalQueue with
  | [] =>
      rw [dequeue, popFront, CountedQueue.pop, hq]
      rfl
  | p :: rest =>
      obtain ⟨header, hheader⟩ := PacketHeader.ofPayload_ok (h.headers p (by simp [hq]))
      have hpop := CountedQueue.pop_cons hq
      have hsound : ({ s with
          queueSizeInBytes := toI32 (s.queueSizeInBytes - p.size)
          queueSizeInPackets := toI32 (s.queueSizeInPackets - 1)
          internalQueue := rest } : DropActiveNetQueue).Sound :=
        h.reduced ⟨.of_pop hpop, rfl⟩ (hq ▸ List.sublist_cons_self _ _) rfl
      rw [dequeue, popFront, hpop, ok_bind]
      show Ensures _ _ (PacketHeader.ofPayload p.contents >>= _)
      rw [hheader, ok_bind]
      dsimp only
      split
      · rw [logPackets_ok h, ok_bind, hsound.base.assertGood]
        exact hsound
      · rw [hsound.base.assertGood]
        exact hsound

/-! ### Runs -/

def ofArgs (d : DroppingArgs) : DropActiveNetQueue := { toDroppingPacketQueue := d.make }

def step : Discipline.Call → DropActiveNetQueue → Except Fault DropActiveNetQueue
  | .enqueue _ arrivalTime contents, s => s.enqueue { arrivalTime, contents }
  | .dequeue _, s => s.dequeue.map Prod.snd
  | .setBandwidth bandwidth, s => .ok (AbstractPacketQueue.setBandwidth bandwidth s)

theorem sound_ofArgs {d : DroppingArgs} (hlog : d.logFd = true) : (ofArgs d).Sound where
  base := ⟨CountedQueue.counted_nil, ⟨Nat.two_pow_pos 31, Nat.two_pow_pos 31⟩,
    .inr (Nat.zero_le _), .inr (Nat.zero_le _)⟩
  headers _ hp := nomatch hp
  log := hlog

/-- What is asked of every `enqueue` of a run: `R` of the queue it is called on and its packet. -/
def AtEnqueue (d : DroppingArgs) (calls : List Discipline.Call)
    (R : DropActiveNetQueue → QueuedPacket → Prop) : Prop :=
  ∀ done ts arrivalTime contents s, done ++ [.enqueue ts arrivalTime contents] <+: calls →
    run step done (ofArgs d) = .ok s → R s { arrivalTime, contents }

theorem AtEnqueue.before {d : DroppingArgs} {done calls : List Discipline.Call}
    {R : DropActiveNetQueue → QueuedPacket → Prop} (h : AtEnqueue d calls R) (hpre : done <+: calls) :
    AtEnqueue d done R := fun _ _ _ _ _ hdone => h _ _ _ _ _ (hdone.trans hpre)

/-- A run whose packets are long enough to have a header, and whose byte sums fit an `int`. -/
def Plain (s : DropActiveNetQueue) (p : QueuedPacket) : Prop :=
  44 ≤ p.size ∧ totalBytes s.internalQueue + p.size < 2 ^ 31

/-- A packet that is not UDP fits. -/
def OtherFits (s : DropActiveNetQueue) (p : QueuedPacket) : Prop := p.isUdp = false → s.WithinWith p

/-- If packets that are not UDP fit, only a `dequeue` of an empty queue can stop the run. -/
theorem run_sound {d : DroppingArgs} (hlog : d.logFd = true) {calls : List Discipline.Call}
    (hplain : AtEnqueue d calls Plain) (hother : AtEnqueue d calls OtherFits) :
    Ensures (· = .emptyQueue) Sound (run step calls (ofArgs d)) := by
  refine ensures_run (P := fun _ s => Sound s) (sound_ofArgs hlog) fun done s c hs hdone hpre => ?_
  cases c with
  | enqueue ts arrivalTime contents =>
      obtain ⟨hsize, hsmall⟩ := hplain done ts arrivalTime contents s hpre hdone
      obtain ⟨s', hs', hsound⟩ := enqueue_sound hs hsize hsmall
        (hother done ts arrivalTime contents s hpre hdone)
      show Ensures _ _ (s.enqueue _)
      rw [hs']
      exact hsound
  | dequeue clock => exact .map (dequeue_sound hs)
  | setBandwidth bandwidth => exact hs.reduced ⟨.refl _, rfl⟩ (.refl _) rfl

/-- The queue keeps within its limits, and no assertion on `good()` fails. -/
structure KeepsLimits (d : DroppingArgs) (calls : List Discipline.Call) : Prop where
  within : ∀ done s, done <+: calls → run step done (ofArgs d) = .ok s →
    s.Within (totalBytes s.internalQueue) s.internalQueue.length
  asserts : run step calls (ofArgs d) ≠ .error .notGood

/-- **Only a packet that is not UDP takes the queue over its limits**, and any that does not fit
does. -/
theorem activeNet_within_iff {d : DroppingArgs} (hlog : d.logFd = true)
    {calls : List Discipline.Call} (hplain : AtEnqueue d calls Plain) :
    KeepsLimits d calls ↔ AtEnqueue d calls OtherFits := by
  constructor
  · intro h done ts arrivalTime contents s hpre hdone hudp
    obtain ⟨p, hp⟩ : ∃ p : QueuedPacket, p = { arrivalTime, contents } := ⟨_, rfl⟩
    rw [← hp] at hudp ⊢
    obtain ⟨header, hheader⟩ : ∃ header, PacketHeader.ofPayload p.contents = .ok header :=
      hp ▸ PacketHeader.ofPayload_ok (hplain _ _ _ _ _ hpre hdone).1
    have hstep : step (.enqueue ts arrivalTime contents) s = .ok (s.accept p) := by
      show s.enqueue { arrivalTime, contents } = _
      rw [← hp, enqueue, hheader, ok_bind, (isUdp_of_ok hheader).symm.trans hudp]
      rfl
    have hwithin := h.within _ (s.accept p) hpre (by rw [run_append, hdone, ok_bind,
      run_singleton, hstep])
    have hbytes : totalBytes (s.accept p).internalQueue = totalBytes s.internalQueue + p.size := by
      simp [accept, DroppingPacketQueue.accept]
    have hpackets : (s.accept p).internalQueue.length = s.internalQueue.length + 1 := by
      simp [accept, DroppingPacketQueue.accept]
    rw [hbytes, hpackets] at hwithin
    exact hwithin
  · intro h
    refine ⟨fun done s hpre hdone => ?_, fun he => ?_⟩
    · exact ((run_sound hlog (hplain.before hpre) (h.before hpre)).of_ok hdone).base.within
    · exact absurd ((run_sound hlog hplain h).of_error he) (by decide)

theorem onePacket_limited : 1 ≠ 0 ∨ 0 ≠ 0 := .inl Nat.one_ne_zero

/-- A log, and room for one packet. -/
def oneLogged : DroppingArgs := ⟨1, 0, true, 0, onePacket_limited⟩

/-- Three packets of 44 bytes, none of them UDP. -/
def threeTcp : List Discipline.Call :=
  List.replicate 3 (.enqueue 0 0 (List.replicate 44 0)) ++ [.dequeue fun _ => 1]

theorem three_tcp_fault : run step threeTcp (ofArgs oneLogged) = .error .notGood := by
  decide +kernel

/-- A UDP packet, and one that is not. -/
def oneOfEach : List Discipline.Call :=
  [.enqueue 0 0 (udpPayload 4433 1 0xc0000001 0), .dequeue fun _ => 1,
    .enqueue 2 2 (List.replicate 44 0)]

theorem activeNet_within_iff_oneOfEach :
    AtEnqueue oneLogged oneOfEach Plain ∧
    (KeepsLimits oneLogged oneOfEach ↔ AtEnqueue oneLogged oneOfEach OtherFits) := by
  have hplain : AtEnqueue oneLogged oneOfEach Plain := by
    intro done ts arrivalTime contents s hprefix hdone
    have hlen := hprefix.length_le
    have htake := List.prefix_iff_eq_take.mp hprefix
    simp only [List.length_append, List.length_singleton] at hlen htake
    have hsizes : ∀ n ≤ 2, ((run step (oneOfEach.take n) (ofArgs oneLogged)).map fun s =>
        decide (totalBytes s.internalQueue ≤ 44)) = .ok true := by decide +kernel
    have hpre : done = oneOfEach.take done.length :=
      List.prefix_iff_eq_take.mp ((List.prefix_append _ _).trans hprefix)
    have hbytes := hsizes done.length (by simp [oneOfEach] at hlen; omega)
    rw [← hpre, hdone] at hbytes
    have htotal : totalBytes s.internalQueue ≤ 44 := by simpa [Except.map] using hbytes
    have hmem : Discipline.Call.enqueue ts arrivalTime contents ∈ oneOfEach :=
      hprefix.subset (by simp)
    have hcontents : contents.length = 44 := by
      simp only [oneOfEach, List.mem_cons, List.not_mem_nil, or_false, reduceCtorEq,
        Discipline.Call.enqueue.injEq, false_or] at hmem
      obtain ⟨-, -, rfl⟩ | ⟨-, -, rfl⟩ := hmem <;> rfl
    have hsmall : totalBytes s.internalQueue + contents.length < 2 ^ 31 := by
      rw [hcontents]
      omega
    exact ⟨hcontents.ge, hsmall⟩
  exact ⟨hplain, activeNet_within_iff rfl hplain⟩

end DropActiveNetQueue

end Mahimahi
