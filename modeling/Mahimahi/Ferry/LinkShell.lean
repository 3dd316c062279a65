import Mahimahi.Ferry.Loop
import Mahimahi.Ferry.SwitchingLink
import Mahimahi.Link.Opportunities
import Mahimahi.Link.Order

/-!
# Ferry — a link under `Ferry::loop`

One direction of a link shell.  The clock that `wait_time` and `read_packet` read never goes back,
and the TUN device hands over datagrams of 1 to `PACKET_SIZE` bytes: its frames.

* `loop_delivers`: what the shell writes are datagrams that it read, whole and in their order, and
  no more bytes of them than the trace has opportunities for.
* `loop_ends`: the shell exits with status 77 once the trace is over, and has written by then
  everything but a packet that the trace cut off.
-/

open Fallible

namespace Mahimahi

inductive LinkShellFault where
  | link (f : LinkFault)
  | write (f : QueueFault)
  deriving DecidableEq, Repr

namespace LinkShell

open LinkQueue AbstractPacketQueue

variable {sched : Schedule} {Q : Type} [AbstractPacketQueue Q]

/-- `LinkQueue`, as the loop uses it.  The loop of its `write_packets` is that of a `LossQueue`. -/
def ferry : FerryQueueType LinkShellFault Nat (LinkQueue sched Q) where
  readPacket now contents s := (s.readPacket now contents).mapError .link
  writePackets _ kernel s := do
    let pieces ← (LossQueue.writePackets kernel 0 s.outputQueue).mapError .write
    return (pieces, s.writePackets)
  waitTime now s := (s.waitTime now).mapError .link
  pendingOutput _ s := !s.outputQueue.isEmpty
  finished _ s := s.finished

def toCall : FerryCall Nat → Call
  | .readPacket now contents => .readPacket now contents
  | .writePackets _ _ => .writePackets
  | .waitTime now => .waitTime now

/-- What is read from the TUN device, and when, if it is read. -/
def arrivals (rounds : List (FerryRound Nat)) : List (Nat × Payload) :=
  rounds.flatMap fun r => (r.turns 0).served.datagram.toList.map ((r.turns 0).served.queue, ·)

theorem arrivals_cons (r : FerryRound Nat) (rounds : List (FerryRound Nat)) :
    arrivals (r :: rounds) =
      (r.turns 0).served.datagram.toList.map ((r.turns 0).served.queue, ·) ++ arrivals rounds := rfl

/-- The readings of the clock. -/
def readings (rounds : List (FerryRound Nat)) : List Nat :=
  rounds.flatMap fun r => [r.waits, (r.turns 0).served.queue, (r.turns 1).served.queue]

structure Lawful (rounds : List (FerryRound Nat)) : Prop where
  clock : (readings rounds).Pairwise (· ≤ ·)
  size : ∀ a ∈ arrivals rounds, 1 ≤ a.2.length ∧ a.2.length ≤ PACKET_SIZE

/-! ### The calls -/

theorem read_whole {d : Payload} (h : d.length ≤ PACKET_SIZE) :
    FileDescriptor.read d FileDescriptor.BUFFER_SIZE = d :=
  List.take_of_length_le (h.trans (by decide))

theorem calls_cons (r : FerryRound Nat) : r.calls.map toCall =
    .waitTime r.waits :: ((r.turns 0).served.datagram.toList.map fun d =>
        .readPacket (r.turns 0).served.queue (FileDescriptor.read d FileDescriptor.BUFFER_SIZE)) ++
      ((r.turns 1).served.kernel.toList.map fun _ => .writePackets) := by
  show Call.waitTime r.waits :: ([0, 1, 2, 3].flatMap (FerryRound.callOf r.turns)).map toCall = _
  cases hd : (r.turns 0).served.datagram <;> cases hk : (r.turns 1).served.kernel <;>
    simp [FerryRound.callOf, hd, hk, toCall]

/-- The calls of a loop. -/
def callsOf (rounds : List (FerryRound Nat)) : List Call :=
  (rounds.flatMap FerryRound.calls).map toCall

theorem callsOf_cons (r : FerryRound Nat) (rounds : List (FerryRound Nat)) :
    callsOf (r :: rounds) = r.calls.map toCall ++ callsOf rounds := by
  rw [callsOf, List.flatMap_cons, List.map_append]
  rfl

theorem clocks_callsOf (rounds : List (FerryRound Nat)) :
    (clocks (callsOf rounds)).Sublist (readings rounds) := by
  induction rounds with
  | nil => exact .refl _
  | cons r rounds ih =>
      rw [callsOf_cons, clocks, List.filterMap_append]
      refine List.Sublist.append ?_ ih
      rw [calls_cons]
      cases (r.turns 0).served.datagram <;> cases (r.turns 1).served.kernel <;>
        simp [Call.clock?]

theorem offered_callsOf {rounds : List (FerryRound Nat)} (h : Lawful rounds) :
    (offered (callsOf rounds)).map QueuedPacket.entry = arrivals rounds := by
  have hsize := h.size
  clear h
  induction rounds with
  | nil => rfl
  | cons r rounds ih =>
      rw [arrivals_cons, List.forall_mem_append] at hsize
      rw [callsOf_cons, offered_append, List.map_append, ih hsize.2, arrivals_cons]
      congr 1
      rw [calls_cons]
      cases hd : (r.turns 0).served.datagram with
      | none => cases (r.turns 1).served.kernel <;> rfl
      | some d =>
          have hle : d.length ≤ PACKET_SIZE :=
            (hsize.1 ((r.turns 0).served.queue, d) (by simp [hd])).2
          rw [Option.toList_some, List.map_singleton, read_whole hle]
          cases (r.turns 1).served.kernel <;> rfl

theorem orderly_callsOf {rounds : List (FerryRound Nat)} (h : Lawful rounds) :
    Orderly (callsOf rounds) where
  clock := h.clock.sublist (clocks_callsOf rounds)
  size now contents hmem := by
    refine h.size (now, contents) ?_
    rw [← offered_callsOf h]
    exact List.mem_map.mpr ⟨{ arrivalTime := now, contents },
      List.mem_filterMap.mpr ⟨_, hmem, rfl⟩, rfl⟩

/-- The time of a call. -/
def stamp : FerryCall Nat → Nat
  | .readPacket now _ | .writePackets now _ | .waitTime now => now

theorem stamps_sorted {rounds : List (FerryRound Nat)} (h : Lawful rounds)
    {calls : List (FerryCall Nat)} (hsub : calls.Sublist (rounds.flatMap FerryRound.calls)) :
    (calls.map stamp).Pairwise (· ≤ ·) := by
  refine h.clock.sublist ((hsub.map stamp).trans ?_)
  clear hsub
  induction rounds with
  | nil => exact .refl _
  | cons r rounds ih =>
      have hclock := h.clock
      rw [readings, List.flatMap_cons] at hclock
      have hrest : Lawful rounds :=
        ⟨(List.pairwise_append.mp hclock).2.1, (List.forall_mem_append.mp h.size).2⟩
      rw [List.flatMap_cons, List.map_append]
      refine List.Sublist.append ?_ (ih hrest)
      show (stamp (.waitTime r.waits) ::
        ([0, 1, 2, 3].flatMap (FerryRound.callOf r.turns)).map stamp).Sublist _
      cases hd : (r.turns 0).served.datagram <;> cases hk : (r.turns 1).served.kernel <;>
        simp [FerryRound.callOf, hd, hk, stamp]

theorem clock_le_stamps {calls : List (FerryCall Nat)} {now : Nat}
    (hnow : ∀ t ∈ calls.map stamp, t ≤ now) : ∀ t ∈ clocks (calls.map toCall), t ≤ now := by
  intro t ht
  obtain ⟨c, hc, hclock⟩ := List.mem_filterMap.mp ht
  obtain ⟨call, hcall, rfl⟩ := List.mem_map.mp hc
  have hstamp := hnow _ (List.mem_map_of_mem hcall)
  cases call with
  | readPacket now' contents => cases hclock; exact hstamp
  | waitTime now' => cases hclock; exact hstamp
  | writePackets now' kernel => cases hclock

/-! ### The link -/

variable {repeats logging : Bool} {q : Q} {calls : List Call} {s : LinkQueue sched Q}

/-- The link is never offered too much, and its assertions hold. -/
def Checked (e : LinkFault) : Prop := e ≠ .tooLarge ∧ NotAsserted e

theorem burn_small {now t : Nat} (s : LinkQueue sched Q) :
    Ensures (· ≠ .tooLarge) (fun _ => True) (s.burn now t) := by
  have hload : ∀ s : LinkQueue sched Q, Ensures (· ≠ .tooLarge) (fun _ => True) (s.load now) := by
    intro s
    unfold load
    split
    · refine Ensures.bind (P := fun _ => True) (ensures_ofQueue.mpr ?_) fun _ _ => trivial
      cases dequeue now s.packetQueue with
      | error f => exact fun h => nomatch h
      | ok r => trivial
    · trivial
  have hcheck : ∀ s : LinkQueue sched Q, Ensures (· ≠ .tooLarge) (fun _ => True)
      (s.checkInTransit t) := by
    intro s
    unfold checkInTransit
    repeat' split
    all_goals first | trivial | exact fun h => nomatch h
  refine burn_ensures (serve_ensures (P := fun _ _ _ => True) ?_ (fun _ _ _ => trivial)
    (fun _ _ _ _ _ _ _ => trivial) le_rfl trivial)
  intro bytesLeft sent s _ _ _
  refine (sendSome_ensures (R := fun _ => True) ((hload s).mono fun s₁ _ => ?_)).mono
    fun _ _ _ => trivial
  refine (hcheck s₁).mono fun _ _ => ⟨fun _ => trivial, fun _ => ?_⟩
  exact depart_ensures (fun _ _ _ h => nomatch h) fun _ _ _ => trivial

/-- The run of a link that is called in order. -/
theorem run_checked (C : PacketContract Q) (hq : C.held q = 0) (ho : Orderly calls) :
    Ensures Checked (fun s => Sound C s.Early 0 s)
      (run Call.step calls (ofArgs sched repeats logging q)) := by
  have hsmall := @run_ensures sched Q _ (· ≠ .tooLarge) (fun _ _ => True) repeats logging q calls trivial
    (fun _ s _ _ _ _ _ _ _ => burn_small s) ?_ (fun _ _ _ _ => trivial) (fun _ _ _ => trivial) ho
  · have hsound := @run_ensures sched Q _ NotAsserted (fun _ s => Sound C s.Early 0 s) repeats
      logging q calls
      ⟨by simp [ofArgs, hq], fun hpos => absurd hpos (Nat.lt_irrefl 0), Nat.zero_le _, rfl, rfl,
        by simp [ofArgs]⟩
      (fun _ _ _ _ _ hs h ht _ => burn_sound hs h ht)
      (fun _ _ _ _ _ hs h hsize hused => enqueuePacket_sound hs h hsize hused)
      (fun _ _ _ h => h) (fun _ _ h => writePackets_sound h) ho
    cases hx : run Call.step calls (ofArgs sched repeats logging q) with
    | error e => exact ⟨hsmall.of_error hx, hsound.of_error hx⟩
    | ok s => exact (hsound.of_ok hx).1
  · intro _ s now contents _ _ _ _ _
    cases hx : s.enqueuePacket now contents with
    | error e =>
        rcases enqueuePacket_error hx with ⟨f, rfl⟩ | rfl | rfl
        all_goals
          intro h
          cases h
    | ok s' => trivial

variable {F : FifoQueue Q}

theorem held_nil (hq : (F.counted q).entries = []) : F.contract.held q = 0 := by
  show Multiset.ofList _ = 0
  rw [show (F.counted q).internalQueue.map QueuedPacket.entry = [] from hq]
  rfl

/-- **Only the packet queue fails** when a link is called in order. -/
theorem run_faults (hcounted : (F.counted q).Counted)
    (hq : (F.counted q).entries = []) (ho : Orderly calls) {e : LinkFault}
    (h : run Call.step calls (ofArgs sched repeats logging q) = .error e) : ∃ f, e = .queue f := by
  obtain ⟨hlarge, hlate, hover, hnothing, hcontents⟩ :=
    (run_checked F.contract (held_nil hq) ho).of_error h
  obtain ⟨hpackets, hbytes⟩ := (run_fits hcounted hq ho).of_error h
  cases e with
  | queue f => exact ⟨f, rfl⟩
  | tooLarge => exact absurd rfl hlarge
  | arrivedLate => exact absurd rfl hlate
  | overSize => exact absurd rfl hover
  | nothingLeft => exact absurd rfl hnothing
  | overContents => exact absurd rfl hcontents
  | packetsGrew => exact absurd rfl hpackets
  | bytesGrew => exact absurd rfl hbytes

/-- A link that is called in order has used the opportunities of the trace up to its last reading of
the clock. -/
theorem run_inStep (ho : Orderly calls)
    (h : run Call.step calls (ofArgs sched repeats logging q) = .ok s) :
    InStep repeats calls s := by
  refine ensures_iff.mp (ensures_run (P := fun done (s : LinkQueue sched Q) =>
    InStep repeats done s) (inStep_ofArgs repeats logging q) ?_) s h
  intro done s c hs _ hpre
  have ho' : Orderly (done ++ [c]) := ho.before hpre
  have hupdate : ∀ {now : Nat}, c.clock? = some now → Ensures (fun _ => True)
      (fun s' : LinkQueue sched Q => OnSchedule s' ∧ s'.repeats = repeats ∧
        s'.used = due sched repeats now) (s.rationalize now) := by
    intro now hc
    refine (rationalize_ensures (P := fun _ => True)
      (fun _ _ _ _ _ _ => ensures_iff.mpr fun _ _ => trivial) hs.onSchedule trivial).mono ?_
    rintro s' ⟨-, hs', hrep, hused⟩
    rw [hs.repeats_eq] at hrep hused
    have hnot : s.used ≤ due sched repeats now := hs.le_due now (ho'.clock_le hc)
    exact ⟨hs', hrep, hused.trans (Nat.max_eq_right hnot)⟩
  cases c with
  | readPacket now contents =>
      have hsize := ho'.size now contents (by simp)
      have hread : Call.step (.readPacket now contents) s =
          s.rationalize now >>= enqueuePacket now contents := if_neg (Nat.not_lt.mpr hsize.2)
      rw [hread]
      refine (hupdate rfl).bind fun s₁ ⟨hs₁, hrep₁, hused₁⟩ => ensures_iff.mpr fun s₂ hs₂ => ?_
      obtain ⟨q, log, -, rfl⟩ := enqueuePacket_ok hs₂
      exact .of_clock ho' rfl (onSchedule_congr (s := s₁) rfl hs₁) hrep₁ hused₁
  | waitTime now =>
      refine Ensures.map ((hupdate rfl).bind fun s₁ ⟨hs₁, hrep₁, hused₁⟩ => ?_)
      exact .of_clock ho' rfl hs₁ hrep₁ hused₁
  | writePackets =>
      have hclocks : clocks (done ++ [.writePackets]) = clocks done := by simp [clocks, Call.clock?]
      exact ⟨onSchedule_congr (s := s) rfl hs.onSchedule, hs.repeats_eq, hclocks ▸ hs.due_le,
        hclocks ▸ hs.le_due⟩

/-! ### The ferry and the link -/

/-- What is known of a link that was called in order: its packets are some of those offered. -/
structure Delivers (F : FifoQueue Q) (repeats : Bool) (calls : List Call) (s : LinkQueue sched Q) :
    Prop where
  flow : s.pushed ++ s.inTransit = s.history.taken.map QueuedPacket.contents
  offered : (s.entries F).Sublist ((offered calls).map QueuedPacket.entry)
  bytes : s.pushed.flatten.length ≤ PACKET_SIZE * s.used
  inStep : InStep repeats calls s

/-- **What a link that is called in order does.** -/
theorem run_delivers (hq : (F.counted q).entries = []) (ho : Orderly calls)
    (h : run Call.step calls (ofArgs sched repeats logging q) = .ok s) :
    Delivers F repeats calls s := by
  have hsound := (run_checked F.contract (held_nil hq) ho).of_ok h
  refine ⟨hsound.flow, taken_offered F hq ho h, ?_, run_inStep ho h⟩
  have hflow := congrArg (fun l => (l.map List.length).sum) hsound.flow
  have hbytes := hsound.bytes
  have hsent : s.sentBytes ≤ PACKET_SIZE * s.used := by
    have husage := hsound.usage
    rw [sentBytes, used]
    generalize s.history.opportunities = used at husage ⊢
    induction used with
    | nil => exact Nat.zero_le _
    | cons o os ih =>
        obtain ⟨ho, hos⟩ := List.forall_mem_cons.mp husage
        have := ih hos
        simp only [List.map_cons, List.sum_cons, List.length_cons, Nat.mul_succ]
        omega
  have htransit : s.packetInTransitBytesLeft ≤ (s.inTransit.map List.length).sum := by
    have hleft := hsound.left
    unfold inTransit
    split
    · omega
    · simpa [QueuedPacket.size] using hleft
  have htaken : s.takenBytes = ((s.history.taken.map QueuedPacket.contents).map List.length).sum := by
    rw [takenBytes, List.map_map]
    rfl
  rw [List.length_flatten]
  simp only [List.map_append, List.sum_append] at hflow
  omega

/-- The packets that come out of a link are not empty. -/
theorem Delivers.nonempty (h : Delivers F repeats calls s) (ho : Orderly calls) :
    ∀ c ∈ s.pushed, c ≠ [] := by
  intro c hc
  have htaken : c ∈ s.history.taken.map QueuedPacket.contents :=
    h.flow ▸ List.mem_append_left _ hc
  obtain ⟨p, hp, rfl⟩ := List.mem_map.mp htaken
  have hentry : p.entry ∈ (LinkQueue.offered calls).map QueuedPacket.entry :=
    h.offered.subset (List.mem_append_left _ (List.mem_map_of_mem hp))
  obtain ⟨p', hp', hsame⟩ := List.mem_map.mp hentry
  obtain ⟨call, hcall, hoffer⟩ := List.mem_filterMap.mp hp'
  cases call with
  | readPacket now contents =>
      cases hoffer
      have hsize := (ho.size now contents hcall).1
      rw [show p.contents = contents from (congrArg Prod.snd hsame).symm]
      exact List.length_pos_iff.mp hsize
  | waitTime now => cases hoffer
  | writePackets => cases hoffer

/-- Nothing has been written, and packets may have been taken and put into the output. -/
structure Pushes (s₀ s : LinkQueue sched Q) : Prop where
  written : s.history.written = s₀.history.written
  output : s₀.outputQueue <+: s.outputQueue
  taken : s₀.history.taken <+: s.history.taken

theorem burn_pushes {now t : Nat} {s₀ : LinkQueue sched Q} (hs : Pushes s₀ s) :
    Ensures (fun _ => True) (Pushes s₀) (s.burn now t) := by
  have hload : ∀ s : LinkQueue sched Q, Pushes s₀ s →
      Ensures (fun _ => True) (Pushes s₀) (s.load now) := by
    intro s hs
    refine ensures_iff.mpr fun s' hs' => ?_
    rcases load_ok hs' with ⟨-, p, q, -, rfl⟩ | ⟨-, rfl⟩
    · exact ⟨hs.written, hs.output, hs.taken.trans (List.prefix_append _ _)⟩
    · exact hs
  refine burn_ensures (serve_ensures (P := fun _ _ (s : LinkQueue sched Q) => Pushes s₀ s)
    ?_ (fun _ _ h => ⟨h.written, h.output, h.taken⟩)
    (fun _ _ _ _ h _ _ => ⟨h.written, h.output, h.taken⟩) le_rfl ?_)
  · intro bytesLeft sent s _ hs _
    refine (sendSome_ensures (R := fun r => Pushes s₀ r.2) ((hload s hs).mono
      fun s₁ hs₁ => ensures_iff.mpr fun _ _ => ?_)).mono fun _ h _ => h
    exact ⟨fun _ => ⟨hs₁.written, hs₁.output, hs₁.taken⟩,
      fun _ => depart_ensures (fun _ _ _ => trivial) fun _ _ _ =>
        ⟨hs₁.written, hs₁.output.trans (List.prefix_append _ _), hs₁.taken⟩⟩
  · obtain ⟨_, _, _, _, hframe⟩ := useADeliveryOpportunity_frame s
    rw [hframe]
    exact ⟨hs.written, hs.output, hs.taken⟩

/-- Nothing but `write_packets` writes. -/
theorem step_pushes {c : Call} {s' : LinkQueue sched Q} (hs : OnSchedule s)
    (hc : c ≠ .writePackets) (h : c.step s = .ok s') : Pushes s s' := by
  have hupdate : ∀ now, Ensures (fun _ => True) (Pushes s) (s.rationalize now) := fun now =>
    (rationalize_ensures (P := Pushes s) (fun _ _ _ hs' _ _ => burn_pushes hs') hs
      ⟨rfl, List.prefix_rfl, List.prefix_rfl⟩).mono fun _ hs' => hs'.1
  cases c with
  | readPacket now contents =>
      have h : s.readPacket now contents = .ok s' := h
      rw [readPacket] at h
      split at h
      · cases h
      · obtain ⟨s₁, hs₁, h⟩ := bind_ok.mp h
        obtain ⟨q, log, -, rfl⟩ := enqueuePacket_ok h
        have hpushes := (hupdate now).of_ok hs₁
        exact ⟨hpushes.written, hpushes.output, hpushes.taken⟩
  | waitTime now =>
      obtain ⟨r, hr, rfl⟩ := of_map_ok (x := s.waitTime now) h
      unfold waitTime at hr
      obtain ⟨s₁, hs₁, hr⟩ := bind_ok.mp hr
      cases hr
      have hpushes := (hupdate now).of_ok hs₁
      exact hpushes
  | writePackets => exact absurd rfl hc

/-- An opportunity takes packets that came before it. -/
theorem burn_before {now t : Nat} {A : Nat → Prop} (hA : ∀ a, a < t → A a)
    (hheld : ∀ e ∈ (F.counted s.packetQueue).entries, e.1 < t)
    (htaken : ∀ p ∈ s.history.taken, A p.arrivalTime) :
    Ensures (fun _ => True) (fun s' => ∀ p ∈ s'.history.taken, A p.arrivalTime) (s.burn now t) := by
  let Before (s : LinkQueue sched Q) : Prop :=
    (∀ e ∈ (F.counted s.packetQueue).entries, e.1 < t) ∧ ∀ p ∈ s.history.taken, A p.arrivalTime
  have hload : ∀ s : LinkQueue sched Q, Before s →
      Ensures (fun _ => True) Before (s.load now) := by
    intro s hs
    refine ensures_iff.mpr fun s' hs' => ?_
    rcases load_ok hs' with ⟨-, p, q, hq, rfl⟩ | ⟨-, rfl⟩
    · have hyields := (F.dequeue_ok hq).entries
      refine ⟨fun e he => hs.1 e (hyields.subset (List.mem_cons_of_mem _ he)), fun p' hp' => ?_⟩
      rcases List.mem_append.mp hp' with hp' | hp'
      · exact hs.2 p' hp'
      · rw [List.mem_singleton.mp hp']
        exact hA _ (hs.1 _ (hyields.subset List.mem_cons_self))
    · exact hs
  refine burn_ensures (serve_ensures (P := fun _ _ (s : LinkQueue sched Q) => Before s)
    ?_ (fun _ _ h => h.2) (fun _ _ _ _ h _ _ => h.2) le_rfl ?_)
  · intro bytesLeft sent s _ hs _
    refine (sendSome_ensures (R := fun r => Before r.2) ((hload s hs).mono
      fun s₁ hs₁ => ensures_iff.mpr fun _ _ => ?_)).mono fun _ h _ => h
    exact ⟨fun _ => hs₁, fun _ => depart_ensures (fun _ _ _ => trivial) fun _ _ _ => hs₁⟩
  · obtain ⟨_, _, _, _, hframe⟩ := useADeliveryOpportunity_frame s
    rw [hframe]
    exact ⟨by rw [F.setBandwidth_eq]; exact hheld, htaken⟩

/-- What the link has taken came before a reading of the clock. -/
theorem run_before (hq : (F.counted q).entries = []) (ho : Orderly calls)
    (h : run Call.step calls (ofArgs sched repeats logging q) = .ok s) :
    ∀ p ∈ s.history.taken, ∃ t ∈ clocks calls, p.arrivalTime < t := by
  refine ensures_iff.mp (ensures_run (P := fun done (s : LinkQueue sched Q) =>
    ∀ p ∈ s.history.taken, ∃ t ∈ clocks done, p.arrivalTime < t) (by simp [ofArgs]) ?_) s h
  intro done s c hs hrun hpre
  have hdone : Orderly done := ho.before ((List.prefix_append _ _).trans hpre)
  have hlater : ∀ p ∈ s.history.taken, ∃ t ∈ clocks (done ++ [c]), p.arrivalTime < t := by
    intro p hp
    obtain ⟨t, ht, hlt⟩ := hs p hp
    exact ⟨t, by rw [clocks, List.filterMap_append]; exact List.mem_append_left _ ht, hlt⟩
  have hupdate : ∀ {now : Nat}, c.clock? = some now → Ensures (fun _ => True)
      (fun s' : LinkQueue sched Q => ∀ p ∈ s'.history.taken,
        ∃ t ∈ clocks (done ++ [c]), p.arrivalTime < t) (s.rationalize now) := by
    intro now hc
    have hnow : now ∈ clocks (done ++ [c]) := by simp [clocks, hc]
    refine (rationalize_ensures (P := fun s' => Sound F.contract s'.Early 0 s' ∧
      ∀ p ∈ s'.history.taken, ∃ t ∈ clocks (done ++ [c]), p.arrivalTime < t)
      (fun s' t hschedule hs' ht hle => ensures_iff.mpr fun s'' hs'' => ?_)
      (run_inStep hdone hrun).onSchedule
      ⟨(run_checked F.contract (held_nil hq) hdone).of_ok hrun, hlater⟩).mono fun _ h => h.1.2
    refine ⟨(burn_sound hschedule hs'.1 ht).of_ok hs'', (burn_before (F := F)
      (A := fun a => ∃ t ∈ clocks (done ++ [c]), a < t) (fun a ha => ⟨now, hnow, by omega⟩)
      (fun e he => ?_) hs'.2).of_ok hs''⟩
    exact (hs'.1.held e (Multiset.mem_coe.mpr he)).2 t ht
  cases c with
  | readPacket now contents =>
      show Ensures _ _ (s.readPacket now contents)
      rw [readPacket]
      split
      · trivial
      · refine (hupdate rfl).bind fun s₁ hs₁ => ensures_iff.mpr fun s₂ hs₂ => ?_
        obtain ⟨q, log, -, rfl⟩ := enqueuePacket_ok hs₂
        exact hs₁
  | waitTime now => exact Ensures.map ((hupdate rfl).bind fun s₁ hs₁ => hs₁)
  | writePackets => exact hlater

/-- What was written is a packet that came before. -/
def Carries (o : Nat × List Payload) (e : Nat × Payload) : Prop := o.2.flatten = e.2 ∧ e.1 < o.1

theorem carries_pieces {now : Nat} : ∀ {pieces : List (List Payload)} {l : List (Nat × Payload)},
    pieces.map List.flatten = l.map Prod.snd → (∀ e ∈ l, e.1 < now) →
      List.Forall₂ Carries (pieces.map (now, ·)) l := by
  intro pieces
  induction pieces with
  | nil =>
      intro l hl _
      obtain rfl := List.map_eq_nil_iff.mp hl.symm
      exact .nil
  | cons piece pieces ih =>
      intro l hl hbefore
      cases l with
      | nil => cases hl
      | cons e l =>
          obtain ⟨hpiece, hrest⟩ := List.cons.inj hl
          obtain ⟨he, hl⟩ := List.forall_mem_cons.mp hbefore
          exact .cons ⟨hpiece, he⟩ (ih hrest hl)

theorem carries_contents {sent : List (Nat × List Payload)} {l : List (Nat × Payload)}
    (h : List.Forall₂ Carries sent l) : sent.map (·.2.flatten) = l.map Prod.snd := by
  induction h with
  | nil => rfl
  | cons hfirst _ ih => exact congrArg₂ List.cons hfirst.1 ih

/-- What the ferry has written: the first packets that the link has taken. -/
structure Written (s : LinkQueue sched Q) (sent : List (Nat × List Payload)) : Prop where
  contents : sent.map (·.2.flatten) = s.history.written
  carries : ∃ l, l <+: s.history.taken.map QueuedPacket.entry ∧ List.Forall₂ Carries sent l

omit [AbstractPacketQueue Q] in
theorem Written.pushes {s' : LinkQueue sched Q} {sent : List (Nat × List Payload)}
    (h : Written s sent) (hpushes : Pushes s s') : Written s' sent := by
  obtain ⟨l, hl, hcarries⟩ := h.carries
  exact ⟨h.contents.trans hpushes.written.symm, l, hl.trans (hpushes.taken.map _), hcarries⟩

omit [AbstractPacketQueue Q] in
/-- `write_packets` writes the packets that were taken next. -/
theorem Written.writes {sent : List (Nat × List Payload)} {now : Nat}
    {pieces : List (List Payload)} (h : Written s sent)
    (hflow : s.pushed ++ s.inTransit = s.history.taken.map QueuedPacket.contents)
    (hpieces : pieces.map List.flatten = s.outputQueue)
    (hbefore : ∀ p ∈ s.history.taken, p.arrivalTime < now) :
    Written s.writePackets (sent ++ pieces.map (now, ·)) := by
  obtain ⟨l, ⟨rest, hrest⟩, hcarries⟩ := h.carries
  have hnext : (l ++ rest).map Prod.snd =
      s.history.written ++ (s.outputQueue ++ s.inTransit) := by
    rw [hrest, List.map_map, ← List.append_assoc]
    exact hflow.symm
  rw [List.map_append, ← h.contents, carries_contents hcarries] at hnext
  obtain ⟨l₂, l₃, rfl, houtput, -⟩ :=
    List.map_eq_append_iff.mp (List.append_cancel_left hnext)
  refine ⟨?_, l ++ l₂, ?_, List.rel_append hcarries
    (carries_pieces (hpieces.trans houtput.symm) fun e he => ?_)⟩
  · show (sent ++ pieces.map (now, ·)).map (·.2.flatten) = s.history.written ++ s.outputQueue
    rw [List.map_append, h.contents, List.map_map, ← hpieces]
    rfl
  · exact ⟨l₃, by rw [List.append_assoc]; exact hrest⟩
  · have hmem : e ∈ s.history.taken.map QueuedPacket.entry := hrest ▸
      List.mem_append_right _ (List.mem_append_left _ he)
    obtain ⟨p, hp, rfl⟩ := List.mem_map.mp hmem
    exact hbefore p hp

/-- **A run of the ferry is a run of the link.** -/
theorem ferry_run (hq : (F.counted q).entries = []) {calls : List (FerryCall Nat)}
    (ho : Orderly (calls.map toCall)) (hsorted : (calls.map stamp).Pairwise (· ≤ ·)) :
    Ensures (fun e => ∃ f, e = .link f ∧
        run Call.step (calls.map toCall) (ofArgs sched repeats logging q) = .error f)
      (fun v => run Call.step (calls.map toCall) (ofArgs sched repeats logging q) = .ok v.1 ∧
        Written v.1 v.2)
      (run (FerryCall.step ferry) calls (ofArgs sched repeats logging q, [])) := by
  refine ensures_run (P := fun done (v : LinkQueue sched Q × List (Nat × List Payload)) =>
    run Call.step (done.map toCall) (ofArgs sched repeats logging q) = .ok v.1 ∧
      Written v.1 v.2) ⟨rfl, rfl, [], List.nil_prefix, .nil⟩ ?_
  rintro done ⟨s, sent⟩ call ⟨hrun, hwritten⟩ - hpre
  have hdone : Orderly (done.map toCall) :=
    ho.before (((List.prefix_append done [call]).trans hpre).map toCall)
  have hnext : Orderly ((done ++ [call]).map toCall) := ho.before (hpre.map toCall)
  have hsnoc : run Call.step ((done ++ [call]).map toCall) (ofArgs sched repeats logging q) =
      Call.step (toCall call) s := by
    rw [List.map_append, run_append, hrun, ok_bind, List.map_singleton, run_singleton]
  have hfails : ∀ {f : LinkFault}, Call.step (toCall call) s = .error f →
      run Call.step (calls.map toCall) (ofArgs sched repeats logging q) = .error f := by
    intro f hf
    obtain ⟨rest, rfl⟩ := hpre
    rw [List.map_append]
    exact run_error_append (hsnoc.trans hf) _
  rw [hsnoc]
  have hschedule : OnSchedule s := (run_inStep hdone hrun).onSchedule
  cases call with
  | readPacket now contents =>
      show Ensures _ _ (((s.readPacket now contents).mapError LinkShellFault.link).map _)
      cases hread : s.readPacket now contents with
      | error f => exact ⟨f, rfl, hfails hread⟩
      | ok s' =>
          exact ⟨hread, hwritten.pushes (step_pushes (c := .readPacket now contents) hschedule
            (fun h => nomatch h) hread)⟩
  | waitTime now =>
      show Ensures _ _ (((s.waitTime now).mapError LinkShellFault.link).map _)
      cases hwait : s.waitTime now with
      | error f => exact ⟨f, rfl, hfails (by rw [toCall, Call.step, hwait]; rfl)⟩
      | ok r =>
          have hstep : Call.step (.waitTime now) s = .ok r.2 := by rw [Call.step, hwait]; rfl
          exact ⟨hstep, hwritten.pushes (step_pushes (c := .waitTime now) hschedule
            (fun h => nomatch h) hstep)⟩
  | writePackets now kernel =>
      have hdelivers := run_delivers hq hdone hrun
      have hne : ∀ c ∈ s.outputQueue, c ≠ [] := fun c hc =>
        hdelivers.nonempty hdone c (List.mem_append_right _ hc)
      obtain ⟨pieces, hpieces⟩ := LossQueue.writePackets_returns kernel (n := 0) hne
      have hwrite : ferry.writePackets now kernel s = .ok (pieces, s.writePackets) := by
        show (_ >>= _) = _
        rw [hpieces]
        rfl
      have hbefore : ∀ p ∈ s.history.taken, p.arrivalTime < now := by
        intro p hp
        obtain ⟨t, ht, hlt⟩ := run_before hq hdone hrun p hp
        refine Nat.lt_of_lt_of_le hlt (clock_le_stamps (fun u hu => ?_) t ht)
        have hpair := hsorted.sublist (hpre.sublist.map stamp)
        rw [List.map_append] at hpair
        exact (List.pairwise_append.mp hpair).2.2 u hu now List.mem_cons_self
      rw [FerryCall.step, hwrite]
      exact ⟨rfl, hwritten.writes hdelivers.flow (LossQueue.of_writePackets_ok hpieces) hbefore⟩

/-! ### The loop -/

variable {rounds : List (FerryRound Nat)}

theorem orderly_sublist {calls calls' : List Call} (h : Orderly calls')
    (hsub : calls.Sublist calls') :
    Orderly calls where
  clock := h.clock.sublist (hsub.filterMap _)
  size now contents hmem := h.size now contents (hsub.subset hmem)

theorem orderly_of_sublist (h : Lawful rounds) {calls : List (FerryCall Nat)}
    (hsub : calls.Sublist (rounds.flatMap FerryRound.calls)) : Orderly (calls.map toCall) :=
  orderly_sublist (orderly_callsOf h) (hsub.map toCall)

theorem offered_received (calls : List (FerryCall Nat)) :
    (offered (calls.map toCall)).map QueuedPacket.entry =
      calls.filterMap FerryCall.received? := by
  induction calls with
  | nil => rfl
  | cons call calls ih =>
      rw [List.map_cons, ← List.singleton_append, offered_append, List.map_append, ih]
      cases call <;> rfl

/-- What a link has taken in a loop. -/
theorem Delivers.received {calls : List (FerryCall Nat)}
    (hs : Delivers F repeats (calls.map toCall) s) :
    (s.history.taken.map QueuedPacket.entry).Sublist (calls.filterMap FerryCall.received?) := by
  rw [← offered_received]
  exact (List.sublist_append_left _ _).trans hs.offered

theorem Delivers.arrivals (h : Lawful rounds) {calls : List (FerryCall Nat)}
    (hsub : calls.Sublist (rounds.flatMap FerryRound.calls))
    (hs : Delivers F repeats (calls.map toCall) s) :
    (s.history.taken.map QueuedPacket.entry).Sublist (arrivals rounds) := by
  refine hs.received.trans ?_
  rw [← offered_callsOf h, ← offered_received]
  exact ((hsub.map toCall).filterMap Call.offered?).map QueuedPacket.entry

/-- How the loop may end in an exception: one of the packet queue, of a system call, of a signal, or a
busy wait that is reported when 2³² bytes have come. -/
def Excused (rounds : List (FerryRound Nat)) : Poller.PollFault (FerryFault LinkShellFault) → Prop
  | .callback (.queue (.link e)) => ∃ f, e = .queue f
  | .callback (.queue (.write _)) => False
  | .callback .systemCall | .callback .signal => True
  | .busyWait => 2 ^ 32 ≤ ((arrivals rounds).map Prod.snd).flatten.length

/-- Packets that waited to be written still do when a datagram has been read. -/
theorem reads_pushes (ho : Orderly calls)
    (hrun : run Call.step calls (ofArgs sched repeats logging q) = .ok s)
    {turns : Nat → Poller.Turn (FerryAnswer Nat)} {reads : List (FerryCall Nat)}
    (hreads : reads.Sublist (FerryRound.callOf turns 0)) {s' : LinkQueue sched Q}
    (h : run Call.step (reads.map toCall) s = .ok s') : s.outputQueue <+: s'.outputQueue := by
  cases hd : (turns 0).served.datagram with
  | none =>
      rw [FerryRound.callOf, hd] at hreads
      obtain rfl := List.sublist_nil.mp hreads
      cases h
      exact List.prefix_rfl
  | some d =>
      rw [FerryRound.callOf, hd] at hreads
      rcases List.sublist_singleton.mp hreads with rfl | rfl
      · cases h
        exact List.prefix_rfl
      · rw [List.map_singleton, run_singleton] at h
        exact (step_pushes (run_inStep ho hrun).onSchedule (by simp [toCall]) h).2

theorem ferry_calls (hq : (F.counted q).entries = []) (h : Lawful rounds)
    {calls : List (FerryCall Nat)} (hsub : calls.Sublist (rounds.flatMap FerryRound.calls)) :
    Ensures (fun e => ∃ f, e = .link f ∧
        run Call.step (calls.map toCall) (ofArgs sched repeats logging q) = .error f)
      (fun v => run Call.step (calls.map toCall) (ofArgs sched repeats logging q) = .ok v.1 ∧
        Delivers F repeats (calls.map toCall) v.1 ∧ Written v.1 v.2)
      (run (FerryCall.step ferry) calls (ofArgs sched repeats logging q, [])) :=
  (ferry_run hq (orderly_of_sublist h hsub) (stamps_sorted h hsub)).mono fun _ hv =>
    ⟨hv.1, run_delivers hq (orderly_of_sublist h hsub) hv.1, hv.2⟩

theorem loop_excused (hcounted : (F.counted q).Counted) (hq : (F.counted q).entries = [])
    (h : Lawful rounds) :
    ∀ e, Ferry.loop ferry (ofArgs sched repeats logging q) rounds = .error e →
      Excused rounds e := by
  intro e he
  have hthrows := (Ferry.loop_runs (ofArgs sched repeats logging q) rounds).of_error he
  match e, hthrows with
  | .callback (.queue e), ⟨calls, hsub, herror⟩ =>
      obtain ⟨f, rfl, hf⟩ := (ferry_calls hq h hsub).of_error herror
      exact run_faults hcounted hq (orderly_of_sublist h hsub) hf
  | .callback .systemCall, _ => trivial
  | .callback .signal, _ => trivial
  | .busyWait, ⟨done, r, hpre, calls, v, hsub, hrun, hpending, reads, hreads, s, sent, hrun', kernel,
      pieces, s', hwrite, hcount⟩ =>
      have hall := Ferry.reads_sublist hpre hsub hreads
      have hfirst := (List.sublist_append_left calls reads).trans hall
      -- the packets that made `pending_output` true are written
      obtain ⟨hlink, -, -⟩ := (ferry_calls hq h hfirst).of_ok hrun
      have hboth : run (FerryCall.step ferry) (calls ++ reads)
          (ofArgs sched repeats logging q, []) = .ok (s, sent) := by
        rw [run_append, hrun, ok_bind, hrun']
      obtain ⟨hlink', hdelivers, -⟩ := (ferry_calls hq h hall).of_ok hboth
      have hpushes : v.1.outputQueue <+: s.outputQueue := by
        refine reads_pushes (orderly_of_sublist h hfirst) hlink hreads ?_
        rw [List.map_append, run_append, hlink, ok_bind] at hlink'
        exact hlink'
      have hwaiting : v.1.outputQueue ≠ [] := by
        intro hnil
        rw [show ferry.pendingOutput _ v.1 = !v.1.outputQueue.isEmpty from rfl, hnil] at hpending
        cases hpending
      obtain ⟨pieces', hpieces, hwritten⟩ := bind_ok.mp hwrite
      cases hwritten
      obtain ⟨-, hge, hle⟩ := LossQueue.writePackets_taken (of_mapError_ok hpieces)
      have hpos : 0 < s.outputQueue.length :=
        List.length_pos_iff.mpr (hpushes.ne_nil hwaiting)
      have hbytes : s.outputQueue.flatten.length ≤
          ((arrivals rounds).map Prod.snd).flatten.length := by
        have htaken := (hdelivers.arrivals h hall).map Prod.snd
        rw [List.map_map] at htaken
        refine (List.Sublist.flatten (List.Sublist.trans ?_ htaken)).length_le
        show s.outputQueue.Sublist (s.history.taken.map QueuedPacket.contents)
        rw [← hdelivers.flow]
        exact (List.sublist_append_right _ _).trans (List.sublist_append_left _ _)
      show 2 ^ 32 ≤ _
      exact (Nat.le_of_dvd (hpos.trans_le hge) hcount).trans (hle.trans hbytes)

/-- A datagram is read at `now`. -/
def reading (now : Nat) (datagram : Payload) : FerryRound Nat :=
  let answer := { queue := now, datagram := some datagram, kernel := none, signal := none }
  { waits := now
    turns := fun i => { asked := answer, revents := { pollIn := i = 0 }, served := answer } }

/-- The sibling can be written at `now`, three bytes at a time. -/
def writing (now : Nat) : FerryRound Nat :=
  let answer := { queue := now, datagram := none, kernel := some fun _ => 2, signal := none }
  { waits := now
    turns := fun i => { asked := answer, revents := { pollOut := i = 1 || i = 2 }, served := answer } }

theorem lawful_onePacket : Lawful ([reading 5 [1, 2, 3, 4]] ++ [writing 10]) where
  clock := by decide
  size := by decide

/-- A link that is finished stays so, and puts nothing more into the output. -/
theorem drains : Ferry.Drains ferry (fun s : LinkQueue sched Q => s.finished = true)
    (fun s => s.outputQueue = []) where
  finished h := h
  pending h := by simpa [ferry] using h
  writes h := by
    obtain ⟨pieces, -, h⟩ := bind_ok.mp h
    cases h
    rfl
  step := by
    rintro call ⟨s, sent⟩ v' hfinished h
    have hrationalize : ∀ now, s.rationalize now = .ok s := fun now => by
      have hnone : s.nextDeliveryTime = none := if_pos hfinished
      unfold rationalize
      cases sched.passes now with
      | zero => rfl
      | succ fuel => rw [rationalizeLoop, hnone]
    cases call with
    | readPacket now contents =>
        obtain ⟨s', hs', rfl⟩ := of_map_ok h
        have hs' : s.readPacket now contents = .ok s' := of_mapError_ok hs'
        rw [readPacket, hrationalize, ok_bind] at hs'
        split at hs'
        · cases hs'
        · obtain ⟨q, log, -, rfl⟩ := enqueuePacket_ok hs'
          exact ⟨hfinished, id⟩
    | waitTime now =>
        obtain ⟨r, hr, rfl⟩ := of_map_ok h
        have hr : s.waitTime now = .ok r := of_mapError_ok hr
        rw [waitTime, hrationalize, ok_bind] at hr
        cases hr
        exact ⟨hfinished, id⟩
    | writePackets now kernel =>
        obtain ⟨r, hr, rfl⟩ := of_map_ok h
        obtain ⟨pieces, -, hr⟩ := bind_ok.mp hr
        cases hr
        exact ⟨hfinished, fun _ => rfl⟩

/-- Without repetition every opportunity is due once the last one is. -/
theorem due_all_iff (sched : Schedule) (now : Nat) :
    due sched false now = sched.size ↔ sched.back ≤ now := by
  have hpos := sched.size_pos
  have hdue : ∀ k, k < due sched false now ↔ ∃ a, sched.opportunity false k = some a ∧ a ≤ now :=
    fun k => Catchup.Deadlines.lt_upto_iff.trans Catchup.Deadlines.due_iff
  have hle : due sched false now ≤ sched.size := by
    by_contra hlt
    obtain ⟨a, ha, -⟩ := (hdue sched.size).mp (Nat.not_le.mp hlt)
    have hnone : sched.opportunity false sched.size = none := by simp [Schedule.opportunity]
    cases hnone.symm.trans ha
  have hlast : sched.opportunity false (sched.size - 1) = some sched.back := by
    have hlt : sched.size - 1 < sched.size := by omega
    have hentry : ∀ i : Fin sched.size, i.val = sched.size - 1 → sched.entry i = sched.back :=
      fun i hi => Schedule.entry_last (by omega)
    rw [Schedule.opportunity, if_pos (.inr hlt), Nat.div_eq_of_lt hlt, Nat.zero_mul, Nat.add_zero,
      hentry _ (Nat.mod_eq_of_lt hlt)]
  have hall := hdue (sched.size - 1)
  rw [hlast] at hall
  constructor
  · intro heq
    obtain ⟨a, ha, hle⟩ := hall.mp (by omega)
    cases ha
    exact hle
  · intro hback
    have := hall.mpr ⟨_, rfl, hback⟩
    omega

/-- The link that `wait_time` has brought up to date is finished if the trace is over. -/
theorem waited_finished_iff (hq : (F.counted q).entries = []) {r : FerryRound Nat}
    (h : Lawful (rounds ++ [r])) {c c₁ : Ferry.FerrySession LinkShellFault Nat (LinkQueue sched Q)}
    (hruns : Ferry.Runs ferry (ofArgs sched repeats logging q) rounds c)
    (hwait : Ferry.wait ferry r.waits c = .ok c₁) :
    c₁.state.queue.finished = true ↔ repeats = false ∧ sched.back ≤ r.waits := by
  obtain ⟨hactions, calls, hsub, hrun, -⟩ := hruns
  have hrun₁ : run (FerryCall.step ferry) (calls ++ [FerryCall.waitTime r.waits])
      (ofArgs sched repeats logging q, []) = .ok c₁.state.view := by
    rw [run_append, hrun, ok_bind, run_singleton]
    exact ((Ferry.wait_ensures hactions r.waits).of_ok hwait).2.1
  have hsub₁ : (calls ++ [FerryCall.waitTime r.waits]).Sublist
      ((rounds ++ [r]).flatMap FerryRound.calls) := by
    rw [List.flatMap_append, List.flatMap_singleton]
    exact hsub.append (List.singleton_sublist.mpr List.mem_cons_self)
  have ho := orderly_of_sublist h hsub₁
  have hstep := run_inStep ho ((ferry_calls hq h hsub₁).of_ok hrun₁).1
  have hclocks : ∀ t ∈ clocks ((calls ++ [FerryCall.waitTime r.waits]).map toCall), t ≤ r.waits := by
    rw [List.map_append] at ho ⊢
    intro t ht
    rw [clocks, List.filterMap_append] at ht
    rcases List.mem_append.mp ht with ht | ht
    · exact ho.clock_le (c := .waitTime r.waits) rfl t ht
    · exact (List.mem_singleton.mp ht).le
  have hmem : r.waits ∈ clocks ((calls ++ [FerryCall.waitTime r.waits]).map toCall) := by
    rw [List.map_append, clocks, List.filterMap_append]
    exact List.mem_append_right _ List.mem_cons_self
  have hused : c₁.state.view.1.used = due sched repeats r.waits :=
    Nat.le_antisymm (hstep.le_due _ hclocks) (hstep.due_le _ hmem)
  refine (finished_iff hstep.onSchedule).trans ?_
  rw [hstep.repeats_eq, hused]
  refine and_congr_right fun hrepeats => ?_
  rw [hrepeats]
  exact due_all_iff sched r.waits

/-- **How a link shell ends.** -/
theorem loop_ends (hq : (F.counted q).entries = []) {r : FerryRound Nat}
    (h : Lawful (rounds ++ [r])) (hagree : ∀ r' ∈ rounds ++ [r], Ferry.Agree r')
    {c c' : Ferry.FerrySession LinkShellFault Nat (LinkQueue sched Q)} {exit : Option Nat}
    (hbefore : Ferry.loop ferry (ofArgs sched repeats logging q) rounds = .ok (none, c))
    (hlast : Ferry.loop ferry (ofArgs sched repeats logging q) (rounds ++ [r]) = .ok (exit, c')) :
    (exit = some 77 ↔ repeats = false ∧ sched.back ≤ r.waits ∧
      (r.turns 2).revents.pollOut = true ∧ ∀ j ≤ 2, (r.turns j).revents.failed = false) ∧
    (exit = some 77 → c'.state.queue.used = sched.size ∧
      c'.state.sent.map (·.2.flatten) ++ c'.state.queue.inTransit =
        c'.state.queue.history.taken.map QueuedPacket.contents) := by
  have hstep := Ferry.loop_snoc hbefore hlast
  have hruns := (Ferry.loop_runs _ _).of_ok hbefore
  have hwaited : ∃ c₁, Ferry.wait ferry r.waits c = .ok c₁ := by
    obtain ⟨c₁, hwait, -⟩ := bind_ok.mp hstep
    exact ⟨c₁, hwait⟩
  obtain ⟨c₁, hwait⟩ := hwaited
  have hfinished := waited_finished_iff hq h hruns hwait
  constructor
  · refine (Ferry.roundStep_exits_iff hruns.actions hstep).trans ⟨?_, ?_⟩
    · rintro ⟨c₂, hwait₂, hover, hready⟩
      cases hwait.symm.trans hwait₂
      obtain ⟨hrepeats, hback⟩ := hfinished.mp hover
      exact ⟨hrepeats, hback, hready⟩
    · rintro ⟨hrepeats, hback, hready⟩
      exact ⟨c₁, hwait, hfinished.mpr ⟨hrepeats, hback⟩, hready⟩
  · rintro rfl
    obtain ⟨hover, hidle⟩ := Ferry.loop_drained drains hagree hlast
    obtain ⟨-, calls, hsub, hrun, -⟩ := (Ferry.loop_runs _ _).of_ok hlast
    obtain ⟨-, hdelivers, hwritten⟩ := (ferry_calls hq h hsub).of_ok hrun
    refine ⟨((finished_iff hdelivers.inStep.onSchedule).mp hover).2, ?_⟩
    have hpushed : c'.state.sent.map (·.2.flatten) = c'.state.queue.pushed := by
      refine hwritten.contents.trans ?_
      show c'.state.queue.history.written = _
      rw [pushed, hidle, List.append_nil]
    rw [hpushed]
    exact hdelivers.flow

theorem loop_ends_onePacket :
    ∃ c', Ferry.loop ferry (ofArgs everyTen false false ({} : InfinitePacketQueue))
        ([reading 5 [1, 2, 3, 4]] ++ [writing 10]) = .ok (some 77, c') ∧
      everyTen.back ≤ 10 ∧ c'.state.queue.used = 1 := by
  have hbefore : (Ferry.loop ferry (ofArgs everyTen false false ({} : InfinitePacketQueue))
      [reading 5 [1, 2, 3, 4]]).map (fun r => r.1) = .ok none := by decide +kernel
  have hlast : (Ferry.loop ferry (ofArgs everyTen false false ({} : InfinitePacketQueue))
      ([reading 5 [1, 2, 3, 4]] ++ [writing 10])).map (fun r => r.1) = .ok (some 77) := by
    decide +kernel
  obtain ⟨⟨exit, c⟩, hc, rfl⟩ := of_map_ok hbefore
  obtain ⟨⟨exit', c'⟩, hc', rfl⟩ := of_map_ok hlast
  obtain ⟨hiff, hover⟩ := loop_ends (F := InfinitePacketQueue.fifo) rfl lawful_onePacket
    (by simp [Ferry.Agree, reading, writing]) hc hc'
  exact ⟨c', hc', (hiff.mp rfl).2.1, (hover rfl).1⟩

end LinkShell

end Mahimahi
