import Mahimahi.DropBitrate.Rules

/-!
# DropBitrate — what the dropper array remembers

For each port and threshold `prio_to_droppers_` keeps the largest number of a preempting message
accepted so far.  It is created with -1 in `enqueue` and with 0 in `dequeuefront`; no message
number is below either, so the difference never shows.

* `lt_latestDropper_iff`: a number is below the latest dropper exactly when some accepted packet
  outranks it.
* `dropped_iff`: the drop rule in terms of the packets accepted so far.
* `preempted_before_iff`: the array is never lowered, so the packet that preempts may be older
  than the packet it drops; it is younger exactly when each older packet that outranks the dropped
  one is outnumbered by a younger one.
-/

open Fallible MachineInt
open Std (TreeMap)

namespace Mahimahi

theorem lt_foldl_iff {α : Type} (f : α → Int) (l : List α) (a m : Int) :
    m < l.foldl (fun latest i => if latest < f i then f i else latest) a ↔
      m < a ∨ ∃ i ∈ l, m < f i := by
  induction l generalizing a with
  | nil => simp
  | cons i l ih =>
      rw [List.foldl_cons, ih]
      simp only [List.mem_cons, exists_eq_or_imp, ← or_assoc]
      refine or_congr_left ?_
      split <;> omega

/-- An accepted packet of this kind sets `prio_to_droppers_[d][i]` to at least `m`. -/
def QueuedPacket.Preempts (p : QueuedPacket) (d : UInt16) (i : Fin 8) (m : Int) : Prop :=
  ∃ header, PacketHeader.ofPayload p.contents = .ok header ∧ header.isOctopus = true ∧
    header.dstport = d ∧ (header.pktPos = .last ∨ header.pktPos = .solo) ∧
    header.isPreempt = true ∧ header.priorityThreshold = i ∧ header.msgNo = m

/-- A preempting LAST or SOLO packet of the same port, with a threshold not above the packet's
priority and a larger message number `m`. -/
def QueuedPacket.Outranks (p : QueuedPacket) (header : PacketHeader) (m : Int) : Prop :=
  ∃ i ≤ header.priority, p.Preempts header.dstport i m ∧ header.msgNo < m

namespace DropBitrateDequeueQueue

/-- An entry of `prio_to_droppers_`; a missing array reads as zeros. -/
def droppers (s : DropBitrateDequeueQueue) (d : UInt16) : Fin 8 → Int :=
  s.prioToDroppers.getD d (fun _ => 0)

theorem lt_getD_iff (t : TreeMap UInt16 (Fin 8 → Int)) (d : UInt16) (i : Fin 8) {m : Int}
    (hm : 0 ≤ m) : m < t.getD d (fun _ => -1) i ↔ m < t.getD d (fun _ => 0) i := by
  rw [TreeMap.getD_eq_getD_getElem?, TreeMap.getD_eq_getD_getElem?]
  cases t[d]? with
  | none => simp only [Option.getD_none]; omega
  | some a => rfl

/-- `recordDropper` raises the entry of the packet's port and threshold to its number. -/
theorem lt_recordDropper_iff (header : PacketHeader) (s : DropBitrateDequeueQueue) (d : UInt16)
    (i : Fin 8) {m : Int} (hm : 0 ≤ m) :
    m < (s.recordDropper header).droppers d i ↔ m < s.droppers d i ∨
      (header.dstport = d ∧ (header.pktPos = .last ∨ header.pktPos = .solo) ∧
        header.isPreempt = true ∧ header.priorityThreshold = i ∧ m < header.msgNo) := by
  unfold recordDropper droppers
  split
  · rename_i hrec
    by_cases hd : header.dstport = d
    · subst hd
      have hold := lt_getD_iff s.prioToDroppers header.dstport i hm
      simp only [TreeMap.getD_insert_self, hrec.1, hrec.2, true_and]
      split
      · -- the entry at the packet's threshold is raised to its number
        rename_i hlt
        by_cases hi : header.priorityThreshold = i
        · subst hi
          have hnew := lt_getD_iff s.prioToDroppers header.dstport header.priorityThreshold hm
          simp only [Function.update_self, true_and]
          omega
        · simp only [Function.update_of_ne (Ne.symm hi), hi, false_and, or_false]
          exact hold
      · -- the entry is large enough already
        rename_i hge
        rw [hold]
        refine (or_iff_left_of_imp ?_).symm
        rintro ⟨rfl, hlt⟩
        omega
    · simp [TreeMap.getD_insert, hd]
  · rename_i hrec
    refine (or_iff_left_of_imp ?_).symm
    rintro ⟨-, hpos, hpre, -, -⟩
    exact absurd ⟨hpos, hpre⟩ hrec

theorem recordVerdict_droppers (v : Verdict) (header : PacketHeader) (s : DropBitrateDequeueQueue)
    (d : UInt16) : (s.recordVerdict v header).droppers d = s.droppers d := by
  have hins : (s.prioToDroppers.insert header.dstport
      (s.prioToDroppers.getD header.dstport (fun _ => 0))).getD d (fun _ => 0)
        = s.prioToDroppers.getD d (fun _ => 0) := by
    by_cases hd : header.dstport = d
    · subst hd; simp
    · simp [TreeMap.getD_insert, hd]
  unfold recordVerdict droppers
  dsimp only
  split <;> split
  · exact hins
  · rfl
  · exact hins
  · rfl

theorem enqueue_droppers {ts : Nat} {p : QueuedPacket} {s s' : DropBitrateDequeueQueue}
    (h : s.enqueue ts p = .ok s') (hfits : s.fits p = .ok true) (d : UInt16) (i : Fin 8) {m : Int}
    (hm : 0 ≤ m) :
    m < s'.droppers d i ↔ m < s.droppers d i ∨ ∃ m', p.Preempts d i m' ∧ m < m' := by
  rcases enqueue_cases h with ⟨hno, -⟩ | ⟨header, -, hheader, hcase⟩
  · rw [hfits] at hno; cases hno
  · have hpre : (∃ m', p.Preempts d i m' ∧ m < m') ↔ header.isOctopus = true ∧
        header.dstport = d ∧ (header.pktPos = .last ∨ header.pktPos = .solo) ∧
        header.isPreempt = true ∧ header.priorityThreshold = i ∧ m < header.msgNo := by
      constructor
      · rintro ⟨m', ⟨header', hheader', hoct, hd, hpos, hp, hi, rfl⟩, hlt⟩
        obtain rfl : header = header' := Except.ok.inj (hheader.symm.trans hheader')
        exact ⟨hoct, hd, hpos, hp, hi, hlt⟩
      · rintro ⟨hoct, hd, hpos, hp, hi, hlt⟩
        exact ⟨_, ⟨header, hheader, hoct, hd, hpos, hp, hi, rfl⟩, hlt⟩
    rw [hpre]
    rcases hcase with ⟨hoct, rfl⟩ | ⟨hoct, s₁, hcount, rfl⟩
    · simp only [hoct, Bool.false_eq_true, false_and, or_false]
      rfl
    · have hsame : s₁.droppers d = s.droppers d := by
        obtain ⟨trace, rate, hrate⟩ := recordRate_frame ts p.size header.dstport (s.accepting p)
        obtain ⟨fc, hfc⟩ := countArrival_frame hcount
        rw [hfc, hrate]
        rfl
      rw [lt_recordDropper_iff header s₁ d i hm, hsame]
      simp only [hoct, true_and]

theorem dequeuefront_droppers {ts : Nat} {pkt : QueuedPacket} {s s' : DropBitrateDequeueQueue}
    (h : s.dequeuefront ts = .ok (pkt, s')) (d : UInt16) : s'.droppers d = s.droppers d := by
  obtain ⟨p, c, header, -, -, ⟨-, -, rfl⟩ | ⟨-, -, hcount⟩⟩ := dequeuefront_cases h
  · rfl
  · obtain ⟨fc, hfc⟩ := countDeparture_frame hcount
    rw [hfc]
    exact recordVerdict_droppers _ _ _ d

/-- **An entry is the running maximum** of the numbers that preempt at its port and threshold. -/
theorem lt_droppers_iff {h : History} {s : DropBitrateDequeueQueue} (hr : Reachable h s)
    (d : UInt16) (i : Fin 8) {m : Int} (hm : 0 ≤ m) :
    m < s.droppers d i ↔ ∃ p ∈ h.accepted, ∃ m', p.Preempts d i m' ∧ m < m' := by
  refine hr.induction (P := fun h s => m < s.droppers d i ↔
    ∃ p ∈ h.accepted, ∃ m', p.Preempts d i m' ∧ m < m') ?_ ?_ ?_ ?_
  · intro _ _ _ _
    simp only [ofArgs, droppers, TreeMap.getD_emptyc, List.not_mem_nil, false_and, exists_false,
      iff_false]
    omega
  · rintro h s s' ts p - hP - henq
    rcases enqueue_queue henq with ⟨hfits, rfl⟩ | ⟨hfits, -⟩
    · simpa [History.offer, hfits] using hP
    · rw [enqueue_droppers henq hfits d i hm, hP, History.offer, if_pos hfits]
      simp [or_and_right, exists_or]
  · rintro h s s' ts pkt - hP hd
    rw [dequeuefront_droppers hd]
    exact hP
  · exact fun _ _ _ _ hP => hP

/-- **A message number is below the latest dropper exactly when an accepted packet outranks it.** -/
theorem lt_latestDropper_iff {h : History} {s : DropBitrateDequeueQueue} (hr : Reachable h s)
    (d : UInt16) (priority : Fin 8) {m : Int} (hm : 0 ≤ m) :
    m < s.latestDropper d priority ↔
      ∃ p ∈ h.accepted, ∃ i ≤ priority, ∃ m', p.Preempts d i m' ∧ m < m' := by
  have hlatest : m < s.latestDropper d priority ↔ ∃ i ≤ priority, m < s.droppers d i := by
    unfold latestDropper droppers
    rw [lt_foldl_iff]
    simp only [List.mem_filter, List.mem_finRange, decide_eq_true_eq, true_and]
    exact or_iff_right (by omega)
  rw [hlatest]
  constructor
  · rintro ⟨i, hi, hlt⟩
    obtain ⟨p, hp, m', hpre, hlt⟩ := (lt_droppers_iff hr d i hm).mp hlt
    exact ⟨p, hp, i, hi, m', hpre, hlt⟩
  · rintro ⟨p, hp, i, hi, m', hpre, hlt⟩
    exact ⟨i, hi, (lt_droppers_iff hr d i hm).mpr ⟨p, hp, m', hpre, hlt⟩⟩

/-! ### The rule, in terms of the accepted packets -/

/-- **The drop rule.**  A packet whose counter is 2 is marked exactly when it has waited its slack
time and its bitrate exceeds the fair share, or an accepted packet outranks it. -/
theorem dropped_iff {h : History} {s s' : DropBitrateDequeueQueue} (hr : Reachable h s) {ts : Nat}
    {pkt : QueuedPacket} (hd : s.dequeuefront ts = .ok (pkt, s')) {header : PacketHeader}
    (hheader : PacketHeader.ofPayload pkt.contents = .ok header) (hoct : header.isOctopus = true)
    (htwo : s.count header.dstport header.msgNo = some 2) :
    pkt.isDrop = true ↔ (header.slackTime : Int) ≤ ts - pkt.arrivalTime ∧
      (s.fairShare header.dstport < header.bitrate ∨
        ∃ p ∈ h.accepted, ∃ m, p.Outranks header m) := by
  have hlt := lt_latestDropper_iff hr header.dstport header.priority header.msgNo_nonneg
  have hout : (∃ p ∈ h.accepted, ∃ m, p.Outranks header m) ↔
      header.msgNo < s.latestDropper header.dstport header.priority := by
    rw [hlt]
    constructor
    · rintro ⟨p, hp, m, i, hi, hpre, hm⟩
      exact ⟨p, hp, i, hi, m, hpre, hm⟩
    · rintro ⟨p, hp, i, hi, m, hpre, hm⟩
      exact ⟨p, hp, m, i, hi, hpre, hm⟩
  rw [marked_iff hr hd hheader, hout]
  simp [DropRule, hoct, htwo]

theorem dropped_iff_preemptedPair : ∃ h s, Reachable h s ∧
    ((⟨0, udpPayload 4433 1 0xc0000005 0, true⟩ : QueuedPacket).isDrop = true ↔
      (header5.slackTime : Int) ≤ (2 : Nat) - (0 : Nat) ∧
        (s.fairShare 4433 < header5.bitrate ∨ ∃ p ∈ h.accepted, ∃ m, p.Outranks header5 m)) := by
  obtain ⟨h, s, s', hr, hd, hcount, -⟩ := reachable_preemptedPair
  exact ⟨h, s, hr, dropped_iff hr hd ofPayload_header5 (by decide) hcount⟩

/-! ### The age of the packet that preempts -/

/-- The `j`-th packet accepted outranks the packet with this header, and has number `m`. -/
def History.OutranksAt (h : History) (j : Nat) (header : PacketHeader) (m : Int) : Prop :=
  ∃ q, h.accepted[j]? = some q ∧ q.Outranks header m

theorem OutranksAt.le_latest {h : History} {s : DropBitrateDequeueQueue} (hr : Reachable h s)
    {j : Nat} {header : PacketHeader} {m : Int} (ho : h.OutranksAt j header m) :
    m ≤ s.latestDropper header.dstport header.priority := by
  obtain ⟨q, hq, i, hi, hpre, hlt⟩ := ho
  have hnonneg := header.msgNo_nonneg
  have hbelow : m - 1 < s.latestDropper header.dstport header.priority :=
    (lt_latestDropper_iff hr _ _ (by omega)).mpr
      ⟨q, List.mem_of_getElem? hq, i, hi, m, hpre, by omega⟩
  omega

/-- The value of the latest dropper is the number of an accepted packet. -/
theorem latestDropper_set {h : History} {s : DropBitrateDequeueQueue} (hr : Reachable h s)
    {header : PacketHeader}
    (hlt : header.msgNo < s.latestDropper header.dstport header.priority) :
    ∃ j, h.OutranksAt j header (s.latestDropper header.dstport header.priority) := by
  have hnonneg := header.msgNo_nonneg
  obtain ⟨q, hq, i, hi, m, hpre, hm⟩ := (lt_latestDropper_iff hr header.dstport header.priority
    (m := s.latestDropper header.dstport header.priority - 1) (by omega)).mp (by omega)
  obtain ⟨j, hj⟩ := List.mem_iff_getElem?.mp hq
  have hle : m ≤ s.latestDropper header.dstport header.priority :=
    OutranksAt.le_latest hr ⟨q, hj, i, hi, hpre, by omega⟩
  obtain rfl : m = s.latestDropper header.dstport header.priority := by omega
  exact ⟨j, q, hj, i, hi, hpre, hlt⟩

theorem verdict_preempt {s : DropBitrateDequeueQueue} {ts : Nat} {pkt : QueuedPacket}
    {header : PacketHeader} (h : s.verdict ts pkt header = .preempt) :
    header.msgNo < s.latestDropper header.dstport header.priority := by
  unfold verdict at h
  dsimp only at h
  split at h
  · split at h
    · cases h
    · split at h
      · rename_i hlt; exact hlt.1
      · cases h
  · split at h <;> cases h

/-- **A packet marked by preemption is older than the packet that set the dropper value exactly
when every older packet that outranks it is outnumbered by a younger one.**  The packet is the
one accepted as number `h.fronts.length`. -/
theorem preempted_before_iff {h : History} {s s' : DropBitrateDequeueQueue} (hr : Reachable h s)
    {ts : Nat} {pkt : QueuedPacket} (hd : s.dequeuefront ts = .ok (pkt, s')) {header : PacketHeader}
    (hheader : PacketHeader.ofPayload pkt.contents = .ok header)
    (hv : s.verdict ts pkt header = .preempt) :
    h.accepted[h.fronts.length]? = some pkt.unmarked ∧
    (∃ j, h.OutranksAt j header (s.latestDropper header.dstport header.priority)) ∧
    ((∀ j, h.OutranksAt j header (s.latestDropper header.dstport header.priority) →
        h.fronts.length < j) ↔
      ∀ j m, j < h.fronts.length → h.OutranksAt j header m →
        ∃ k m', h.fronts.length < k ∧ h.OutranksAt k header m' ∧ m < m') := by
  have hself := accepted_front hr hd
  obtain ⟨j₀, hj₀⟩ := latestDropper_set hr (verdict_preempt hv)
  refine ⟨hself, ⟨j₀, hj₀⟩, ?_, ?_⟩
  · intro hyounger j m hj ho
    have hle := OutranksAt.le_latest hr ho
    have hne : m ≠ s.latestDropper header.dstport header.priority := by
      rintro rfl
      have := hyounger j ho
      omega
    exact ⟨j₀, _, hyounger j₀ hj₀, hj₀, by omega⟩
  · intro hcond j hset
    rcases Nat.lt_trichotomy j h.fronts.length with hj | rfl | hj
    · obtain ⟨k, m', -, ho, hlt⟩ := hcond j _ hj hset
      have := OutranksAt.le_latest hr ho
      omega
    · -- the packet does not outrank itself
      obtain ⟨q, hq, i, -, ⟨header', hheader', -, -, -, -, -, hno⟩, hlt⟩ := hset
      obtain rfl : pkt.unmarked = q := Option.some.inj (hself.symm.trans hq)
      obtain rfl : header = header' := Except.ok.inj (hheader.symm.trans hheader')
      omega
    · exact hj

theorem preempted_before_iff_preemptedPair : ∃ h s, Reachable h s ∧
    ((∀ j, h.OutranksAt j header5 (s.latestDropper 4433 0) → h.fronts.length < j) ↔
      ∀ j m, j < h.fronts.length → h.OutranksAt j header5 m →
        ∃ k m', h.fronts.length < k ∧ h.OutranksAt k header5 m' ∧ m < m') := by
  obtain ⟨h, s, s', hr, hd, -, hv⟩ := reachable_preemptedPair
  exact ⟨h, s, hr, (preempted_before_iff hr hd ofPayload_header5 hv).2.2⟩

/-- The preempting message with the largest 29-bit number, and the next one, whose number has
wrapped around. -/
def wrappedPair : List Action :=
  [.enqueue 0 0 (udpPayload 4433 1 0xdfffffff 0x02000000),
   .dequeuefront 1, .enqueue 2 2 (udpPayload 4433 2 0xc0000001 0)]

/-- The packet accepted last is marked for a message that was accepted, and left, before it. -/
theorem wrapped_preempted_after : ¬ ∀ h s, Reachable h s → ∀ ts pkt s' header,
    s.dequeuefront ts = .ok (pkt, s') → PacketHeader.ofPayload pkt.contents = .ok header →
    s.verdict ts pkt header = .preempt →
    ∀ j, h.OutranksAt j header (s.latestDropper header.dstport header.priority) →
      h.fronts.length < j := by
  obtain ⟨⟨h, s⟩, hrun, hs⟩ := of_map_ok
    (x := run Action.step wrappedPair ({}, ofArgs 100 0 false 0))
    (f := fun x => ((x.2.dequeuefront 3).map Prod.fst, x.1.accepted.length,
      x.2.verdict 3 ⟨2, udpPayload 4433 2 0xc0000001 0, true⟩ ⟨2, 0xc0000001, 0, 0x00110000, 4433⟩,
      x.1.fronts.length))
    (b := (.ok ⟨2, udpPayload 4433 2 0xc0000001 0, true⟩, 2, .preempt, 1)) (by decide)
  simp only [Prod.mk.injEq] at hs
  obtain ⟨hd, hlen, hv, hfronts⟩ := hs
  obtain ⟨⟨pkt, s'⟩, hd, rfl⟩ := of_map_ok hd
  have hr : Reachable h s := ⟨100, 0, false, 0, _, hrun⟩
  intro hall
  obtain ⟨j, hj⟩ := latestDropper_set hr (verdict_preempt hv)
  have hlt := hall h s hr 3 _ s' _ hd (by decide) hv j hj
  obtain ⟨q, hq, -⟩ := hj
  have := (List.getElem?_eq_some_iff.mp hq).1
  omega

end DropBitrateDequeueQueue

end Mahimahi
