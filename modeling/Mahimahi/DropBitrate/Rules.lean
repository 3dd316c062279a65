import Mahimahi.DropBitrate.Counters

/-!
# DropBitrate — why a packet is marked

`DropRule` is the condition of lines 106–141: the counter is 2, the packet has waited its slack
time, and its bitrate exceeds the fair share or its number is below the latest dropper.  A packet
is marked by the rule, or because its number is the one that `msg_in_drop_` holds for its port
(`marked_iff`).

* `accepted_eq`: packets leave in the order in which they were accepted.
* `msgInDrop_cases`: `msg_in_drop_` holds the number of a packet the rule marked; before the first
  such packet of a port it holds 0.
* `marked_by_rule_iff`: every mark goes back to the rule, except on a packet with number 0 of a
  port on which the rule has never applied.
-/

open Fallible MachineInt
open Std (TreeMap)

namespace Mahimahi

def QueuedPacket.unmarked (p : QueuedPacket) : QueuedPacket := { p with isDrop := false }

namespace DropBitrateDequeueQueue

/-! ### Packets leave in order -/

theorem enqueue_queue {ts : Nat} {p : QueuedPacket} {s s' : DropBitrateDequeueQueue}
    (h : s.enqueue ts p = .ok s') :
    (s.fits p = .ok false ∧ s' = s) ∨
      (s.fits p = .ok true ∧ s'.internalQueue = s.internalQueue ++ [p]) := by
  rcases enqueue_cases h with ⟨hfits, rfl⟩ | ⟨header, hfits, -, ⟨-, rfl⟩ | ⟨-, s₁, hcount, rfl⟩⟩
  · exact .inl ⟨hfits, rfl⟩
  · exact .inr ⟨hfits, rfl⟩
  · exact .inr ⟨hfits, by simp [countArrival_toDropping hcount]⟩

/-- **First in, first out**: the accepted packets are those that left, followed by those queued. -/
theorem accepted_eq {h : History} {s : DropBitrateDequeueQueue} (hr : Reachable h s) :
    h.accepted = h.fronts.map (·.pkt.unmarked) ++ s.internalQueue ∧
      ∀ p ∈ h.accepted, p.isDrop = false := by
  refine hr.induction (P := fun h s =>
    h.accepted = h.fronts.map (·.pkt.unmarked) ++ s.internalQueue ∧
      ∀ p ∈ h.accepted, p.isDrop = false) ?_ ?_ ?_ ?_
  · exact fun _ _ _ _ => ⟨rfl, by simp⟩
  · rintro h s s' ts p - ⟨heq, hun⟩ hp henq
    rcases enqueue_queue henq with ⟨hfits, rfl⟩ | ⟨hfits, hqueue⟩
    · simpa [History.offer, hfits] using ⟨heq, hun⟩
    · rw [History.offer, if_pos hfits, hqueue]
      exact ⟨by simp [heq], List.forall_mem_append.mpr ⟨hun, List.forall_mem_singleton.mpr hp⟩⟩
  · rintro h s s' ts pkt - ⟨heq, hun⟩ hd
    obtain ⟨p, hq, hpkt⟩ := dequeuefront_queue hd
    have hp : pkt.unmarked = p := by
      rw [hpkt, QueuedPacket.unmarked, ← hun p (by simp [heq, hq])]
    exact ⟨by simp [heq, hq, hp], hun⟩
  · exact fun _ _ _ _ hP => hP

/-- The packet a `dequeuefront` returns is the next of the accepted packets, perhaps marked. -/
theorem accepted_front {h : History} {s s' : DropBitrateDequeueQueue} (hr : Reachable h s)
    {ts : Nat} {pkt : QueuedPacket} (hd : s.dequeuefront ts = .ok (pkt, s')) :
    h.accepted[h.fronts.length]? = some pkt.unmarked := by
  have heq : h.accepted = _ := (accepted_eq (hr.front (front_of_dequeuefront hd))).1
  rw [heq]
  simp

/-! ### The rule and the verdict -/

def DropRule (s : DropBitrateDequeueQueue) (ts : Nat) (pkt : QueuedPacket) (header : PacketHeader) :
    Prop :=
  s.count header.dstport header.msgNo = some 2 ∧
    (header.slackTime : Int) ≤ ts - pkt.arrivalTime ∧
    (s.fairShare header.dstport < header.bitrate ∨
      header.msgNo < s.latestDropper header.dstport header.priority)

theorem verdict_byRule_iff {s : DropBitrateDequeueQueue} {ts : Nat} {pkt : QueuedPacket}
    {header : PacketHeader} :
    (s.verdict ts pkt header).byRule = true ↔ s.DropRule ts pkt header := by
  unfold verdict DropRule
  by_cases htwo : s.count header.dstport header.msgNo = some 2
  · simp only [htwo, if_true, true_and]
    split
    · rename_i hb; simp [Verdict.byRule, hb]
    · rename_i hb
      split
      · rename_i hp; simp [Verdict.byRule, hp]
      · rename_i hp
        simp only [Verdict.byRule]
        constructor
        · intro h; cases h
        · rintro ⟨hslack, hrate | hdrop⟩
          · exact absurd ⟨hrate, hslack⟩ hb
          · exact absurd ⟨hdrop, hslack⟩ hp
  · simp only [htwo, if_false, false_and]
    split <;> simp [Verdict.byRule]

theorem verdict_drops_iff {s : DropBitrateDequeueQueue} {ts : Nat} {pkt : QueuedPacket}
    {header : PacketHeader} :
    (s.verdict ts pkt header).drops = true ↔ s.DropRule ts pkt header ∨
      (s.count header.dstport header.msgNo ≠ some 2 ∧
        header.msgNo = s.msgInDrop.getD header.dstport 0) := by
  by_cases htwo : s.count header.dstport header.msgNo = some 2
  · have hsame : (s.verdict ts pkt header).drops = (s.verdict ts pkt header).byRule := by
      unfold verdict
      rw [if_pos htwo]
      dsimp only
      split
      · rfl
      · split <;> rfl
    rw [hsame, verdict_byRule_iff]
    simp [htwo]
  · unfold verdict DropRule
    simp only [htwo, if_false, false_and, false_or, ne_eq, not_false_eq_true, true_and]
    split <;> simp_all [Verdict.drops]

/-- **When a packet is marked.** -/
theorem marked_iff {h : History} {s s' : DropBitrateDequeueQueue} (hr : Reachable h s) {ts : Nat}
    {pkt : QueuedPacket} (hd : s.dequeuefront ts = .ok (pkt, s')) {header : PacketHeader}
    (hheader : PacketHeader.ofPayload pkt.contents = .ok header) :
    pkt.isDrop = true ↔ header.isOctopus = true ∧ (s.DropRule ts pkt header ∨
      (s.count header.dstport header.msgNo ≠ some 2 ∧
        header.msgNo = s.msgInDrop.getD header.dstport 0)) := by
  obtain ⟨p, c, header₁, hpop, hheader₁, hcase⟩ := dequeuefront_cases hd
  have hp : p.isDrop = false := by
    obtain ⟨heq, hun⟩ := accepted_eq hr
    exact hun p (by simp [heq, (CountedQueue.pop_ok hpop).1])
  rcases hcase with ⟨hoct, rfl, -⟩ | ⟨hoct, rfl, -⟩
  · obtain rfl : header₁ = header := Except.ok.inj (hheader₁.symm.trans hheader)
    simp [hp, hoct]
  · obtain rfl : header₁ = header := Except.ok.inj (hheader₁.symm.trans hheader)
    rw [hp, Bool.false_or, verdict_drops_iff]
    simp [hoct, DropRule]

/-! ### The number carried to the rest of a message -/

/-- The rule marked this packet, which carries port `d` and number `m`. -/
def Front.Ruled (f : Front) (d : UInt16) (m : Int) : Prop :=
  ∃ header, PacketHeader.ofPayload f.pkt.contents = .ok header ∧ header.isOctopus = true ∧
    header.dstport = d ∧ header.msgNo = m ∧ f.before.DropRule f.ts f.pkt header

theorem recordVerdict_msgInDrop (v : Verdict) (header : PacketHeader) (s : DropBitrateDequeueQueue) :
    (s.recordVerdict v header).msgInDrop =
      if v.byRule then s.msgInDrop.insert header.dstport header.msgNo else s.msgInDrop := by
  unfold recordVerdict
  dsimp only
  split <;> split <;> rfl

theorem enqueue_msgInDrop {ts : Nat} {p : QueuedPacket} {s s' : DropBitrateDequeueQueue}
    (h : s.enqueue ts p = .ok s') : s'.msgInDrop = s.msgInDrop := by
  rcases enqueue_cases h with ⟨-, rfl⟩ | ⟨header, -, -, ⟨-, rfl⟩ | ⟨-, s₁, hcount, rfl⟩⟩
  · rfl
  · rfl
  · obtain ⟨trace, rate, hrate⟩ := recordRate_frame ts p.size header.dstport (s.accepting p)
    obtain ⟨fc, hfc⟩ := countArrival_frame hcount
    obtain ⟨droppers, hdr⟩ := recordDropper_frame header s₁
    rw [hdr, hfc, hrate]
    rfl

/-- `msg_in_drop_` changes at the port of a packet that the rule marks, and nowhere else. -/
theorem dequeuefront_msgInDrop {ts : Nat} {pkt : QueuedPacket} {s s' : DropBitrateDequeueQueue}
    (h : s.dequeuefront ts = .ok (pkt, s')) (d : UInt16) :
    (Front.Ruled ⟨ts, s, pkt⟩ d (s'.msgInDrop.getD d 0)) ∨
      ((∀ m, ¬ Front.Ruled ⟨ts, s, pkt⟩ d m) ∧ s'.msgInDrop.getD d 0 = s.msgInDrop.getD d 0) := by
  obtain ⟨p, c, header, hpop, hheader, ⟨hoct, rfl, rfl⟩ | ⟨hoct, rfl, hcount⟩⟩ := dequeuefront_cases h
  · refine .inr ⟨?_, rfl⟩
    rintro m ⟨header', hheader', hoct', -⟩
    obtain rfl : header = header' := Except.ok.inj (hheader.symm.trans hheader')
    rw [hoct] at hoct'; cases hoct'
  · obtain ⟨fc, hfc⟩ := countDeparture_frame hcount
    have hdrop : s'.msgInDrop = if (s.verdict ts p header).byRule
        then s.msgInDrop.insert header.dstport header.msgNo else s.msgInDrop := by
      rw [hfc]; exact recordVerdict_msgInDrop _ _ _
    by_cases hrule : (s.verdict ts p header).byRule = true
    · rw [if_pos hrule] at hdrop
      by_cases hd : header.dstport = d
      · subst hd
        refine .inl ⟨header, hheader, hoct, rfl, ?_, verdict_byRule_iff.mp hrule⟩
        simp [hdrop]
      · refine .inr ⟨?_, by simp [hdrop, TreeMap.getD_insert, hd]⟩
        rintro m ⟨header', hheader', -, rfl, -⟩
        obtain rfl : header = header' := Except.ok.inj (hheader.symm.trans hheader')
        exact hd rfl
    · rw [if_neg hrule] at hdrop
      refine .inr ⟨?_, by rw [hdrop]⟩
      rintro m ⟨header', hheader', -, -, -, hr⟩
      obtain rfl : header = header' := Except.ok.inj (hheader.symm.trans hheader')
      exact hrule (verdict_byRule_iff.mpr hr)

/-- The value that `msg_in_drop_` has for a port comes from the rule, or is the map's default. -/
theorem msgInDrop_cases {h : History} {s : DropBitrateDequeueQueue} (hr : Reachable h s)
    (d : UInt16) : (∃ f ∈ h.fronts, f.Ruled d (s.msgInDrop.getD d 0)) ∨
      ((∀ f ∈ h.fronts, ∀ m, ¬ f.Ruled d m) ∧ s.msgInDrop.getD d 0 = 0) := by
  refine hr.induction (P := fun h s => (∃ f ∈ h.fronts, f.Ruled d (s.msgInDrop.getD d 0)) ∨
      ((∀ f ∈ h.fronts, ∀ m, ¬ f.Ruled d m) ∧ s.msgInDrop.getD d 0 = 0)) ?_ ?_ ?_ ?_
  · exact fun _ _ _ _ => .inr ⟨by simp, by simp [ofArgs]⟩
  · rintro h s s' ts p - hP - henq
    rw [enqueue_msgInDrop henq]
    have hfronts : (h.offer s p).fronts = h.fronts := by unfold History.offer; split <;> rfl
    rwa [hfronts]
  · rintro h s s' ts pkt - hP hd
    rcases dequeuefront_msgInDrop hd d with hruled | ⟨hno, hsame⟩
    · exact .inl ⟨_, by simp, hruled⟩
    · rw [hsame]
      rcases hP with ⟨f, hf, hruled⟩ | ⟨hnone, hzero⟩
      · exact .inl ⟨f, by simp [hf], hruled⟩
      · exact .inr ⟨List.forall_mem_append.mpr ⟨hnone, List.forall_mem_singleton.mpr hno⟩, hzero⟩
  · exact fun _ _ _ _ hP => hP

/-- The packet has number 0, its message's counter is not 2, and the rule has marked no packet of
its port. -/
structure Spurious (h : History) (s : DropBitrateDequeueQueue) (header : PacketHeader) : Prop where
  octopus : header.isOctopus = true
  zero : header.msgNo = 0
  notTwo : s.count header.dstport header.msgNo ≠ some 2
  never : ∀ f ∈ h.fronts, ∀ m, ¬ f.Ruled header.dstport m

/-- **Every mark goes back to the rule, except on a spurious packet**, which is marked because
`msg_in_drop_` starts at 0. -/
theorem marked_by_rule_iff {h : History} {s s' : DropBitrateDequeueQueue} (hr : Reachable h s)
    {ts : Nat} {pkt : QueuedPacket} (hd : s.dequeuefront ts = .ok (pkt, s')) {header : PacketHeader}
    (hheader : PacketHeader.ofPayload pkt.contents = .ok header) :
    (pkt.isDrop = true →
      (s.DropRule ts pkt header ∨ ∃ f ∈ h.fronts, f.Ruled header.dstport header.msgNo) ∧
      ∃ f ∈ h.fronts ++ [⟨ts, s, pkt⟩], ∃ m, f.Ruled header.dstport m) ↔
    ¬ Spurious h s header := by
  have hmark := marked_iff hr hd hheader
  constructor
  · rintro hall ⟨hoct, hzero, htwo, hnever⟩
    have hdrop : header.msgNo = s.msgInDrop.getD header.dstport 0 := by
      rcases msgInDrop_cases hr header.dstport with ⟨f, hf, hruled⟩ | ⟨-, h0⟩
      · exact absurd hruled (hnever f hf _)
      · rw [h0, hzero]
    rcases (hall (hmark.mpr ⟨hoct, .inr ⟨htwo, hdrop⟩⟩)).1 with hrule | ⟨f, hf, hruled⟩
    · exact htwo hrule.1
    · exact hnever f hf _ hruled
  · intro hns hmarked
    obtain ⟨hoct, hrule | ⟨htwo, hdrop⟩⟩ := hmark.mp hmarked
    · exact ⟨.inl hrule, ⟨ts, s, pkt⟩, by simp, header.msgNo, header, hheader, hoct, rfl, rfl, hrule⟩
    · rcases msgInDrop_cases hr header.dstport with ⟨f, hf, hruled⟩ | ⟨hnever, h0⟩
      · exact ⟨.inr ⟨f, hf, hdrop ▸ hruled⟩, f, by simp [hf], _, hruled⟩
      · exact absurd ⟨hoct, hdrop.trans h0, htwo, hnever⟩ hns

/-- Message 5, and then a preempting message 6. -/
def preemptedPair : List Action :=
  [.enqueue 0 0 (udpPayload 4433 1 0xc0000005 0),
   .enqueue 1 1 (udpPayload 4433 2 0xc0000006 0x02000000)]

def header5 : PacketHeader := ⟨1, 0xc0000005, 0, 0x00110000, 4433⟩

theorem ofPayload_header5 :
    PacketHeader.ofPayload (udpPayload 4433 1 0xc0000005 0) = .ok header5 := by decide

theorem reachable_preemptedPair : ∃ h s s', Reachable h s ∧
    s.dequeuefront 2 = .ok (⟨0, udpPayload 4433 1 0xc0000005 0, true⟩, s') ∧
    s.count 4433 5 = some 2 ∧
    s.verdict 2 ⟨0, udpPayload 4433 1 0xc0000005 0, true⟩ header5 = .preempt := by
  obtain ⟨⟨h, s⟩, hrun, hs⟩ := of_map_ok
    (x := run Action.step preemptedPair ({}, ofArgs 100 0 false 0))
    (f := fun x => ((x.2.dequeuefront 2).map Prod.fst, x.2.count 4433 5,
      x.2.verdict 2 ⟨0, udpPayload 4433 1 0xc0000005 0, true⟩ header5))
    (b := (.ok ⟨0, udpPayload 4433 1 0xc0000005 0, true⟩, some 2, .preempt)) (by decide)
  simp only [Prod.mk.injEq] at hs
  obtain ⟨hd, hcount, hv⟩ := hs
  obtain ⟨⟨pkt, s'⟩, hd, rfl⟩ := of_map_ok hd
  exact ⟨h, s, s', ⟨100, 0, false, 0, _, hrun⟩, hd, hcount, hv⟩

theorem marked_by_rule_iff_preemptedPair : ∃ h s, Reachable h s ∧
    ((⟨0, udpPayload 4433 1 0xc0000005 0, true⟩ : QueuedPacket).isDrop = true →
      (s.DropRule 2 ⟨0, udpPayload 4433 1 0xc0000005 0, true⟩ header5 ∨
        ∃ f ∈ h.fronts, f.Ruled 4433 5) ∧
      ∃ f ∈ h.fronts ++ [⟨2, s, ⟨0, udpPayload 4433 1 0xc0000005 0, true⟩⟩],
        ∃ m, f.Ruled 4433 m) := by
  obtain ⟨h, s, s', hr, hd, hcount, -⟩ := reachable_preemptedPair
  exact ⟨h, s, hr, (marked_by_rule_iff hr hd ofPayload_header5).mpr
    fun hsp => hsp.notTwo hcount⟩

/-- A lone MID packet with number 0 is marked, on a port where the rule has never applied. -/
theorem zero_mid_marked : ¬ ∀ h s, Reachable h s → ∀ ts pkt s' header,
    s.dequeuefront ts = .ok (pkt, s') → PacketHeader.ofPayload pkt.contents = .ok header →
    pkt.isDrop = true →
    s.DropRule ts pkt header ∨ ∃ f ∈ h.fronts, f.Ruled header.dstport header.msgNo := by
  obtain ⟨⟨h, s⟩, hrun, hs⟩ := of_map_ok
    (x := run Action.step [.enqueue 0 0 (udpPayload 4433 1 0 0)] ({}, ofArgs 100 0 false 0))
    (f := fun x => ((x.2.dequeuefront 0).map Prod.fst, x.2.count 4433 0, x.1.fronts.length))
    (b := (.ok ⟨0, udpPayload 4433 1 0 0, true⟩, none, 0)) (by decide)
  simp only [Prod.mk.injEq] at hs
  obtain ⟨hd, hcount, hnil⟩ := hs
  obtain ⟨⟨pkt, s'⟩, hd, rfl⟩ := of_map_ok hd
  intro hall
  rcases hall h s ⟨100, 0, false, 0, _, hrun⟩ 0 _ s' ⟨1, 0, 0, 0x00110000, 4433⟩ hd (by decide) rfl
    with hrule | ⟨f, hf, -⟩
  · have htwo : s.count 4433 0 = some 2 := hrule.1
    rw [hcount] at htwo; cases htwo
  · rw [List.length_eq_zero_iff.mp hnil] at hf; cases hf

end DropBitrateDequeueQueue

end Mahimahi
