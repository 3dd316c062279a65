import Mahimahi.Library.Blocks
import Mahimahi.DropBitrate.Rules

/-!
# DropBitrate — whole messages

Where the Octopus packets of each port arrive as consecutive messages with distinct non-zero
numbers (`InMessages`), messages are dropped whole.

* `disciplined_of_inMessages`: what is used of such arrivals, and holds of every sublist of them.
  Nothing of a message follows its LAST or SOLO packet or precedes its FIRST, and no packet of
  another message of the port lies between two of its packets.
* `decided_once`: of the packets of one message that have left the queue, none is marked, or all
  are; in the second case `msg_in_drop_` holds the number for those that are still queued.  The
  drop rule can only apply to the first packet of a message to leave, since after that the counter
  is at most 1.
* `messages_whole`: `dequeue` returns all that have left, or none but the last packet of the
  message, and that only when the queue is then empty.
-/

open Fallible MachineInt Blocks
open Std (TreeMap)

namespace Mahimahi

/-! ### Messages on the wire -/

/-- A message: one SOLO packet, or FIRST, some MID packets and LAST. -/
inductive Message where
  | solo (no : Int)
  | frames (no : Int) (mids : Nat)

namespace Message

def no : Message → Int
  | .solo no => no
  | .frames no _ => no

def stamps (d : UInt16) : Message → List Stamp
  | .solo no => [⟨d, no, .solo⟩]
  | .frames no mids => ⟨d, no, .first⟩ :: (List.replicate mids ⟨d, no, .mid⟩ ++ [⟨d, no, .last⟩])

theorem no_of_mem {d : UInt16} {M : Message} {σ : Stamp} (h : σ ∈ M.stamps d) : σ.no = M.no := by
  cases M with
  | solo no => rw [List.mem_singleton.mp h]; rfl
  | frames no mids =>
      simp only [stamps, List.mem_cons, List.mem_append, List.mem_replicate, List.not_mem_nil,
        or_false] at h
      rcases h with rfl | ⟨-, rfl⟩ | rfl <;> rfl

end Message

/-- `σ` may come before `τ` in one message. -/
def Stamp.Before (σ τ : Stamp) : Prop :=
  σ.pos ≠ .last ∧ σ.pos ≠ .solo ∧ τ.pos ≠ .first ∧ τ.pos ≠ .solo

theorem Message.pairwise_stamps (d : UInt16) (M : Message) :
    (M.stamps d).Pairwise fun σ τ => σ.no = τ.no → σ.Before τ := by
  cases M with
  | solo no => exact List.pairwise_singleton _ _
  | frames no mids =>
      refine List.pairwise_cons.mpr ⟨?_, List.pairwise_append.mpr ⟨?_, List.pairwise_singleton _ _, ?_⟩⟩
      · intro τ hτ _
        rcases List.mem_append.mp hτ with hτ | hτ
        · rw [(List.mem_replicate.mp hτ).2]; simp [Stamp.Before]
        · rw [List.mem_singleton.mp hτ]; simp [Stamp.Before]
      · exact List.pairwise_replicate.mpr (.inr fun _ => by simp [Stamp.Before])
      · intro σ hσ τ hτ _
        rw [(List.mem_replicate.mp hσ).2, List.mem_singleton.mp hτ]
        simp [Stamp.Before]

def stampsOf (ps : List QueuedPacket) : List Stamp := ps.filterMap QueuedPacket.stamp

@[simp] theorem stampsOf_append (ps qs : List QueuedPacket) :
    stampsOf (ps ++ qs) = stampsOf ps ++ stampsOf qs := List.filterMap_append

theorem mem_stampsOf {ps : List QueuedPacket} {σ : Stamp} :
    σ ∈ stampsOf ps ↔ ∃ p ∈ ps, p.stamp = some σ := List.mem_filterMap

/-- The Octopus packets of port `d` form consecutive messages, the last one perhaps unfinished,
with distinct numbers other than 0. -/
def InMessages (d : UInt16) (ps : List QueuedPacket) : Prop :=
  ∃ ms : List Message, (stampsOf ps).filter (·.port = d) <+: ms.flatMap (Message.stamps d) ∧
    (ms.map Message.no).Nodup ∧ ∀ M ∈ ms, M.no ≠ 0

/-- What the proof uses of arrivals in messages. -/
structure Disciplined (σs : List Stamp) : Prop where
  ordered : ∀ {σ τ}, [σ, τ].Sublist σs → σ.port = τ.port → σ.no = τ.no → σ.Before τ
  grouped : ∀ {σ τ υ}, [σ, τ, υ].Sublist σs → σ.port = τ.port → τ.port = υ.port → σ.no = υ.no →
    τ.no = σ.no
  nonzero : ∀ σ ∈ σs, σ.no ≠ 0

theorem Disciplined.sublist {σs τs : List Stamp} (h : Disciplined τs) (hs : σs.Sublist τs) :
    Disciplined σs where
  ordered hsub := h.ordered (hsub.trans hs)
  grouped hsub := h.grouped (hsub.trans hs)
  nonzero σ hσ := h.nonzero σ (hs.subset hσ)

theorem disciplined_of_inMessages {ps : List QueuedPacket} (h : ∀ d, InMessages d ps) :
    Disciplined (stampsOf ps) where
  ordered := by
    intro σ τ hsub hport hno
    obtain ⟨ms, hpre, hnodup, -⟩ := h σ.port
    have hsub' : [σ, τ].Sublist (ms.flatMap (Message.stamps σ.port)) := by
      have := hsub.filter (·.port = σ.port)
      simp only [List.filter_cons, List.filter_nil, ← hport, decide_true, if_true] at this
      exact this.trans hpre.sublist
    exact List.pairwise_iff_forall_sublist.mp (pairwise_flatMap_of_keys Stamp.no
      (fun M _ _ hσ => Message.no_of_mem hσ) hnodup fun M _ => M.pairwise_stamps _) hsub' hno
  grouped := by
    intro σ τ υ hsub hστ hτυ hno
    obtain ⟨ms, hpre, hnodup, -⟩ := h σ.port
    have hsub' : [σ, τ, υ].Sublist (ms.flatMap (Message.stamps σ.port)) := by
      have := hsub.filter (·.port = σ.port)
      simp only [List.filter_cons, List.filter_nil, ← hτυ, ← hστ, decide_true, if_true] at this
      exact this.trans hpre.sublist
    exact grouped_flatMap Stamp.no (fun M _ _ hσ => Message.no_of_mem hσ) hnodup hsub' hno
  nonzero := by
    intro σ hσ hzero
    obtain ⟨ms, hpre, -, hnz⟩ := h σ.port
    have hmem := hpre.sublist.subset (List.mem_filter.mpr ⟨hσ, by simp⟩)
    obtain ⟨M, hM, hσM⟩ := List.mem_flatMap.mp hmem
    exact hnz M hM (Message.no_of_mem hσM ▸ hzero)

/-- The packet carries port `d` and number `m`. -/
def QueuedPacket.Of (p : QueuedPacket) (d : UInt16) (m : Int) : Prop :=
  ∃ pos, p.stamp = some ⟨d, m, pos⟩

theorem QueuedPacket.stamp_eq_some {p : QueuedPacket} {σ : Stamp} (h : p.stamp = some σ) :
    ∃ header, PacketHeader.ofPayload p.contents = .ok header ∧ header.isOctopus = true ∧
      header.dstport = σ.port ∧ header.msgNo = σ.no ∧ header.pktPos = σ.pos := by
  obtain ⟨header, hheader, hst⟩ := Option.bind_eq_some_iff.mp h
  unfold QueuedPacket.header? at hheader
  split at hheader
  · rename_i header₁ hok
    cases hheader
    unfold PacketHeader.stamp at hst
    split at hst
    · rename_i hoct; cases hst; exact ⟨header, hok, hoct, rfl, rfl, rfl⟩
    · cases hst
  · cases hheader

theorem QueuedPacket.Of.unique {p : QueuedPacket} {d : UInt16} {m m' : Int} (h : p.Of d m)
    (h' : p.Of d m') : m = m' := by
  obtain ⟨pos, hst⟩ := h
  obtain ⟨pos', hst'⟩ := h'
  rw [hst] at hst'
  cases hst'
  rfl

/-- The packet is the last of its message. -/
def QueuedPacket.Ends (p : QueuedPacket) (d : UInt16) (m : Int) : Prop :=
  p.stamp = some ⟨d, m, .last⟩ ∨ p.stamp = some ⟨d, m, .solo⟩

theorem QueuedPacket.Ends.of {p : QueuedPacket} {d : UInt16} {m : Int} (h : p.Ends d m) :
    p.Of d m := by
  rcases h with h | h <;> exact ⟨_, h⟩

/-- Nothing of a message comes after the packet that ends it. -/
theorem Disciplined.not_after_end {ps qs : List QueuedPacket}
    (h : Disciplined (stampsOf ps ++ stampsOf qs)) {p q : QueuedPacket} {d : UInt16} {m : Int}
    (hp : p ∈ ps) (hpe : p.Ends d m) (hq : q ∈ qs) (hqo : q.Of d m) : False := by
  obtain ⟨pos, hqst⟩ := hqo
  rcases hpe with hpst | hpst
  · exact (h.ordered (pair_sublist_append (mem_stampsOf.mpr ⟨p, hp, hpst⟩)
      (mem_stampsOf.mpr ⟨q, hq, hqst⟩)) rfl rfl).1 rfl
  · exact (h.ordered (pair_sublist_append (mem_stampsOf.mpr ⟨p, hp, hpst⟩)
      (mem_stampsOf.mpr ⟨q, hq, hqst⟩)) rfl rfl).2.1 rfl

@[simp] theorem QueuedPacket.unmarked_stamp (p : QueuedPacket) : p.unmarked.stamp = p.stamp := rfl

theorem Disciplined.count_le_one {ps : List QueuedPacket} (h : Disciplined (stampsOf ps))
    {σ : Stamp} (hσ : σ.pos ≠ .mid) : (ps.countP fun p => p.stamp = some σ) ≤ 1 := by
  have hcount : (ps.countP fun p => p.stamp = some σ) = (stampsOf ps).count σ := by
    clear h
    induction ps with
    | nil => rfl
    | cons p ps ih =>
        rw [List.countP_cons, ih]
        cases hst : p.stamp with
        | none => simp [stampsOf, hst]
        | some τ => simp [stampsOf, hst, List.count_cons]
  rw [hcount]
  by_contra hgt
  have hsub : [σ, σ].Sublist (stampsOf ps) := List.replicate_sublist_iff.mpr (show 2 ≤ _ by omega)
  have hb := h.ordered hsub rfl rfl
  unfold Stamp.Before at hb
  cases hpos : σ.pos <;> simp_all

namespace DropBitrateDequeueQueue

/-! ### The decision is taken once -/

/-- Of the packets of one message that have left, none is marked, or all are. -/
def DecidedOnce (d : UInt16) (m : Int) (h : History) (s : DropBitrateDequeueQueue) : Prop :=
  ((∀ f ∈ h.fronts, f.pkt.Of d m → f.pkt.isDrop = false) ∧ s.msgInDrop.getD d 0 ≠ m) ∨
  ((∀ f ∈ h.fronts, f.pkt.Of d m → f.pkt.isDrop = true ∧
      ∃ q ∈ f.before.internalQueue, q.Ends d m) ∧
    (∃ f ∈ h.fronts, f.pkt.Of d m) ∧ (∃ q ∈ h.accepted, q.Ends d m) ∧
    ((∃ q ∈ s.internalQueue, q.Of d m) → s.msgInDrop.getD d 0 = m))

theorem stampsOf_accepted {h : History} {s : DropBitrateDequeueQueue} (hr : Reachable h s) :
    stampsOf h.accepted = stampsOf (h.fronts.map Front.pkt) ++ stampsOf s.internalQueue := by
  rw [(accepted_eq hr).1, stampsOf_append]
  congr 1
  simp [stampsOf, List.filterMap_map, Function.comp_def]

/-- Once a packet of the message has left, its counter is not 2. -/
theorem count_ne_two_of_left {h : History} {s : DropBitrateDequeueQueue} (hr : Reachable h s)
    (hdisc : Disciplined (stampsOf h.accepted)) {d : UInt16} {m : Int}
    (hleft : ∃ f ∈ h.fronts, f.pkt.Of d m) : s.count d m ≠ some 2 := by
  obtain ⟨f, hf, pos, hst⟩ := hleft
  have hacc := stampsOf_accepted hr
  have hlate : ∀ q ∈ s.internalQueue, ∀ pos', q.stamp = some ⟨d, m, pos'⟩ →
      pos' ≠ .first ∧ pos' ≠ .solo := by
    intro q hq pos' hqst
    have hsub := pair_sublist_append
      (mem_stampsOf.mpr ⟨f.pkt, List.mem_map_of_mem hf, hst⟩) (mem_stampsOf.mpr ⟨q, hq, hqst⟩)
    have hb : Stamp.Before ⟨d, m, pos⟩ ⟨d, m, pos'⟩ := hdisc.ordered (hacc ▸ hsub) rfl rfl
    exact ⟨hb.2.2.1, hb.2.2.2⟩
  have hlast : s.queued d m .last ≤ 1 :=
    (hdisc.sublist (hacc ▸ List.sublist_append_right _ _)).count_le_one (by simp)
  have hfirst : ¬ 0 < s.queued d m .first := fun hpos => by
    obtain ⟨q, hq, hqst⟩ := queued_pos_iff.mp hpos
    exact (hlate q hq _ hqst).1 rfl
  have hsolo : ¬ 0 < s.queued d m .solo := fun hpos => by
    obtain ⟨q, hq, hqst⟩ := queued_pos_iff.mp hpos
    exact (hlate q hq _ hqst).2 rfl
  intro htwo
  have := count_eq_queued hr htwo
  omega

/-- Where the counter is 2, the packet that ends the message is queued. -/
theorem end_queued_of_two {h : History} {s : DropBitrateDequeueQueue} (hr : Reachable h s)
    (hdisc : Disciplined (stampsOf h.accepted)) {d : UInt16} {m : Int}
    (htwo : s.count d m = some 2) : ∃ q ∈ s.internalQueue, q.Ends d m := by
  have hfirst : s.queued d m .first ≤ 1 :=
    (hdisc.sublist (stampsOf_accepted hr ▸ List.sublist_append_right _ _)).count_le_one (by simp)
  have hsum := count_eq_queued hr htwo
  have hend : 0 < s.queued d m .last ∨ 0 < s.queued d m .solo := by omega
  rcases hend with hpos | hpos
  · obtain ⟨q, hq, hst⟩ := queued_pos_iff.mp hpos
    exact ⟨q, hq, .inl hst⟩
  · obtain ⟨q, hq, hst⟩ := queued_pos_iff.mp hpos
    exact ⟨q, hq, .inr hst⟩

theorem marked_iff_ruled {h : History} {s s' : DropBitrateDequeueQueue} (hr : Reachable h s)
    {ts : Nat} {pkt : QueuedPacket} (hd : s.dequeuefront ts = .ok (pkt, s')) {d : UInt16} {m : Int}
    (hof : pkt.Of d m) : pkt.isDrop = true ↔
      Front.Ruled ⟨ts, s, pkt⟩ d m ∨ (s.count d m ≠ some 2 ∧ m = s.msgInDrop.getD d 0) := by
  obtain ⟨pos, hst⟩ := hof
  obtain ⟨header, hheader, hoct, rfl, rfl, -⟩ := QueuedPacket.stamp_eq_some hst
  rw [marked_iff hr hd hheader]
  simp only [hoct, true_and]
  refine or_congr_left ⟨fun hrule => ⟨header, hheader, hoct, rfl, rfl, hrule⟩, ?_⟩
  rintro ⟨header', hheader', -, -, -, hrule⟩
  obtain rfl : header = header' := Except.ok.inj (hheader.symm.trans hheader')
  exact hrule

theorem Front.Ruled.of {f : Front} {d : UInt16} {m : Int} (h : f.Ruled d m) : f.pkt.Of d m := by
  obtain ⟨header, hheader, hoct, rfl, rfl, -⟩ := h
  exact ⟨header.pktPos, by simp [QueuedPacket.stamp_of_ok hheader, PacketHeader.stamp, hoct]⟩

theorem Front.Ruled.two {f : Front} {d : UInt16} {m : Int} (h : f.Ruled d m) :
    f.before.count d m = some 2 := by
  obtain ⟨header, -, -, rfl, rfl, hrule⟩ := h
  exact hrule.1

/-- Another message of the port that leaves between two packets of a message: there is none. -/
theorem between_same_no {h : History} {s : DropBitrateDequeueQueue} (hr : Reachable h s)
    (hdisc : Disciplined (stampsOf h.accepted)) {p : QueuedPacket} {rest : List QueuedPacket}
    (hq : s.internalQueue = p :: rest) {d : UInt16} {m m' : Int}
    (hleft : ∃ f ∈ h.fronts, f.pkt.Of d m) (hp : p.Of d m') (hrest : ∃ q ∈ rest, q.Of d m) :
    m' = m := by
  obtain ⟨f, hf, pos, hst⟩ := hleft
  obtain ⟨pos', hpst⟩ := hp
  obtain ⟨q, hqm, pos'', hqst⟩ := hrest
  have hacc : stampsOf h.accepted =
      stampsOf (h.fronts.map Front.pkt) ++ ⟨d, m', pos'⟩ :: stampsOf rest := by
    rw [stampsOf_accepted hr, hq]; simp [stampsOf, hpst]
  have hsub : [(⟨d, m, pos⟩ : Stamp), ⟨d, m', pos'⟩, ⟨d, m, pos''⟩].Sublist (stampsOf h.accepted) :=
    hacc ▸ triple_sublist_append (mem_stampsOf.mpr ⟨f.pkt, List.mem_map_of_mem hf, hst⟩)
      (mem_stampsOf.mpr ⟨q, hqm, hqst⟩)
  exact hdisc.grouped hsub rfl rfl rfl

theorem forall_fronts_concat {h : History} {g : Front} {Q : Front → Prop}
    (hall : ∀ f ∈ h.fronts, Q f) (hlast : Q g) : ∀ f ∈ h.fronts ++ [g], Q f :=
  List.forall_mem_append.mpr ⟨hall, List.forall_mem_singleton.mpr hlast⟩

/-- The rule applies: this is the first packet of its message to leave. -/
theorem decidedOnce_ruled {h : History} {s s' : DropBitrateDequeueQueue} (hr : Reachable h s)
    {ts : Nat} {pkt : QueuedPacket} (hd : s.dequeuefront ts = .ok (pkt, s'))
    (hdisc : Disciplined (stampsOf h.accepted)) {d : UInt16} {m : Int}
    (hruled : Front.Ruled ⟨ts, s, pkt⟩ d m) :
    DecidedOnce d m { h with fronts := h.fronts ++ [⟨ts, s, pkt⟩] } s' := by
  have hof : pkt.Of d m := hruled.of
  have hfirst : ∀ f ∈ h.fronts, ¬ f.pkt.Of d m := fun f hf hfo =>
    count_ne_two_of_left hr hdisc ⟨f, hf, hfo⟩ hruled.two
  have hend := end_queued_of_two hr hdisc hruled.two
  have hdrop : s'.msgInDrop.getD d 0 = m := by
    rcases dequeuefront_msgInDrop hd d with hruled' | ⟨hno, -⟩
    · exact hruled'.of.unique hof
    · exact absurd hruled (hno m)
  have hmarked : pkt.isDrop = true := (marked_iff_ruled hr hd hof).mpr (.inl hruled)
  refine .inr ⟨forall_fronts_concat (fun f hf hfo => absurd hfo (hfirst f hf))
    fun _ => ⟨hmarked, hend⟩, ⟨⟨ts, s, pkt⟩, by simp, hof⟩, ?_, fun _ => hdrop⟩
  obtain ⟨q, hqm, hqe⟩ := hend
  exact ⟨q, by simp [(accepted_eq hr).1, hqm], hqe⟩

/-- The rule does not apply to this packet of the message: `msg_in_drop_` decides. -/
theorem decidedOnce_carried {h : History} {s s' : DropBitrateDequeueQueue} (hr : Reachable h s)
    {ts : Nat} {pkt : QueuedPacket} (hd : s.dequeuefront ts = .ok (pkt, s'))
    (hdisc : Disciplined (stampsOf h.accepted)) {d : UInt16} {m : Int}
    (hP : DecidedOnce d m h s) (hof : pkt.Of d m) (hruled : ¬ Front.Ruled ⟨ts, s, pkt⟩ d m) :
    DecidedOnce d m { h with fronts := h.fronts ++ [⟨ts, s, pkt⟩] } s' := by
  obtain ⟨p, hq, hpkt⟩ := dequeuefront_queue hd
  have hpof : p.Of d m := by rw [hpkt] at hof; exact hof
  have hmark := marked_iff_ruled hr hd hof
  have hsame : s'.msgInDrop.getD d 0 = s.msgInDrop.getD d 0 := by
    rcases dequeuefront_msgInDrop hd d with hruled' | ⟨-, hsame⟩
    · exact absurd (hruled'.of.unique hof ▸ hruled') hruled
    · exact hsame
  rcases hP with ⟨hnone, hne⟩ | ⟨hall, hex, hacc, hcarry⟩
  · refine .inl ⟨forall_fronts_concat hnone fun _ => ?_, by rwa [hsame]⟩
    rw [← Bool.not_eq_true, hmark]
    rintro (hruled' | ⟨-, heq⟩)
    · exact hruled hruled'
    · exact hne heq.symm
  · -- the decision was to drop, and `msg_in_drop_` still holds the number
    have hm : s.msgInDrop.getD d 0 = m := hcarry ⟨p, by simp [hq], hpof⟩
    have hend : ∃ q ∈ s.internalQueue, q.Ends d m := by
      obtain ⟨q, hqm, hqe⟩ := hacc
      rw [(accepted_eq hr).1] at hqm
      rcases List.mem_append.mp hqm with hqm | hqm
      · obtain ⟨f, hf, rfl⟩ := List.mem_map.mp hqm
        exact (Disciplined.not_after_end (stampsOf_accepted hr ▸ hdisc)
          (List.mem_map_of_mem hf) hqe (q := p) (by simp [hq]) hpof).elim
      · exact ⟨q, hqm, hqe⟩
    have htwo := count_ne_two_of_left hr hdisc hex
    exact .inr ⟨forall_fronts_concat hall fun _ => ⟨hmark.mpr (.inr ⟨htwo, hm.symm⟩), hend⟩,
      ⟨⟨ts, s, pkt⟩, by simp, hof⟩, hacc, fun _ => hsame.trans hm⟩

/-- A packet of another message leaves `msg_in_drop_` alone while packets of this one are queued. -/
theorem decidedOnce_other {h : History} {s s' : DropBitrateDequeueQueue} (hr : Reachable h s)
    {ts : Nat} {pkt : QueuedPacket} (hd : s.dequeuefront ts = .ok (pkt, s'))
    (hdisc : Disciplined (stampsOf h.accepted)) {d : UInt16} {m : Int}
    (hP : DecidedOnce d m h s) (hof : ¬ pkt.Of d m) :
    DecidedOnce d m { h with fronts := h.fronts ++ [⟨ts, s, pkt⟩] } s' := by
  obtain ⟨p, hq, hpkt⟩ := dequeuefront_queue hd
  have hdrop := dequeuefront_msgInDrop hd d
  have hpof : ∀ {m'}, Front.Ruled ⟨ts, s, pkt⟩ d m' → p.Of d m' := fun hruled => by
    have hof' := hruled.of
    rw [hpkt] at hof'
    exact hof'
  rcases hP with ⟨hnone, hne⟩ | ⟨hall, ⟨f, hf, hfo⟩, hacc, hcarry⟩
  · refine .inl ⟨forall_fronts_concat hnone fun hfo => absurd hfo hof, ?_⟩
    rcases hdrop with hruled | ⟨-, hsame⟩
    · rintro rfl
      exact hof hruled.of
    · rwa [hsame]
  · refine .inr ⟨forall_fronts_concat hall fun hfo => absurd hfo hof, ⟨f, by simp [hf], hfo⟩, hacc, ?_⟩
    rintro ⟨q, hqm, hqo⟩
    have hm := hcarry ⟨q, by simp [hq, hqm], hqo⟩
    rcases hdrop with hruled | ⟨-, hsame⟩
    · exact between_same_no hr hdisc hq ⟨f, hf, hfo⟩ (hpof hruled) ⟨q, hqm, hqo⟩
    · exact hsame.trans hm

/-- One `dequeuefront`.  The first packet of a message to leave may be marked by the rule; after
that the counter is not 2, so `msg_in_drop_` decides. -/
theorem decidedOnce_front {h : History} {s s' : DropBitrateDequeueQueue} (hr : Reachable h s)
    {ts : Nat} {pkt : QueuedPacket} (hd : s.dequeuefront ts = .ok (pkt, s'))
    (hdisc : Disciplined (stampsOf h.accepted)) {d : UInt16} {m : Int}
    (hP : DecidedOnce d m h s) :
    DecidedOnce d m { h with fronts := h.fronts ++ [⟨ts, s, pkt⟩] } s' := by
  by_cases hof : pkt.Of d m
  · by_cases hruled : Front.Ruled ⟨ts, s, pkt⟩ d m
    · exact decidedOnce_ruled hr hd hdisc hruled
    · exact decidedOnce_carried hr hd hdisc hP hof hruled
  · exact decidedOnce_other hr hd hdisc hP hof

/-- **A message is dropped or kept as a whole.** -/
theorem decided_once {h : History} {s : DropBitrateDequeueQueue} (hr : Reachable h s)
    (hdisc : Disciplined (stampsOf h.accepted)) {d : UInt16} {m : Int} (hm : m ≠ 0) :
    DecidedOnce d m h s := by
  refine hr.induction (P := fun h s => Disciplined (stampsOf h.accepted) → DecidedOnce d m h s)
    ?_ ?_ ?_ ?_ hdisc
  · exact fun _ _ _ _ _ => .inl ⟨by simp, by simpa [ofArgs] using hm.symm⟩
  · intro h s s' ts p hr hP _ henq hdisc
    rcases enqueue_queue henq with ⟨hfits, rfl⟩ | ⟨hfits, hqueue⟩
    · simp only [History.offer, hfits, Except.ok.injEq, Bool.false_eq_true, if_false] at hdisc ⊢
      exact hP hdisc
    · simp only [History.offer, if_pos hfits, stampsOf_append] at hdisc ⊢
      have hP := hP (hdisc.sublist (List.sublist_append_left _ _))
      rw [DecidedOnce, enqueue_msgInDrop henq]
      rcases hP with hnone | ⟨hall, hex, ⟨q, hqm, hqe⟩, hcarry⟩
      · exact .inl hnone
      · refine .inr ⟨hall, hex, ⟨q, by simp [hqm], hqe⟩, ?_⟩
        rintro ⟨r, hrm, hro⟩
        rcases List.mem_append.mp (hqueue ▸ hrm) with hrm | hrm
        · exact hcarry ⟨r, hrm, hro⟩
        · exact (hdisc.not_after_end hqm hqe hrm hro).elim
  · exact fun h s s' ts pkt hr hP hd hdisc => decidedOnce_front hr hd hdisc (hP hdisc)
  · exact fun _ _ _ _ hP hdisc => hP hdisc

/-! ### Runs of calls -/

def Call.offered : Call → Option QueuedPacket
  | .enqueue _ arrivalTime contents => some { arrivalTime, contents }
  | _ => none

/-- The packets that the calls offer to the queue, accepted or not. -/
def arrivals (calls : List Call) : List QueuedPacket := calls.filterMap Call.offered

theorem accepted_sublist {packetLimit byteLimit bandwidth : Nat} {logFd : Bool} {calls : List Call}
    {t : Trace} {s : DropBitrateDequeueQueue}
    (hrun : run Call.step calls ({}, ofArgs packetLimit byteLimit logFd bandwidth) = .ok (t, s)) :
    t.accepted.Sublist (arrivals calls) := by
  refine run_induction (P := fun calls x => x.1.accepted.Sublist (arrivals calls)) .slnil ?_ hrun
  rintro done ⟨t, s⟩ c ⟨t', s'⟩ - hsub hstep
  rw [arrivals, List.filterMap_append]
  cases c with
  | enqueue ts arrivalTime contents =>
      obtain ⟨s₁, -, hstep⟩ := bind_ok.mp hstep
      cases hstep
      simp only [History.offer, Trace.history]
      split
      · exact hsub.append (.refl _)
      · exact hsub.trans (List.sublist_append_left _ _)
  | dequeue clock =>
      obtain ⟨r, -, hstep⟩ := bind_ok.mp hstep
      cases hstep
      exact hsub.trans (List.sublist_append_left _ _)
  | setBandwidth bandwidth =>
      cases hstep
      exact hsub.trans (List.sublist_append_left _ _)

/-- `dequeue` discards only marked packets, and returns a marked Octopus packet only when it was
the last one queued. -/
def Trace.Sound (t : Trace) : Prop :=
  ∀ r ∈ t.removed, (r.2 = false → r.1.pkt.isDrop = true) ∧
    (r.2 = true → r.1.pkt.isDrop = true → r.1.pkt.stamp ≠ none →
      ∃ p, r.1.before.internalQueue = [p] ∧ p.stamp = r.1.pkt.stamp)

theorem trace_sound {packetLimit byteLimit bandwidth : Nat} {logFd : Bool} {calls : List Call}
    {t : Trace} {s : DropBitrateDequeueQueue}
    (hrun : run Call.step calls ({}, ofArgs packetLimit byteLimit logFd bandwidth) = .ok (t, s)) :
    t.Sound := by
  refine run_induction (P := fun _ x => x.1.Sound) (by simp [Trace.Sound]) ?_ hrun
  rintro done ⟨t, s⟩ c ⟨t', s'⟩ - hsound hstep
  cases c with
  | enqueue ts arrivalTime contents =>
      obtain ⟨s₁, -, hstep⟩ := bind_ok.mp hstep
      cases hstep
      exact hsound
  | dequeue clock =>
      obtain ⟨⟨dropped, f, s₁⟩, hdeq, hstep⟩ := bind_ok.mp hstep
      cases hstep
      obtain ⟨-, hmarked, hlast, hend⟩ := dequeueAll_cases hdeq
      intro r hr
      simp only [List.mem_append, List.mem_map, List.mem_singleton] at hr
      rcases hr with (hr | ⟨g, hg, rfl⟩) | rfl
      · exact hsound r hr
      · exact ⟨fun _ => hmarked g hg, fun h => by cases h⟩
      · refine ⟨fun h => (by cases h), fun _ hmark hst => ?_⟩
        obtain ⟨p, hq, hpkt⟩ := dequeuefront_queue hlast
        rcases hend with hnil | ⟨header, hheader, hno⟩
        · exact ⟨p, by rw [hq, hnil], by rw [hpkt]; rfl⟩
        · obtain ⟨σ, hσ⟩ := Option.ne_none_iff_exists'.mp hst
          obtain ⟨header', hheader', hoct, -⟩ := QueuedPacket.stamp_eq_some hσ
          obtain rfl : header = header' := Except.ok.inj (hheader.symm.trans hheader')
          rw [hoct, hmark] at hno
          cases hno
  | setBandwidth bandwidth =>
      cases hstep
      exact hsound

/-- **Messages are returned whole, or dropped whole** but for a last packet that leaves the queue
empty. -/
theorem messages_whole {packetLimit byteLimit bandwidth : Nat} {logFd : Bool} {calls : List Call}
    {t : Trace} {s : DropBitrateDequeueQueue}
    (hrun : run Call.step calls ({}, ofArgs packetLimit byteLimit logFd bandwidth) = .ok (t, s))
    (hmsgs : ∀ d, InMessages d (arrivals calls)) (d : UInt16) (m : Int) :
    (∀ r ∈ t.removed, r.1.pkt.Of d m → r.2 = true) ∨
    ∀ r ∈ t.removed, r.1.pkt.Of d m →
      r.2 = false ∨ (r.1.pkt.Ends d m ∧ r.1.before.internalQueue.length = 1) := by
  have hr := run_reachable hrun
  have hdisc : Disciplined (stampsOf t.accepted) :=
    (disciplined_of_inMessages hmsgs).sublist ((accepted_sublist hrun).filterMap _)
  have hfronts : ∀ r ∈ t.removed, r.1 ∈ t.history.fronts := fun r hmem => List.mem_map_of_mem hmem
  by_cases hm : m = 0
  · refine .inl fun r hmem ⟨pos, hst⟩ => absurd hm ?_
    refine hdisc.nonzero ⟨d, m, pos⟩ ?_
    rw [show stampsOf t.accepted = _ from stampsOf_accepted hr]
    exact List.mem_append_left _
      (mem_stampsOf.mpr ⟨r.1.pkt, List.mem_map_of_mem (hfronts r hmem), hst⟩)
  · rcases decided_once hr hdisc hm with ⟨hnone, -⟩ | ⟨hall, -⟩
    · refine .inl fun r hmem hof => ?_
      by_contra hdisc
      have hmark := (trace_sound hrun r hmem).1 (by simpa using hdisc)
      rw [hnone r.1 (hfronts r hmem) hof] at hmark
      cases hmark
    · refine .inr fun r hmem hof => ?_
      obtain ⟨hmark, q, hq, hend⟩ := hall r.1 (hfronts r hmem) hof
      cases hret : r.2 with
      | false => exact .inl rfl
      | true =>
          obtain ⟨pos, hst⟩ := hof
          obtain ⟨p, hqueue, hp⟩ := (trace_sound hrun r hmem).2 hret hmark (by simp [hst])
          obtain rfl : q = p := by simpa [hqueue] using hq
          refine .inr ⟨?_, by simp [hqueue]⟩
          unfold QueuedPacket.Ends at hend ⊢
          rwa [← hp]

/-- FIRST and LAST of message 5, the preempting message 6, and one `dequeue`. -/
def twoMessages : List Call :=
  [.enqueue 0 0 (udpPayload 4433 1 0x80000005 0), .enqueue 0 0 (udpPayload 4433 2 0x40000005 0),
   .enqueue 1 1 (udpPayload 4433 3 0xc0000006 0x02000000), .dequeue fun _ => 2]

theorem messages_whole_twoMessages : ∃ t s,
    run Call.step twoMessages ({}, ofArgs 100 0 false 0) = .ok (t, s) ∧
    t.removed.map Prod.snd = [false, false, true] ∧
    ((∀ r ∈ t.removed, r.1.pkt.Of 4433 5 → r.2 = true) ∨
      ∀ r ∈ t.removed, r.1.pkt.Of 4433 5 →
        r.2 = false ∨ (r.1.pkt.Ends 4433 5 ∧ r.1.before.internalQueue.length = 1)) := by
  obtain ⟨⟨t, s⟩, hrun, hs⟩ := of_map_ok (x := run Call.step twoMessages ({}, ofArgs 100 0 false 0))
    (f := fun x => x.1.removed.map Prod.snd) (b := [false, false, true]) (by decide)
  refine ⟨t, s, hrun, hs, messages_whole hrun (fun d => ?_) 4433 5⟩
  have hst : stampsOf (arrivals twoMessages) =
      [⟨4433, 5, .first⟩, ⟨4433, 5, .last⟩, ⟨4433, 6, .solo⟩] := by decide
  by_cases hd : d = 4433
  · subst hd
    exact ⟨[.frames 5 0, .solo 6], by rw [hst]; decide, by decide, by decide⟩
  · refine ⟨[], ?_, by simp, by simp⟩
    rw [hst]
    simp [Ne.symm hd]

end DropBitrateDequeueQueue

end Mahimahi
