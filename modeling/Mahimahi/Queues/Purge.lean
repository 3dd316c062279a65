import Mahimahi.Library.Scan
import Mahimahi.Queues.ActiveNet

/-!
# Queues — what the active-network queue purges

`dropStaleFrames` reads a header in every queued packet, UDP or not, and `msg_in_drop_` stays as the
last purge left it.

* `purges_stale_iff`: in a queue whose messages are in order, a purge erases the packets of the stale
  messages, and no others, exactly when no other packet has the look of one (`OthersSpared`).
-/

open Fallible MachineInt

namespace Mahimahi

namespace QueuedPacket

/-- The message number, if there is a header. -/
def number (p : QueuedPacket) : Option Int := p.header?.map PacketHeader.msgNo

/-- FIRST or SOLO. -/
def opens (p : QueuedPacket) : Bool :=
  p.header?.any fun header => header.pktPos = .first || header.pktPos = .solo

end QueuedPacket

/-- The packets of each message stand together, with none behind the first that is FIRST or SOLO. -/
structure InOrder (ps : List QueuedPacket) : Prop where
  together : ∀ x y z, [x, y, z].Sublist ps → x.number = z.number → y.number = x.number
  opens : ∀ x y, [x, y].Sublist ps → x.number = y.number → y.opens = false

namespace DropActiveNetQueue

variable (toDrop : Nat) (dropperMsg : Int)

/-- The first test of the scan, which asks nothing about UDP. -/
def stale (p : QueuedPacket) : Bool :=
  p.header?.any fun header =>
    decide (toDrop ≤ header.priority.val) && decide (header.msgNo < dropperMsg) &&
      (header.pktPos = .first || header.pktPos = .solo)

/-- Whether the scan erases a packet, with `msg_in_drop_` as it is then. -/
def erases (msgInDrop : Int) (p : QueuedPacket) : Bool :=
  stale toDrop dropperMsg p || p.number = some msgInDrop

/-- `msg_in_drop_` behind the packet. -/
def carry (msgInDrop : Int) (p : QueuedPacket) : Int :=
  if stale toDrop dropperMsg p then p.number.getD msgInDrop else msgInDrop

/-- `p` belongs to a message whose FIRST or SOLO packet is among `ps` and stale. -/
def ofStale (ps : List QueuedPacket) (p : QueuedPacket) : Bool :=
  p.isUdp && ps.any fun q => q.isUdp && decide (q.number = p.number) && stale toDrop dropperMsg q

/-- A purge erases the packets of the stale messages, and counts them. -/
structure PurgesStale (s : DropActiveNetQueue) (dropped : Nat) (s' : DropActiveNetQueue) : Prop where
  kept : s'.internalQueue = s.internalQueue.filter fun p =>
    !ofStale toDrop dropperMsg s.internalQueue p
  bytes : s'.queueSizeInBytes = toI32 (s.queueSizeInBytes -
    totalBytes (s.internalQueue.filter (ofStale toDrop dropperMsg s.internalQueue)))
  packets : s'.queueSizeInPackets = toI32 (s.queueSizeInPackets -
    (s.internalQueue.filter (ofStale toDrop dropperMsg s.internalQueue)).length)
  returned : dropped = (s.internalQueue.filter (ofStale toDrop dropperMsg s.internalQueue)).length

/-- No packet is erased by mistake: a packet that is not UDP is never taken for a stale one, nor for
one of the message that is being erased when the scan comes to it; and no packet ahead of the first
stale one has the number that the last purge left in `msg_in_drop_`. -/
structure OthersSpared (s : DropActiveNetQueue) : Prop where
  other : ∀ p ∈ s.internalQueue, p.isUdp = false → stale toDrop dropperMsg p = false
  behind : ∀ before first between p after,
    s.internalQueue = before ++ first :: between ++ p :: after →
    stale toDrop dropperMsg first = true → (∀ q ∈ between, stale toDrop dropperMsg q = false) →
    p.isUdp = false → p.number ≠ first.number
  ahead : ∀ before p after, s.internalQueue = before ++ p :: after →
    (∀ q ∈ before ++ [p], stale toDrop dropperMsg q = false) → p.number ≠ some s.msgInDrop

variable {toDrop dropperMsg}

theorem number_of_ok {p : QueuedPacket} {header : PacketHeader}
    (h : PacketHeader.ofPayload p.contents = .ok header) : p.number = some header.msgNo := by
  rw [QueuedPacket.number, QueuedPacket.header?_of_ok h]
  rfl

theorem stale_of_ok {p : QueuedPacket} {header : PacketHeader}
    (h : PacketHeader.ofPayload p.contents = .ok header) : stale toDrop dropperMsg p = true ↔
      (toDrop ≤ header.priority.val ∧ header.msgNo < dropperMsg) ∧
        (header.pktPos = .first ∨ header.pktPos = .solo) := by
  simp [stale, QueuedPacket.header?_of_ok h]

theorem opens_of_stale {p : QueuedPacket} (h : stale toDrop dropperMsg p = true) :
    p.opens = true := by
  rw [stale, Option.any_eq_true] at h
  obtain ⟨header, hheader, h⟩ := h
  rw [QueuedPacket.opens, hheader]
  exact (Bool.and_eq_true_iff.mp h).2

theorem number_of_stale {p : QueuedPacket} (h : stale toDrop dropperMsg p = true) :
    ∃ n, p.number = some n := by
  rw [stale, Option.any_eq_true] at h
  obtain ⟨header, hheader, -⟩ := h
  exact ⟨_, by rw [QueuedPacket.number, hheader]; rfl⟩

/-- **The scan.**  It leaves its survivors, and returns how many are gone. -/
theorem dropStaleLoop_survivors {ps : List QueuedPacket} : ∀ {s s' : DropActiveNetQueue}
    {dropped : Nat} {kept : List QueuedPacket},
    dropStaleLoop toDrop dropperMsg ps s = .ok (dropped, kept, s') →
      kept = Scan.survivors (erases toDrop dropperMsg) (carry toDrop dropperMsg) s.msgInDrop ps ∧
        dropped + kept.length = ps.length := by
  induction ps with
  | nil =>
      intro s s' dropped kept h
      cases h
      exact ⟨rfl, rfl⟩
  | cons p ps ih =>
      intro s s' dropped kept h
      obtain ⟨header, hheader, h⟩ := bind_ok.mp h
      have hnumber := number_of_ok hheader
      have hstale : stale toDrop dropperMsg p = true ↔ _ := stale_of_ok hheader
      rw [Scan.survivors, erases, carry]
      split at h
      next hfirst =>
        obtain ⟨-, -, h⟩ := bind_ok.mp h
        obtain ⟨⟨d, k, s₁⟩, hrest, h⟩ := bind_ok.mp h
        cases h
        obtain ⟨hkept, hlength⟩ := ih hrest
        rw [hstale.mpr hfirst, hnumber]
        exact ⟨hkept, by rw [List.length_cons]; omega⟩
      next hfirst =>
        rw [Bool.eq_false_iff.mpr (mt hstale.mp hfirst), hnumber]
        split at h
        next hcarried =>
          obtain ⟨⟨d, k, s₁⟩, hrest, h⟩ := bind_ok.mp h
          cases h
          obtain ⟨hkept, hlength⟩ := ih hrest
          have hkept' : kept = Scan.survivors (erases toDrop dropperMsg) (carry toDrop dropperMsg)
            s.msgInDrop ps := hkept
          rw [← hcarried]
          exact ⟨by simpa using hkept', by rw [List.length_cons]; omega⟩
        next hcarried =>
          obtain ⟨⟨d, k, s₁⟩, hrest, h⟩ := bind_ok.mp h
          cases h
          obtain ⟨hkept, hlength⟩ := ih hrest
          refine ⟨?_, by rw [List.length_cons, List.length_cons]; omega⟩
          rw [hkept]
          simp [Ne.symm hcarried]

/-! ### Which packets the scan comes upon -/

theorem carry_eq : carry toDrop dropperMsg = fun m p =>
    if stale toDrop dropperMsg p then p.number.getD m else m := rfl

/-- What `msg_in_drop_` is at a packet: as the last purge left it, or the number of the last stale
packet ahead. -/
theorem carried_cases (m : Int) (before : List QueuedPacket) :
    (∀ q ∈ before, stale toDrop dropperMsg q = false) ∧
        before.foldl (carry toDrop dropperMsg) m = m ∨
      ∃ ahead first between, before = ahead ++ first :: between ∧
        stale toDrop dropperMsg first = true ∧
        (∀ q ∈ between, stale toDrop dropperMsg q = false) ∧
        first.number = some (before.foldl (carry toDrop dropperMsg) m) := by
  rw [carry_eq]
  rcases @Scan.foldl_mark _ _ (stale toDrop dropperMsg) (fun m p => p.number.getD m) m before
    with hnone | ⟨ahead, first, between, m', hbefore, hfirst, hbetween, hm⟩
  · exact .inl hnone
  · obtain ⟨n, hn⟩ := number_of_stale hfirst
    refine .inr ⟨ahead, first, between, hbefore, hfirst, hbetween, ?_⟩
    rw [hm, hn]
    rfl

theorem carried_of_none {m : Int} {between : List QueuedPacket}
    (h : ∀ q ∈ between, stale toDrop dropperMsg q = false) :
    between.foldl (carry toDrop dropperMsg) m = m := by
  rcases carried_cases m between with ⟨-, hm⟩ | ⟨ahead, first, behind, rfl, hfirst, -⟩
  · exact hm
  · rw [h first (by simp)] at hfirst
    cases hfirst

theorem carried_behind {m : Int} {before between : List QueuedPacket} {first : QueuedPacket}
    (hfirst : stale toDrop dropperMsg first = true)
    (hbetween : ∀ q ∈ between, stale toDrop dropperMsg q = false) :
    first.number = some ((before ++ first :: between).foldl (carry toDrop dropperMsg) m) := by
  obtain ⟨n, hn⟩ := number_of_stale hfirst
  rw [List.foldl_append, List.foldl_cons, carried_of_none hbetween, carry, if_pos hfirst, hn]
  rfl

theorem erases_iff {m : Int} {p : QueuedPacket} : erases toDrop dropperMsg m p = true ↔
    stale toDrop dropperMsg p = true ∨ p.number = some m := by
  rw [erases, Bool.or_eq_true, decide_eq_true_iff]

theorem ofStale_iff {ps : List QueuedPacket} {p : QueuedPacket} :
    ofStale toDrop dropperMsg ps p = true ↔ p.isUdp = true ∧
      ∃ q ∈ ps, q.isUdp = true ∧ q.number = p.number ∧ stale toDrop dropperMsg q = true := by
  simp [ofStale, and_assoc]

section

variable {ps : List QueuedPacket} (hm : InOrder (ps.filter QueuedPacket.isUdp))

include hm

/-- Behind a packet of a message, there is no FIRST or SOLO of it. -/
theorem not_stale_behind {before after : List QueuedPacket} {p q : QueuedPacket}
    (hps : ps = before ++ p :: after) (hq : q ∈ after) (hp : p.isUdp = true) (hudp : q.isUdp = true)
    (hnumber : q.number = p.number) : stale toDrop dropperMsg q = false := by
  have hpair : [p, q].Sublist ps := by
    rw [hps]
    exact (List.singleton_sublist.mpr hq).cons_cons p |>.trans (List.sublist_append_right _ _)
  have hopens : q.opens = false :=
    hm.opens p q (by simpa [hp, hudp] using hpair.filter QueuedPacket.isUdp) hnumber.symm
  exact Bool.eq_false_iff.mpr fun hstale => by
    rw [opens_of_stale hstale] at hopens
    cases hopens

/-- The stale packet of a message is not behind another packet of it. -/
theorem stale_ahead {before after : List QueuedPacket} {p q : QueuedPacket}
    (hps : ps = before ++ p :: after) (hp : p.isUdp = true) (hq : q ∈ ps) (hudp : q.isUdp = true)
    (hnumber : q.number = p.number) (hstale : stale toDrop dropperMsg q = true) :
    q ∈ before ++ [p] := by
  rw [hps, List.append_cons] at hq
  rcases List.mem_append.mp hq with hq | hq
  · exact hq
  · rw [not_stale_behind hm hps hq hp hudp hnumber] at hstale
    cases hstale

/-- Between two packets of a message, there is no other. -/
theorem number_between {before after : List QueuedPacket} {x y p : QueuedPacket}
    (hps : ps = before ++ p :: after) (hxy : [x, y].Sublist before) (hx : x.isUdp = true)
    (hy : y.isUdp = true) (hp : p.isUdp = true) (hnumber : x.number = p.number) :
    y.number = p.number := by
  have htriple : [x, y, p].Sublist ps := by
    rw [hps]
    exact hxy.append (List.singleton_sublist.mpr List.mem_cons_self)
  exact (hm.together x y p (by simpa [hx, hy, hp] using htriple.filter QueuedPacket.isUdp)
    hnumber).trans hnumber

end

section

variable {s : DropActiveNetQueue}

theorem OthersSpared.udp_of_stale (h : OthersSpared toDrop dropperMsg s) {q : QueuedPacket}
    (hq : q ∈ s.internalQueue) (hstale : stale toDrop dropperMsg q = true) : q.isUdp = true :=
  Bool.of_not_eq_false fun hno => by
    rw [h.other q hq hno] at hstale
    cases hstale

/-- What the scan erases is a packet of a stale message. -/
theorem OthersSpared.ofStale_of_erased (h : OthersSpared toDrop dropperMsg s)
    {before after : List QueuedPacket} {p : QueuedPacket}
    (hsplit : s.internalQueue = before ++ p :: after)
    (herased : erases toDrop dropperMsg (before.foldl (carry toDrop dropperMsg) s.msgInDrop) p =
      true) : ofStale toDrop dropperMsg s.internalQueue p = true := by
  have hp : p ∈ s.internalQueue := by simp [hsplit]
  rw [ofStale_iff]
  cases hstale : stale toDrop dropperMsg p with
  | true => exact ⟨h.udp_of_stale hp hstale, p, hp, h.udp_of_stale hp hstale, rfl, hstale⟩
  | false =>
      have hnumber := (erases_iff.mp herased).resolve_left (by rw [hstale]; decide)
      rcases carried_cases s.msgInDrop before with ⟨hnone, hleft⟩ |
        ⟨ahead, first, between, rfl, hfirst, hbetween, hfirst'⟩
      · refine absurd (hleft ▸ hnumber) (h.ahead before p after hsplit fun q hq => ?_)
        rcases List.mem_append.mp hq with hq | hq
        · exact hnone q hq
        · exact List.mem_singleton.mp hq ▸ hstale
      · have hmem : first ∈ s.internalQueue := by simp [hsplit]
        refine ⟨?_, first, hmem, h.udp_of_stale hmem hfirst, hfirst'.trans hnumber.symm, hfirst⟩
        exact Bool.of_not_eq_false fun hno => h.behind ahead first between p after hsplit hfirst
          hbetween hno (hnumber.trans hfirst'.symm)

/-- The scan erases every packet of a stale message: the stale one is ahead, and it is the last
stale one there or shares its number. -/
theorem OthersSpared.erased_of_ofStale (h : OthersSpared toDrop dropperMsg s)
    (hm : InOrder (s.internalQueue.filter QueuedPacket.isUdp)) {before after : List QueuedPacket}
    {p : QueuedPacket} (hsplit : s.internalQueue = before ++ p :: after)
    (hp : ofStale toDrop dropperMsg s.internalQueue p = true) :
    erases toDrop dropperMsg (before.foldl (carry toDrop dropperMsg) s.msgInDrop) p = true := by
  obtain ⟨hudp, q, hq, hq', hsame, hstale⟩ := ofStale_iff.mp hp
  refine erases_iff.mpr (or_iff_not_imp_left.mpr fun hfresh => ?_)
  have hbefore : q ∈ before := by
    rcases List.mem_append.mp (stale_ahead hm hsplit hudp hq hq' hsame hstale) with hq | hq
    · exact hq
    · exact absurd (List.mem_singleton.mp hq ▸ hstale) hfresh
  rcases carried_cases s.msgInDrop before with ⟨hnone, -⟩ |
    ⟨ahead, first, between, rfl, hfirst, hbetween, hnumber⟩
  · rw [hnone q hbefore] at hstale
    cases hstale
  · refine Eq.trans ?_ hnumber
    rcases List.mem_append.mp hbefore with hq | hq
    · have hpair : [q, first].Sublist (ahead ++ first :: between) :=
        (List.singleton_sublist.mpr hq).append (List.singleton_sublist.mpr List.mem_cons_self)
      exact (number_between hm hsplit hpair hq' (h.udp_of_stale (by simp [hsplit]) hfirst) hudp
        hsame).symm
    · rcases List.mem_cons.mp hq with rfl | hq
      · exact hsame.symm
      · rw [hbetween q hq] at hstale
        cases hstale

/-- A scan that erases what it should spares the others. -/
theorem othersSpared_of_erases (hm : InOrder (s.internalQueue.filter QueuedPacket.isUdp))
    (h : ∀ before p after, s.internalQueue = before ++ p :: after →
      erases toDrop dropperMsg (before.foldl (carry toDrop dropperMsg) s.msgInDrop) p = true →
      ofStale toDrop dropperMsg s.internalQueue p = true) : OthersSpared toDrop dropperMsg s := by
  refine ⟨fun p hp hudp => ?_, ?_, ?_⟩
  · obtain ⟨before, after, hsplit⟩ := List.append_of_mem hp
    refine Bool.eq_false_iff.mpr fun hstale => ?_
    rw [(ofStale_iff.mp (h before p after hsplit (erases_iff.mpr (.inl hstale)))).1] at hudp
    cases hudp
  · intro before first between p after hsplit hfirst hbetween hudp hnumber
    have hcarried : first.number =
        some ((before ++ first :: between).foldl (carry toDrop dropperMsg) s.msgInDrop) :=
      carried_behind hfirst hbetween
    rw [(ofStale_iff.mp (h _ p after hsplit
      (erases_iff.mpr (.inr (hnumber.trans hcarried))))).1] at hudp
    cases hudp
  · intro before p after hsplit hnone hnumber
    have hcarried := carried_of_none (m := s.msgInDrop)
      fun q hq => hnone q (List.mem_append_left [p] hq)
    obtain ⟨hudp, q, hq, hq', hsame, hstale⟩ := ofStale_iff.mp
      (h before p after hsplit (erases_iff.mpr (.inr (hcarried.symm ▸ hnumber))))
    rw [hnone q (stale_ahead hm hsplit hudp hq hq' hsame hstale)] at hstale
    cases hstale

/-- When the scan erases the packets of the stale messages and no others. -/
theorem erases_iff_ofStale (hm : InOrder (s.internalQueue.filter QueuedPacket.isUdp)) :
    (∀ before p after, s.internalQueue = before ++ p :: after →
      erases toDrop dropperMsg (before.foldl (carry toDrop dropperMsg) s.msgInDrop) p =
        !!ofStale toDrop dropperMsg s.internalQueue p) ↔ OthersSpared toDrop dropperMsg s := by
  simp only [Bool.not_not]
  constructor
  · exact fun h => othersSpared_of_erases hm fun before p after hsplit =>
      (Bool.eq_iff_iff.mp (h before p after hsplit)).mp
  · exact fun h before p after hsplit =>
      Bool.eq_iff_iff.mpr ⟨h.ofStale_of_erased hsplit, h.erased_of_ofStale hm hsplit⟩

end

/-! ### Reachable states -/

/-- What holds in every reachable state: `enqueue` reads a header in all that it accepts. -/
structure Whole (d : DroppingArgs) (s : DropActiveNetQueue) : Prop where
  counted : s.Counted
  headers : ∀ p ∈ s.internalQueue, 43 ≤ p.size
  log : s.logFd = d.logFd

theorem Whole.enqueue {d : DroppingArgs} {s s' : DropActiveNetQueue} {p : QueuedPacket}
    (h : Whole d s) (hs : s.enqueue p = .ok s') : Whole d s' := by
  have hcounted := (enqueue_offered hs).counted h.counted
  obtain ⟨header, hheader, hcase⟩ := enqueue_cases hs
  have hsize : 43 ≤ p.size := PacketHeader.ofPayload_ok_iff.mp ⟨header, hheader⟩
  have haccept : ∀ s₁ : DropActiveNetQueue, s₁.internalQueue.Sublist s.internalQueue →
      ∀ q ∈ s₁.internalQueue ++ [p], 43 ≤ q.size := by
    intro s₁ hsub q hq
    rcases List.mem_append.mp hq with hq | hq
    · exact h.headers q (hsub.subset hq)
    · exact List.mem_singleton.mp hq ▸ hsize
  rcases hcase with ⟨-, rfl⟩ | ⟨-, s₁, fits, hroom, -, rfl⟩
  · exact ⟨hcounted, haccept s (.refl _), h.log⟩
  · have hroom := makeRoom_madeRoom hroom
    obtain ⟨m, c, hframe⟩ := hroom.frame
    have hlog : s₁.logFd = d.logFd := by
      rw [hframe]
      exact h.log
    cases fits with
    | true => exact ⟨hcounted, haccept s₁ hroom.sublist, hlog⟩
    | false => exact ⟨hcounted, fun q hq => h.headers q (hroom.sublist.subset hq), hlog⟩

theorem run_whole {d : DroppingArgs} {calls : List Discipline.Call} {s : DropActiveNetQueue}
    (h : run step calls (ofArgs d) = .ok s) : Whole d s := by
  refine run_induction (P := fun _ s => Whole d s)
    ⟨CountedQueue.counted_nil, by simp [ofArgs, DroppingArgs.make], rfl⟩ ?_ h
  rintro done s c s' - hs hstep
  cases c with
  | enqueue ts arrivalTime contents => exact hs.enqueue hstep
  | dequeue clock =>
      obtain ⟨⟨p, s₁⟩, hd, rfl⟩ := of_map_ok hstep
      obtain ⟨c, hpop, rfl, -⟩ := dequeue_cases hd
      obtain ⟨hlist, hcounted⟩ := CountedQueue.pop_ok hpop
      refine ⟨hcounted hs.counted, fun q hq => hs.headers q ?_, hs.log⟩
      rw [hlist]
      exact List.mem_cons_of_mem p hq
  | setBandwidth bandwidth =>
      cases hstep
      exact ⟨hs.counted, hs.headers, hs.log⟩

theorem totalBytes_filter (f : QueuedPacket → Bool) (ps : List QueuedPacket) :
    totalBytes ps = totalBytes (ps.filter f) + totalBytes (ps.filter fun p => !f p) := by
  induction ps with
  | nil => rfl
  | cons p ps ih => cases h : f p <;> simp [h, ih] <;> omega

/-- A purge that leaves the right packets has counted the others out. -/
theorem purgesStale_of_kept {s s' : DropActiveNetQueue} {dropped : Nat} (hc : s.Counted)
    (h : s.dropStaleFrames toDrop dropperMsg = .ok (dropped, s'))
    (hkept : s'.internalQueue = s.internalQueue.filter fun p =>
      !ofStale toDrop dropperMsg s.internalQueue p) :
    PurgesStale toDrop dropperMsg s dropped s' := by
  have hc' := (dropStaleFrames_madeRoom h).shrinks.counted hc
  have hbytes := totalBytes_filter (ofStale toDrop dropperMsg s.internalQueue) s.internalQueue
  have hlength := List.length_eq_length_filter_add (l := s.internalQueue)
    (ofStale toDrop dropperMsg s.internalQueue)
  rw [← hkept] at hbytes hlength
  refine ⟨hkept, ?_, ?_, ?_⟩
  · rw [hc'.bytes, hc.bytes, toI32_sub]
    congr 1; omega
  · rw [hc'.packets, hc.packets, toI32_sub]
    congr 1; omega
  · obtain ⟨⟨d, kept, s₁⟩, hloop, h⟩ := bind_ok.mp h
    have hcount := (dropStaleLoop_survivors hloop).2
    cases h
    have hlength' : s.internalQueue.length = _ + kept.length := hlength
    omega

/-- **When a purge erases the stale messages and nothing else.** -/
theorem purges_stale_iff {d : DroppingArgs} (hlog : d.logFd = true) {calls : List Discipline.Call}
    {s : DropActiveNetQueue} (hrun : run step calls (ofArgs d) = .ok s)
    (hm : InOrder (s.internalQueue.filter QueuedPacket.isUdp)) (toDrop : Nat) (dropperMsg : Int) :
    (∃ dropped s', s.dropStaleFrames toDrop dropperMsg = .ok (dropped, s') ∧
      PurgesStale toDrop dropperMsg s dropped s') ↔ OthersSpared toDrop dropperMsg s := by
  have hwhole := run_whole hrun
  obtain ⟨⟨dropped, kept, s₁⟩, hloop⟩ := dropStaleLoop_ok toDrop dropperMsg hwhole.headers
    (hwhole.log.trans hlog)
  have hpurge : s.dropStaleFrames toDrop dropperMsg =
      .ok (dropped, { s₁ with internalQueue := kept }) := by
    rw [dropStaleFrames, hloop]
    rfl
  rw [← erases_iff_ofStale hm, ← Scan.survivors_eq_filter_iff, ← (dropStaleLoop_survivors hloop).1]
  constructor
  · rintro ⟨dropped', s', h, hstale⟩
    cases hpurge.symm.trans h
    exact hstale.kept
  · exact fun hkept => ⟨_, _, hpurge, purgesStale_of_kept hwhole.counted hpurge hkept⟩

theorem inOrder_of_short {ps : List QueuedPacket} (h : ps.length ≤ 1) : InOrder ps where
  together _ _ _ hsub := absurd (hsub.length_le.trans h) (by simp)
  opens _ _ hsub := absurd (hsub.length_le.trans h) (by simp)

/-- A TCP packet with the bytes of a FIRST packet of priority 2 and number 1. -/
def tcpLikeFirst : QueuedPacket := ⟨0, (udpPayload 4433 1 0x80000001 0x40000000).set 13 6, false⟩

/-- A UDP packet of priority 2 that is a message of its own. -/
def soloSeven : QueuedPacket := ⟨0, udpPayload 4433 1 0xc0000007 0x40000000, false⟩

/-- The queue of one packet, of 44 bytes. -/
def holding (p : QueuedPacket) : DropActiveNetQueue where
  toDroppingPacketQueue := { oneLogged.make with
    queueSizeInBytes := 44
    queueSizeInPackets := 1
    internalQueue := [p] }

/-- The purge erases a packet that is not UDP. -/
theorem tcp_purged :
    run step [.enqueue 0 0 tcpLikeFirst.contents] (ofArgs oneLogged) = .ok (holding tcpLikeFirst) ∧
    InOrder ((holding tcpLikeFirst).internalQueue.filter QueuedPacket.isUdp) ∧
    ¬ ∃ dropped s', (holding tcpLikeFirst).dropStaleFrames 2 5 = .ok (dropped, s') ∧
      PurgesStale 2 5 (holding tcpLikeFirst) dropped s' := by
  refine ⟨by decide +kernel, inOrder_of_short (by decide +kernel), ?_⟩
  rintro ⟨dropped, s', h, hstale⟩
  have hpurge : ((holding tcpLikeFirst).dropStaleFrames 2 5).map (fun r => r.2.internalQueue) =
      .ok [] := by decide +kernel
  rw [h] at hpurge
  have hempty : s'.internalQueue = [] := Except.ok.inj hpurge
  exact absurd (hempty.symm.trans hstale.kept) (by decide +kernel)

theorem purges_stale_iff_soloSeven :
    (∃ dropped s', (holding soloSeven).dropStaleFrames 2 8 = .ok (dropped, s') ∧
      PurgesStale 2 8 (holding soloSeven) dropped s') ↔ OthersSpared 2 8 (holding soloSeven) :=
  @purges_stale_iff oneLogged rfl [.enqueue 0 0 soloSeven.contents] _ (by decide +kernel)
    (inOrder_of_short (by decide +kernel)) 2 8

end DropActiveNetQueue

end Mahimahi
