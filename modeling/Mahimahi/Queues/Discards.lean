import Mathlib.Algebra.Group.Prod
import Mathlib.Tactic.Abel
import Mahimahi.Queues.Codel

/-!
# Queues — what `dequeue` takes beside the packet it returns

* `Discipline.dequeue_takes`: a `dequeue` takes the packet it returns off the queue, and others with
  it exactly when it `discards`.

Only CoDel and the Octopus queue drop inside `dequeue`.  `discards` is said of the state before the
call, in the words of the tests that the two classes make.
-/

open Fallible MachineInt

namespace Mahimahi

/-- Packets, and their bytes. -/
def tally (ps : List QueuedPacket) : Nat × Nat := (ps.length, totalBytes ps)

@[simp] theorem tally_nil : tally [] = 0 := rfl

/-- Packets are counted list by list. -/
theorem tally_append (ps qs : List QueuedPacket) : tally (ps ++ qs) = tally ps + tally qs := by
  simp [tally]

theorem tally_cons (p : QueuedPacket) (ps : List QueuedPacket) :
    tally (p :: ps) = tally [p] + tally ps := tally_append [p] ps

/-- No packets and no bytes are counted only of the empty list: every packet counts as one. -/
theorem tally_eq_zero {ps : List QueuedPacket} : tally ps = 0 ↔ ps = [] :=
  ⟨fun h => List.length_eq_zero_iff.mp (congrArg Prod.fst h), fun h => h ▸ rfl⟩

/-- The tally does not see the mark of a packet. -/
theorem tally_of_entry {p p' : QueuedPacket} (h : p.entry = p'.entry) : tally [p] = tally [p'] := by
  have hsize : p.size = p'.size := congrArg (fun e : Nat × Payload => e.2.length) h
  simp [tally, hsize]

/-- `p` has been taken off, and others with it if `discards`. -/
def CountedQueue.Takes (discards : Bool) (c : CountedQueue) (p : QueuedPacket) (c' : CountedQueue) :
    Prop :=
  ∃ lost, tally c.internalQueue = tally [p] + tally lost + tally c'.internalQueue ∧
    (lost = [] ↔ discards = false)

/-- Taking the first packet discards nothing. -/
theorem CountedQueue.Takes.of_pop {c c' : CountedQueue} {p : QueuedPacket}
    (h : c.pop = .ok (p, c')) : c.Takes false p c' :=
  ⟨[], by rw [(pop_ok h).1, tally_cons, tally_nil, add_zero], by simp⟩

/-! ### CoDel -/

namespace CODELPacketQueue

/-- The first `dodequeue` allows a drop, and one is due. -/
def discards (now : Nat) (s : CODELPacketQueue) : Bool :=
  match s.internalQueue with
  | [] => false
  | p :: rest => decide (rest ≠ [] ∧ s.target ≤ toU64 (now - p.arrivalTime) ∧
      PACKET_SIZE < totalBytes rest ∧ (s.firstAboveTime ≠ 0 ∧ s.firstAboveTime ≤ now) ∧
      (s.dropping = true → s.dropNext ≤ now))

/-- When `ok_to_drop` is returned: packets are left, the packet has waited for the target, more than
a full packet is counted, and the interval is over. -/
theorem dodequeue_okToDrop_iff {now : Nat} {p : QueuedPacket} {okToDrop : Bool}
    {s s' : CODELPacketQueue} (hc : s'.Counted) (h : s.dodequeue now = .ok (p, okToDrop, s')) :
    okToDrop = true ↔ s'.internalQueue ≠ [] ∧ s.target ≤ toU64 (now - p.arrivalTime) ∧
      PACKET_SIZE < toU32 (totalBytes s'.internalQueue) ∧ s.firstAboveTime ≠ 0 ∧
      s.firstAboveTime ≤ now := by
  have hbytes : ∀ {bytes}, s'.sizeBytes = .ok bytes → bytes = toU32 (totalBytes s'.internalQueue) :=
    fun hb => (hc.sizeBytes_ok_iff.mp hb).2
  have hempty : s'.empty = true ↔ s'.internalQueue = [] := List.isEmpty_iff
  rcases dodequeue_above h with ⟨rfl, -, hreset⟩ | ⟨hwait, hleft, ⟨bytes, hb, hmany⟩, hkept⟩
  · refine ⟨fun htrue => (nomatch htrue), fun ⟨hne, hwait, hmany, _⟩ => ?_⟩
    rcases hreset with hnil | hlow | ⟨bytes, hb, hfew⟩
    · exact absurd (hempty.mp hnil) hne
    · omega
    · have := hbytes hb
      omega
  · have hne : s'.internalQueue ≠ [] := fun hnil => by
      rw [hempty.mpr hnil] at hleft
      cases hleft
    rw [hbytes hb] at hmany
    rcases hkept with ⟨hzero, rfl, -⟩ | ⟨habove, -, rfl⟩
    · exact ⟨fun htrue => (nomatch htrue), fun hall => absurd hzero hall.2.2.2.1⟩
    · rw [decide_eq_true_iff]
      exact ⟨fun hdue => ⟨hne, hwait, hmany, habove, hdue⟩, fun hall => hall.2.2.2.2⟩

/-- The same without the counter, which is right below 2³¹ bytes. -/
theorem dodequeue_okToDrop {now : Nat} {p : QueuedPacket} {okToDrop : Bool}
    {s s' : CODELPacketQueue} (hc : s'.Counted) (hsmall : totalBytes s'.internalQueue < 2 ^ 31)
    (h : s.dodequeue now = .ok (p, okToDrop, s')) :
    okToDrop = true ↔ s'.internalQueue ≠ [] ∧ s.target ≤ toU64 (now - p.arrivalTime) ∧
      PACKET_SIZE < totalBytes s'.internalQueue ∧ s.firstAboveTime ≠ 0 ∧
      s.firstAboveTime ≤ now := by
  have hbytes : toU32 (totalBytes s'.internalQueue) = totalBytes s'.internalQueue := by
    rw [toU32_of_range (by omega) (by omega)]
    omega
  rw [dodequeue_okToDrop_iff hc h, hbytes]

/-- `dodequeue` takes the first packet. -/
theorem dodequeue_list {now : Nat} {p : QueuedPacket} {okToDrop : Bool} {s s' : CODELPacketQueue}
    (h : s.dodequeue now = .ok (p, okToDrop, s')) : s.internalQueue = p :: s'.internalQueue := by
  obtain ⟨c, _, hpop, rfl, -⟩ := dodequeue_cases h
  exact (CountedQueue.pop_ok hpop).1

/-- The loop that drops takes packets from the front. -/
theorem dropLoop_suffix {now fuel : Nat} : ∀ {s s' : CODELPacketQueue},
    dropLoop now fuel s = .ok s' → s'.internalQueue <:+ s.internalQueue := by
  induction fuel with
  | zero => intro s s' h; cases h; exact List.suffix_rfl
  | succ fuel ih =>
      intro s s' h
      rw [dropLoop] at h
      split at h
      · obtain ⟨⟨p, okToDrop, s₁⟩, hd, h⟩ := bind_ok.mp h
        have hs₁ : s₁.internalQueue <:+ s.internalQueue :=
          dodequeue_list hd ▸ List.suffix_cons p _
        dsimp only at h
        split at h
        · have hrest := ih h
          exact hrest.trans hs₁
        · have hrest := ih h
          exact hrest.trans hs₁
      · cases h; exact List.suffix_rfl

/-- The loop drops something exactly when it has a turn. -/
theorem dropLoop_takes {now fuel : Nat} {s s' : CODELPacketQueue}
    (h : dropLoop now (fuel + 1) s = .ok s') :
    ∃ lost, s.internalQueue = lost ++ s'.internalQueue ∧
      (lost = [] ↔ ¬ (s.dropNext ≤ now ∧ s.dropping = true)) := by
  rw [dropLoop] at h
  split at h
  next hdue =>
    obtain ⟨⟨p, okToDrop, s₁⟩, hd, h⟩ := bind_ok.mp h
    obtain ⟨rest, hrest⟩ : s'.internalQueue <:+ s₁.internalQueue := by
      dsimp only at h
      split at h
      · have hrest := dropLoop_suffix h
        exact hrest
      · have hrest := dropLoop_suffix h
        exact hrest
    exact ⟨p :: rest, by rw [dodequeue_list hd, ← hrest, List.cons_append], by simp [hdue]⟩
  next hnot =>
    cases h
    exact ⟨[], rfl, by simpa using hnot⟩

/-- Something is dropped behind the packet taken exactly when that packet may be dropped and, in the
dropping state, the next drop is due. -/
theorem drop_takes {now : Nat} {okToDrop : Bool} {s s' : CODELPacketQueue}
    (h : s.drop now okToDrop = .ok s') :
    ∃ lost, s.internalQueue = lost ++ s'.internalQueue ∧
      (lost = [] ↔ ¬ (okToDrop = true ∧ (s.dropping = true → s.dropNext ≤ now))) := by
  unfold drop at h
  split at h
  next hdropping =>
    obtain ⟨lost, hlost, hiff⟩ := dropLoop_takes h
    refine ⟨lost, hlost, hiff.trans (not_congr ?_)⟩
    simp [hdropping, and_comm]
  next hdropping =>
    split at h
    next hok =>
      obtain ⟨⟨p, _, s₁⟩, hd, h⟩ := bind_ok.mp h
      have hlist := dodequeue_list hd
      cases h
      exact ⟨[p], hlist, by simp [hok, hdropping]⟩
    next hok =>
      cases h
      exact ⟨[], rfl, by simp [hok]⟩

/-- A dequeue of CoDel discards packets exactly when `discards` says so of the state before it. -/
theorem dequeue_takes {now : Nat} {p : QueuedPacket} {s s' : CODELPacketQueue} (hc : s.Counted)
    (hsmall : totalBytes s.internalQueue < 2 ^ 31) (h : s.dequeue now = .ok (p, s')) :
    s.toCountedQueue.Takes (s.discards now) p s'.toCountedQueue := by
  obtain ⟨okToDrop, s₁, hd, hdrop⟩ := dequeue_split h
  obtain ⟨c, firstAboveTime, hpop, hs₁, -⟩ := dodequeue_cases hd
  obtain ⟨lost, hlost, hiff⟩ := drop_takes hdrop
  have hlist := dodequeue_list hd
  have hc₁ : s₁.Counted := hs₁ ▸ (CountedQueue.pop_ok hpop).2 hc
  have hsmall₁ : totalBytes s₁.internalQueue < 2 ^ 31 := by
    rw [hlist, totalBytes_cons] at hsmall
    omega
  refine ⟨lost, ?_, ?_⟩
  · rw [hlist, hlost, tally_cons, tally_append, add_assoc]
  · have hdropping : s₁.dropping = s.dropping := by rw [hs₁]
    have hdropNext : s₁.dropNext = s.dropNext := by rw [hs₁]
    rw [hiff, dodequeue_okToDrop hc₁ hsmall₁ hd, discards, hlist, hdropping, hdropNext,
      decide_eq_false_iff_not]
    refine not_congr ⟨fun ⟨⟨h₁, h₂, h₃, h₄⟩, h₅⟩ => ⟨h₁, h₂, h₃, h₄, h₅⟩,
      fun ⟨h₁, h₂, h₃, h₄, h₅⟩ => ⟨⟨h₁, h₂, h₃, h₄⟩, h₅⟩⟩

end CODELPacketQueue

/-! ### The Octopus queue -/

namespace DropBitrateDequeueQueue

/-- The first packet is marked, and another one is left. -/
def discards (ts : Nat) (s : DropBitrateDequeueQueue) : Bool :=
  match s.internalQueue with
  | [] => false
  | p :: rest =>
      match PacketHeader.ofPayload p.contents with
      | .error _ => false
      | .ok header => !rest.isEmpty && header.isOctopus && (p.isDrop || (s.verdict ts p header).drops)

/-- The packets discarded so far stay the first ones of those discarded. -/
theorem dequeueLoop_dropped {clock : Nat → Nat} {fuel : Nat} {dropped dropped' : List Front}
    {f f' : Front} {s s' : DropBitrateDequeueQueue}
    (h : dequeueLoop clock fuel dropped f s = .ok (dropped', f', s')) : dropped <+: dropped' :=
  dequeueLoop_induction (P := fun d _ _ => dropped <+: d)
    (fun _ _ _ _ _ _ _ hP _ _ _ _ => hP.trans (List.prefix_append _ _)) List.prefix_rfl h

/-- Every packet that the loop takes is discarded or is the one that departs. -/
theorem dequeueLoop_takes {clock : Nat → Nat} {fuel : Nat} {dropped : List Front} {f f' : Front}
    {s s' : DropBitrateDequeueQueue} (h : dequeueLoop clock fuel [] f s = .ok (dropped, f', s')) :
    tally [f.pkt] + tally s.internalQueue =
      tally [f'.pkt] + tally (dropped.map Front.pkt) + tally s'.internalQueue := by
  refine dequeueLoop_induction (P := fun dropped f' s' => tally [f.pkt] + tally s.internalQueue =
    tally [f'.pkt] + tally (dropped.map Front.pkt) + tally s'.internalQueue) ?_ (by simp) h
  intro dropped f₁ s₁ header ts f₂ s₂ hP _ _ _ hf
  obtain ⟨p, hpop, hentry⟩ := dequeuefront_counted (front_ok.mp hf).2.2
  rw [hP, (CountedQueue.pop_ok hpop).1, tally_cons p, ← tally_of_entry hentry, List.map_append,
    tally_append]
  simp only [List.map_cons, List.map_nil]
  abel

/-- The loop discards the packet in hand if it is marked and another one is left. -/
theorem dequeueLoop_first {clock : Nat → Nat} {dropped : List Front} {f f' : Front}
    {s s' : DropBitrateDequeueQueue} {header : PacketHeader}
    (hheader : PacketHeader.ofPayload f.pkt.contents = .ok header)
    (h : dequeueLoop clock s.internalQueue.length [] f s = .ok (dropped, f', s')) :
    dropped = [] ↔ (!s.internalQueue.isEmpty && header.isOctopus && f.pkt.isDrop) = false := by
  match hlist : s.internalQueue with
  | [] =>
      rw [hlist] at h
      cases h
      simp
  | p :: rest =>
      have hempty : s.empty = false := by rw [CountedQueue.empty, hlist]; rfl
      rw [hlist, List.length_cons, dequeueLoop, hempty, if_neg (by decide), hheader, ok_bind] at h
      split at h
      next hmark =>
        obtain ⟨⟨f₁, s₁⟩, -, h⟩ := bind_ok.mp h
        -- what the loop has dropped stays dropped
        have hne : dropped ≠ [] := fun hnil => by
          have := dequeueLoop_dropped h
          rw [hnil] at this
          simp at this
        simp [hne, hmark]
      next hmark =>
        cases h
        simpa using hmark

/-- A dequeue of the queue that drops by bit rate discards packets exactly when `discards` says so
of the state before it. -/
theorem dequeue_takes {clock : Nat → Nat} {p : QueuedPacket} {s s' : DropBitrateDequeueQueue}
    (h : s.dequeue clock = .ok (p, s')) :
    s.toCountedQueue.Takes (s.discards (clock 0)) p s'.toCountedQueue := by
  obtain ⟨f₀, s₀, dropped, f, hf₀, hloop, rfl⟩ := dequeue_split h
  have hfront := (front_ok.mp hf₀).2.2
  obtain ⟨p₀, hpop₀, hentry⟩ := dequeuefront_counted hfront
  have hlist : s.internalQueue = p₀ :: s₀.internalQueue := (CountedQueue.pop_ok hpop₀).1
  refine ⟨dropped.map Front.pkt, ?_, ?_⟩
  · rw [hlist, tally_cons, ← tally_of_entry hentry, dequeueLoop_takes hloop]
  · obtain ⟨p, c, header, hpop, hheader, hcase⟩ := dequeuefront_cases hfront
    cases hpop₀.symm.trans hpop
    have hcontents : f₀.pkt.contents = p₀.contents := congrArg Prod.snd hentry
    rw [List.map_eq_nil_iff, dequeueLoop_first (hcontents ▸ hheader) hloop, discards, hlist]
    simp only [hheader]
    rcases hcase with ⟨hoct, -⟩ | ⟨-, hpkt, -⟩
    · simp [hoct]
    · rw [hpkt]

end DropBitrateDequeueQueue

/-! ### Every discipline -/

namespace Discipline

/-- Whether a `dequeue` that reads `now` takes more than the packet it returns. -/
def discards (now : Nat) : Discipline → Bool
  | .codel q => q.discards now
  | .dropBitrateDequeue q => q.discards now
  | _ => false

section

variable {Q : Type} (toCounted : Q → CountedQueue) (mk : Q → Discipline)

/-- A virtual `dequeue` discards what the class's own does. -/
theorem takes_of_class (hmk : ∀ q, (mk q).counted = toCounted q) {discards : Bool}
    {x : Except Fault (QueuedPacket × Q)} {c : CountedQueue}
    (hx : ∀ {p q}, x = .ok (p, q) → c.Takes discards p (toCounted q)) {p : QueuedPacket}
    {q' : Discipline} (h : x.map (Prod.map id mk) = .ok (p, q')) :
    c.Takes discards p q'.counted := by
  obtain ⟨⟨p₁, q₁⟩, h₁, hq⟩ := of_map_ok h
  cases hq
  rw [hmk]
  exact hx h₁

end

/-- The dequeue that the other disciplines share discards nothing. -/
theorem base_takes {q q' : DroppingPacketQueue} {p : QueuedPacket}
    (h : q.dequeue = .ok (p, q')) : q.toCountedQueue.Takes false p q'.toCountedQueue := by
  obtain ⟨⟨c, hpop, rfl⟩, -⟩ := DroppingPacketQueue.dequeue_ok h
  exact .of_pop hpop

/-- **A `dequeue` takes the packet it returns, and others exactly when it `discards`.** -/
theorem dequeue_takes {clock : Nat → Nat} {p : QueuedPacket} {q q' : Discipline}
    (hc : q.counted.Counted) (hsmall : totalBytes q.internalQueue < 2 ^ 31)
    (h : q.dequeue clock = .ok (p, q')) :
    q.counted.Takes (q.discards (clock 0)) p q'.counted := by
  cases q with
  | infinite q =>
      refine takes_of_class (fun q => q.toCountedQueue) .infinite (fun _ => rfl) (fun hd => ?_) h
      obtain ⟨⟨p₀, c⟩, hpop, hret⟩ := bind_ok.mp hd
      cases hret
      exact .of_pop hpop
  | dropTail q =>
      refine takes_of_class (fun q => q.toCountedQueue) .dropTail (fun _ => rfl) (fun hd => ?_) h
      obtain ⟨⟨p₀, q₀⟩, hbase, hret⟩ := bind_ok.mp hd
      cases hret
      exact base_takes hbase
  | dropHead q =>
      refine takes_of_class (fun q => q.toCountedQueue) .dropHead (fun _ => rfl) (fun hd => ?_) h
      obtain ⟨⟨p₀, q₀⟩, hbase, hret⟩ := bind_ok.mp hd
      cases hret
      exact base_takes hbase
  | codel q =>
      exact takes_of_class (fun q => q.toCountedQueue) .codel (fun _ => rfl)
        (CODELPacketQueue.dequeue_takes hc hsmall) h
  | pie q =>
      exact takes_of_class (fun q => q.toCountedQueue) .pie (fun _ => rfl)
        (fun hd => base_takes (PIEPacketQueue.dequeue_base hd)) h
  | dropBitrateDequeue q =>
      exact takes_of_class (fun q => q.toCountedQueue) .dropBitrateDequeue (fun _ => rfl)
        DropBitrateDequeueQueue.dequeue_takes h
  | dropActiveNet q =>
      refine takes_of_class (fun q => q.toCountedQueue) .dropActiveNet (fun _ => rfl)
        (fun hd => ?_) h
      obtain ⟨c, hpop, rfl, -⟩ := DropActiveNetQueue.dequeue_cases hd
      exact .of_pop hpop

end Discipline

end Mahimahi
