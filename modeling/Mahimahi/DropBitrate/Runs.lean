import Mahimahi.Packet.DropBitrate

/-!
# DropBitrate — what one call does, and runs of calls

`enqueue_cases` and `front_cases` say everything that a call which returns has done; every
invariant is proved from them, and from what `countArrival`, `countDeparture` and the two `record`
functions change.

A run is a list of `Action`s: `enqueue`, one `dequeuefront`, or a change of bandwidth.  `dequeue`
is a sequence of `dequeuefront`s (`dequeueAll_cases`), so what holds of every state an action run
reaches holds before every `dequeuefront` of every `dequeue`.  A `History` remembers the packets
accepted and the `dequeuefront`s made; `Reachable h s` says that some run from a new queue leads to
the state `s` with history `h`.
-/

open Fallible MachineInt

namespace Mahimahi

/-- What a packet contributes to its message's counter. -/
def PktPos.weight : PktPos → Nat
  | .first | .last => 1
  | .mid => 0
  | .solo => 2

def PacketHeader.weighs (h : PacketHeader) (d : UInt16) (m : Int) : Nat :=
  if h.dstport = d ∧ h.msgNo = m then h.pktPos.weight else 0

namespace DropBitrateDequeueQueue

/-! ### What the pieces change -/

/-- The queue with `p` put on its back. -/
def accepting (p : QueuedPacket) (s : DropBitrateDequeueQueue) : DropBitrateDequeueQueue :=
  { s with toDroppingPacketQueue := s.toDroppingPacketQueue.accept p }

/-- The queue with its packet list and counters replaced. -/
def popped (c : CountedQueue) (s : DropBitrateDequeueQueue) : DropBitrateDequeueQueue :=
  { s with toCountedQueue := c }

@[simp] theorem accepting_internalQueue (p : QueuedPacket) (s : DropBitrateDequeueQueue) :
    (s.accepting p).internalQueue = s.internalQueue ++ [p] := rfl

@[simp] theorem popped_internalQueue (c : CountedQueue) (s : DropBitrateDequeueQueue) :
    (s.popped c).internalQueue = c.internalQueue := rfl

/-- A counter that has been counted up to `n`: it has no entry at 0. -/
def counter (n : Nat) : Option Int := if n = 0 then none else some n

theorem recordRate_frame (ts size : Nat) (d : UInt16) (s : DropBitrateDequeueQueue) :
    ∃ trace rate, s.recordRate ts size d = { s with enqueueTrace := trace, enqueueRate := rate } := by
  unfold recordRate
  dsimp only
  split <;> exact ⟨_, _, rfl⟩

theorem countArrival_frame {header : PacketHeader} {s s' : DropBitrateDequeueQueue}
    (h : s.countArrival header = .ok s') : ∃ fc, s' = { s with frameCounter := fc } := by
  unfold countArrival at h
  repeat' split at h
  all_goals cases h
  all_goals exact ⟨_, rfl⟩

theorem countDeparture_frame {header : PacketHeader} {s s' : DropBitrateDequeueQueue}
    (h : s.countDeparture header = .ok s') : ∃ fc, s' = { s with frameCounter := fc } := by
  unfold countDeparture at h
  repeat' split at h
  all_goals cases h
  all_goals exact ⟨_, rfl⟩

theorem recordDropper_frame (header : PacketHeader) (s : DropBitrateDequeueQueue) :
    ∃ droppers, s.recordDropper header = { s with prioToDroppers := droppers } := by
  unfold recordDropper
  split <;> exact ⟨_, rfl⟩

theorem recordVerdict_frame (v : Verdict) (header : PacketHeader) (s : DropBitrateDequeueQueue) :
    ∃ droppers drop, s.recordVerdict v header =
      { s with prioToDroppers := droppers, msgInDrop := drop } := by
  unfold recordVerdict
  dsimp only
  repeat' split
  all_goals exact ⟨_, _, rfl⟩

@[simp] theorem recordRate_toDropping (ts size : Nat) (d : UInt16) (s : DropBitrateDequeueQueue) :
    (s.recordRate ts size d).toDroppingPacketQueue = s.toDroppingPacketQueue := by
  obtain ⟨trace, rate, h⟩ := recordRate_frame ts size d s; rw [h]

@[simp] theorem recordRate_count (ts size : Nat) (d' : UInt16) (s : DropBitrateDequeueQueue)
    (d : UInt16) (m : Int) : (s.recordRate ts size d').count d m = s.count d m := by
  obtain ⟨trace, rate, h⟩ := recordRate_frame ts size d' s; rw [h]; rfl

@[simp] theorem accepting_count (p : QueuedPacket) (s : DropBitrateDequeueQueue) (d : UInt16)
    (m : Int) : (s.accepting p).count d m = s.count d m := rfl

@[simp] theorem popped_count (c : CountedQueue) (s : DropBitrateDequeueQueue) (d : UInt16)
    (m : Int) : (s.popped c).count d m = s.count d m := rfl

@[simp] theorem recordDropper_toDropping (header : PacketHeader) (s : DropBitrateDequeueQueue) :
    (s.recordDropper header).toDroppingPacketQueue = s.toDroppingPacketQueue := by
  obtain ⟨droppers, h⟩ := recordDropper_frame header s; rw [h]

@[simp] theorem recordDropper_count (header : PacketHeader) (s : DropBitrateDequeueQueue)
    (d : UInt16) (m : Int) : (s.recordDropper header).count d m = s.count d m := by
  obtain ⟨droppers, h⟩ := recordDropper_frame header s; rw [h]; rfl

@[simp] theorem recordVerdict_toDropping (v : Verdict) (header : PacketHeader)
    (s : DropBitrateDequeueQueue) :
    (s.recordVerdict v header).toDroppingPacketQueue = s.toDroppingPacketQueue := by
  obtain ⟨droppers, drop, h⟩ := recordVerdict_frame v header s; rw [h]

@[simp] theorem recordVerdict_count (v : Verdict) (header : PacketHeader)
    (s : DropBitrateDequeueQueue) (d : UInt16) (m : Int) :
    (s.recordVerdict v header).count d m = s.count d m := by
  obtain ⟨droppers, drop, h⟩ := recordVerdict_frame v header s; rw [h]; rfl

theorem countArrival_toDropping {header : PacketHeader} {s s' : DropBitrateDequeueQueue}
    (h : s.countArrival header = .ok s') :
    s'.toDroppingPacketQueue = s.toDroppingPacketQueue := by
  obtain ⟨fc, rfl⟩ := countArrival_frame h; rfl

theorem countDeparture_toDropping {header : PacketHeader} {s s' : DropBitrateDequeueQueue}
    (h : s.countDeparture header = .ok s') :
    s'.toDroppingPacketQueue = s.toDroppingPacketQueue := by
  obtain ⟨fc, rfl⟩ := countDeparture_frame h; rfl

/-- Where every counter has counted up to `w`, `countArrival` counts the packet in. -/
theorem countArrival_counter {header : PacketHeader} {s s' : DropBitrateDequeueQueue}
    {w : UInt16 → Int → Nat} (hw : ∀ d m, s.count d m = counter (w d m))
    (h : s.countArrival header = .ok s') (d : UInt16) (m : Int) :
    s'.count d m = counter (w d m + header.weighs d m) := by
  have hc := hw header.dstport header.msgNo
  unfold countArrival at h
  by_cases hd : header.dstport = d ∧ header.msgNo = m
  · obtain ⟨rfl, rfl⟩ := hd
    cases hpos : header.pktPos <;>
      simp only [hpos, hc, PacketHeader.weighs, PktPos.weight, counter, and_self, if_true] at h ⊢
    case mid => cases h; simpa [counter] using hc
    case solo =>
      split at h <;> cases h
      rw [count_setCount]
      simp_all
    all_goals
      split at h <;> cases h <;> rw [count_setCount] <;> simp_all
  · have hsame : s'.count d m = s.count d m := by
      repeat' split at h
      all_goals cases h
      all_goals first | rfl | rw [count_setCount, if_neg hd]
    rw [hsame, hw, PacketHeader.weighs, if_neg hd, Nat.add_zero]

/-- Where every counter has counted up to `w` and the packet, `countDeparture` counts it out. -/
theorem countDeparture_counter {header : PacketHeader} {s s' : DropBitrateDequeueQueue}
    {w : UInt16 → Int → Nat} (hw : ∀ d m, s.count d m = counter (w d m + header.weighs d m))
    (h : s.countDeparture header = .ok s') (d : UInt16) (m : Int) :
    s'.count d m = counter (w d m) := by
  have hc := hw header.dstport header.msgNo
  unfold countDeparture at h
  by_cases hd : header.dstport = d ∧ header.msgNo = m
  · obtain ⟨rfl, rfl⟩ := hd
    cases hpos : header.pktPos <;>
      simp only [hpos, PacketHeader.weighs, PktPos.weight, and_self, if_true] at h hc
    case mid => cases h; exact hc
    case solo =>
      generalize s.count header.dstport header.msgNo = c at h hc
      split at h <;> cases h
      rename_i htwo
      rw [count_eraseCount, if_pos ⟨rfl, rfl⟩]
      simp [counter, htwo] at hc ⊢
      omega
    all_goals
      simp only [counter, Nat.add_eq_zero_iff, one_ne_zero, and_false, if_false] at hc
      rw [hc] at h
      dsimp only at h
      split at h <;> cases h
      · rw [count_eraseCount, if_pos ⟨rfl, rfl⟩]; simp_all [counter]
      · rw [count_setCount, if_pos ⟨rfl, rfl⟩]; simp_all [counter]
  · have hsame : s'.count d m = s.count d m := by
      repeat' split at h
      all_goals cases h
      all_goals first | rfl | rw [count_setCount, if_neg hd] | rw [count_eraseCount, if_neg hd]
    rw [hsame, hw, PacketHeader.weighs, if_neg hd, Nat.add_zero]

/-! ### What a call does -/

/-- An `enqueue` that returns: the packet was refused, or accepted and not Octopus, or accepted
and counted. -/
theorem enqueue_cases {ts : Nat} {p : QueuedPacket} {s s' : DropBitrateDequeueQueue}
    (h : s.enqueue ts p = .ok s') :
    (s.fits p = .ok false ∧ s' = s) ∨
    ∃ header, s.fits p = .ok true ∧ PacketHeader.ofPayload p.contents = .ok header ∧
      ((header.isOctopus = false ∧ s' = s.accepting p) ∨
        (header.isOctopus = true ∧ ∃ s₁,
          ((s.accepting p).recordRate ts p.size header.dstport).countArrival header = .ok s₁ ∧
          s' = s₁.recordDropper header)) := by
  obtain ⟨fits, hfits, h⟩ := bind_ok.mp h
  cases fits with
  | false => cases h; exact .inl ⟨hfits, rfl⟩
  | true =>
      obtain ⟨header, hheader, h⟩ := bind_ok.mp h
      refine .inr ⟨header, hfits, hheader, ?_⟩
      cases hoct : header.isOctopus with
      | false =>
          simp only [hoct] at h
          obtain ⟨-, -, h⟩ := bind_ok.mp h
          obtain ⟨-, -, h⟩ := bind_ok.mp h
          cases h
          exact .inl ⟨rfl, rfl⟩
      | true =>
          simp only [hoct] at h
          obtain ⟨-, -, h⟩ := bind_ok.mp h
          obtain ⟨s₁, hcount, h⟩ := bind_ok.mp h
          cases h
          exact .inr ⟨rfl, s₁, hcount, rfl⟩

/-- A `dequeuefront` that returns: it took the front packet, and left it alone if it is not
Octopus, or else marked it by the verdict and counted it out. -/
theorem dequeuefront_cases {ts : Nat} {pkt : QueuedPacket} {s s' : DropBitrateDequeueQueue}
    (h : s.dequeuefront ts = .ok (pkt, s')) :
    ∃ p c header, s.toCountedQueue.pop = .ok (p, c) ∧
      PacketHeader.ofPayload p.contents = .ok header ∧
      ((header.isOctopus = false ∧ pkt = p ∧ s' = s.popped c) ∨
        (header.isOctopus = true ∧
          pkt = { p with isDrop := p.isDrop || (s.verdict ts p header).drops } ∧
          ((s.popped c).recordVerdict (s.verdict ts p header) header).countDeparture header
            = .ok s')) := by
  obtain ⟨⟨p, q⟩, hpop, h⟩ := bind_ok.mp h
  obtain ⟨c, hc, rfl⟩ := DroppingPacketQueue.popFront_ok hpop
  obtain ⟨header, hheader, h⟩ := bind_ok.mp h
  refine ⟨p, c, header, hc, hheader, ?_⟩
  cases hoct : header.isOctopus with
  | false =>
      simp only [hoct] at h
      cases h
      exact .inl ⟨rfl, rfl, rfl⟩
  | true =>
      simp only [hoct, if_true] at h
      obtain ⟨s₁, hcount, h⟩ := bind_ok.mp h
      cases h
      exact .inr ⟨rfl, rfl, hcount⟩

/-- The front packet leaves, with its contents and arrival time; the rest of the list stays. -/
theorem dequeuefront_queue {ts : Nat} {pkt : QueuedPacket} {s s' : DropBitrateDequeueQueue}
    (h : s.dequeuefront ts = .ok (pkt, s')) :
    ∃ p, s.internalQueue = p :: s'.internalQueue ∧ pkt = { p with isDrop := pkt.isDrop } := by
  obtain ⟨p, c, header, hpop, -, hcase⟩ := dequeuefront_cases h
  obtain ⟨hq, -⟩ := CountedQueue.pop_ok hpop
  rcases hcase with ⟨-, rfl, rfl⟩ | ⟨-, rfl, hcount⟩
  · exact ⟨pkt, hq, rfl⟩
  · obtain ⟨fc, rfl⟩ := countDeparture_frame hcount
    obtain ⟨dr, mid, hv⟩ := recordVerdict_frame (s.verdict ts p header) header (s.popped c)
    exact ⟨p, by rw [hv]; exact hq, rfl⟩

theorem front_ok {ts : Nat} {f : Front} {s s' : DropBitrateDequeueQueue} :
    s.front ts = .ok (f, s') ↔
      f.ts = ts ∧ f.before = s ∧ s.dequeuefront ts = .ok (f.pkt, s') := by
  constructor
  · intro h
    obtain ⟨⟨pkt, s₁⟩, hpkt, h⟩ := bind_ok.mp h
    cases h
    exact ⟨rfl, rfl, hpkt⟩
  · rintro ⟨rfl, rfl, h⟩
    exact bind_ok.mpr ⟨_, h, rfl⟩

theorem front_of_dequeuefront {ts : Nat} {pkt : QueuedPacket} {s s' : DropBitrateDequeueQueue}
    (h : s.dequeuefront ts = .ok (pkt, s')) : s.front ts = .ok (⟨ts, s, pkt⟩, s') :=
  front_ok.mpr ⟨rfl, rfl, h⟩

/-! ### Runs -/

/-- The packets accepted so far and the `dequeuefront`s made so far, in order. -/
structure History where
  accepted : List QueuedPacket := []
  fronts : List Front := []

inductive Action where
  | enqueue (ts arrivalTime : Nat) (contents : Payload)
  | dequeuefront (ts : Nat)
  | setBandwidth (bandwidth : Nat)

/-- The history after `enqueue` was called with `p` on `s` and returned. -/
def History.offer (s : DropBitrateDequeueQueue) (p : QueuedPacket) (h : History) : History :=
  if s.fits p = .ok true then { h with accepted := h.accepted ++ [p] } else h

def Action.step : Action → History × DropBitrateDequeueQueue →
    Except Fault (History × DropBitrateDequeueQueue)
  | .enqueue ts arrivalTime contents, (h, s) => do
      let p : QueuedPacket := { arrivalTime, contents }
      let s' ← s.enqueue ts p
      return (h.offer s p, s')
  | .dequeuefront ts, (h, s) => do
      let (f, s') ← s.front ts
      return ({ h with fronts := h.fronts ++ [f] }, s')
  | .setBandwidth bandwidth, (h, s) => return (h, s.setBandwidth bandwidth)

/-- Some run from a new queue leads to the state `s`, with the history `h`. -/
def Reachable (h : History) (s : DropBitrateDequeueQueue) : Prop :=
  ∃ packetLimit byteLimit logFd bandwidth as,
    run Action.step as ({}, ofArgs packetLimit byteLimit logFd bandwidth) = .ok (h, s)

/-- **The invariant rule of reachable states.** -/
theorem Reachable.induction {P : History → DropBitrateDequeueQueue → Prop}
    (h₀ : ∀ packetLimit byteLimit logFd bandwidth, P {} (ofArgs packetLimit byteLimit logFd bandwidth))
    (henq : ∀ h s s' ts p, Reachable h s → P h s → p.isDrop = false → s.enqueue ts p = .ok s' →
      P (h.offer s p) s')
    (hfront : ∀ h s s' ts pkt, Reachable h s → P h s → s.dequeuefront ts = .ok (pkt, s') →
      P { h with fronts := h.fronts ++ [⟨ts, s, pkt⟩] } s')
    (hband : ∀ h s bandwidth, Reachable h s → P h s → P h (s.setBandwidth bandwidth))
    {h : History} {s : DropBitrateDequeueQueue} (hr : Reachable h s) : P h s := by
  obtain ⟨pl, bl, lf, bw, as, hrun⟩ := hr
  refine run_induction (P := fun _ x => P x.1 x.2) (h₀ pl bl lf bw) ?_ hrun
  rintro done ⟨h, s⟩ a ⟨h', s'⟩ hdone hP hs
  have hr : Reachable h s := ⟨pl, bl, lf, bw, done, hdone⟩
  cases a with
  | enqueue ts arrivalTime contents =>
      obtain ⟨s₁, hs₁, hs⟩ := bind_ok.mp hs
      cases hs
      exact henq h s s' ts _ hr hP rfl hs₁
  | dequeuefront ts =>
      obtain ⟨⟨⟨_, _, pkt⟩, s₁⟩, hf, hs⟩ := bind_ok.mp hs
      cases hs
      obtain ⟨rfl, rfl, hd⟩ := front_ok.mp hf
      exact hfront h _ s' _ pkt hr hP hd
  | setBandwidth bandwidth =>
      cases hs
      exact hband h s bandwidth hr hP

theorem Reachable.step {h h' : History} {s s' : DropBitrateDequeueQueue} (hr : Reachable h s)
    {a : Action} (ha : a.step (h, s) = .ok (h', s')) : Reachable h' s' := by
  obtain ⟨pl, bl, lf, bw, as, hrun⟩ := hr
  refine ⟨pl, bl, lf, bw, as ++ [a], ?_⟩
  rw [run_append, hrun, ok_bind, run_cons, ha]
  rfl

theorem Reachable.front {h : History} {s s' : DropBitrateDequeueQueue} (hr : Reachable h s)
    {ts : Nat} {f : Front} (hf : s.front ts = .ok (f, s')) :
    Reachable { h with fronts := h.fronts ++ [f] } s' :=
  hr.step (a := .dequeuefront ts) (bind_ok.mpr ⟨_, hf, rfl⟩)

/-! ### `dequeue` as a sequence of `dequeuefront`s -/

/-- The loop of `dequeue`: it goes on from a marked Octopus packet, which it discards. -/
theorem dequeueLoop_induction {clock : Nat → Nat} {P : List Front → Front → DropBitrateDequeueQueue → Prop}
    (hstep : ∀ dropped f s header ts f' s', P dropped f s →
      PacketHeader.ofPayload f.pkt.contents = .ok header → header.isOctopus = true →
      f.pkt.isDrop = true → s.front ts = .ok (f', s') → P (dropped ++ [f]) f' s')
    {fuel : Nat} : ∀ {dropped dropped' : List Front} {f f' : Front} {s s' : DropBitrateDequeueQueue},
      P dropped f s → dequeueLoop clock fuel dropped f s = .ok (dropped', f', s') →
      P dropped' f' s' := by
  induction fuel with
  | zero => intro dropped dropped' f f' s s' hP h; cases h; exact hP
  | succ fuel ih =>
      intro dropped dropped' f f' s s' hP h
      rw [dequeueLoop] at h
      split at h
      · cases h; exact hP
      · obtain ⟨header, hheader, h⟩ := bind_ok.mp h
        split at h
        · rename_i hmark
          obtain ⟨⟨f₁, s₁⟩, hf, h⟩ := bind_ok.mp h
          simp only [Bool.and_eq_true] at hmark
          exact ih (hstep dropped f s header _ f₁ s₁ hP hheader hmark.1 hmark.2 hf) h
        · cases h; exact hP

/-- With fuel for every queued packet the loop ends as the source's does: the list is empty, or the
packet in hand is not a marked Octopus packet. -/
theorem dequeueLoop_exit {clock : Nat → Nat} {fuel : Nat} :
    ∀ {dropped dropped' : List Front} {f f' : Front} {s s' : DropBitrateDequeueQueue},
      s.internalQueue.length ≤ fuel →
      dequeueLoop clock fuel dropped f s = .ok (dropped', f', s') →
      s'.internalQueue = [] ∨ ∃ header, PacketHeader.ofPayload f'.pkt.contents = .ok header ∧
        (header.isOctopus && f'.pkt.isDrop) = false := by
  induction fuel with
  | zero =>
      intro dropped dropped' f f' s s' hlen h
      cases h
      exact .inl (List.length_eq_zero_iff.mp (by omega))
  | succ fuel ih =>
      intro dropped dropped' f f' s s' hlen h
      rw [dequeueLoop] at h
      split at h
      · rename_i hempty
        cases h
        exact .inl (by simpa [CountedQueue.empty] using hempty)
      · obtain ⟨header, hheader, h⟩ := bind_ok.mp h
        split at h
        · obtain ⟨⟨f₁, s₁⟩, hf, h⟩ := bind_ok.mp h
          obtain ⟨p, hq, -⟩ := dequeuefront_queue (front_ok.mp hf).2.2
          exact ih (by simp [hq] at hlen; exact hlen) h
        · rename_i hmark
          cases h
          exact .inr ⟨header, hheader, by simpa using hmark⟩

/-- Everything `dequeue` does: its packets are taken off by `dequeuefront`s, those it discards are
marked, and the one it returns is marked only if it was the last packet queued or not Octopus. -/
theorem dequeueAll_cases {clock : Nat → Nat} {dropped : List Front} {f : Front}
    {s s' : DropBitrateDequeueQueue} (h : s.dequeueAll clock = .ok (dropped, f, s')) :
    (∀ hist, Reachable hist s →
      Reachable { hist with fronts := hist.fronts ++ dropped ++ [f] } s') ∧
    (∀ g ∈ dropped, g.pkt.isDrop = true) ∧
    f.before.dequeuefront f.ts = .ok (f.pkt, s') ∧
    (s'.internalQueue = [] ∨ ∃ header, PacketHeader.ofPayload f.pkt.contents = .ok header ∧
      (header.isOctopus && f.pkt.isDrop) = false) := by
  obtain ⟨⟨f₀, s₀⟩, hf₀, h⟩ := bind_ok.mp h
  obtain ⟨⟨dropped₁, f₁, s₁⟩, hloop, h⟩ := bind_ok.mp h
  have hret : dropped₁ = dropped ∧ f₁ = f ∧ s₁ = s' := by
    obtain ⟨header, -, h⟩ := bind_ok.mp h
    dsimp only at h
    split at h
    · obtain ⟨-, -, h⟩ := bind_ok.mp h
      cases h; exact ⟨rfl, rfl, rfl⟩
    · cases h; exact ⟨rfl, rfl, rfl⟩
  obtain ⟨rfl, rfl, rfl⟩ := hret
  refine ⟨fun hist hr => ?_, ?_, ?_, dequeueLoop_exit le_rfl hloop⟩
  · refine dequeueLoop_induction
      (P := fun dropped f s => Reachable { hist with fronts := hist.fronts ++ dropped ++ [f] } s)
      ?_ (by simpa using hr.front hf₀) hloop
    intro dropped f s header ts f' s' hP _ _ _ hf
    simpa using hP.front hf
  · refine dequeueLoop_induction (P := fun dropped _ _ => ∀ g ∈ dropped, g.pkt.isDrop = true)
      ?_ (by simp) hloop
    intro dropped f s header ts f' s' hP _ _ hmark _
    exact List.forall_mem_append.mpr ⟨hP, List.forall_mem_singleton.mpr hmark⟩
  · have hself : ∀ {ts : Nat} {f : Front} {s s' : DropBitrateDequeueQueue},
        s.front ts = .ok (f, s') → f.before.dequeuefront f.ts = .ok (f.pkt, s') := fun hf => by
      obtain ⟨rfl, rfl, hd⟩ := front_ok.mp hf
      exact hd
    exact dequeueLoop_induction (P := fun _ f s => f.before.dequeuefront f.ts = .ok (f.pkt, s))
      (fun _ _ _ _ _ _ _ _ _ _ _ hf => hself hf) (hself hf₀) hloop

/-! ### Runs of whole calls -/

/-- What a run of calls has done: the packets accepted, and those removed, each with whether
`dequeue` returned it. -/
structure Trace where
  accepted : List QueuedPacket := []
  removed : List (Front × Bool) := []

def Trace.history (t : Trace) : History := ⟨t.accepted, t.removed.map Prod.fst⟩

inductive Call where
  | enqueue (ts arrivalTime : Nat) (contents : Payload)
  | dequeue (clock : Nat → Nat)
  | setBandwidth (bandwidth : Nat)

def Call.step : Call → Trace × DropBitrateDequeueQueue →
    Except Fault (Trace × DropBitrateDequeueQueue)
  | .enqueue ts arrivalTime contents, (t, s) => do
      let p : QueuedPacket := { arrivalTime, contents }
      let s' ← s.enqueue ts p
      return ({ t with accepted := (t.history.offer s p).accepted }, s')
  | .dequeue clock, (t, s) => do
      let (dropped, f, s') ← s.dequeueAll clock
      return ({ t with removed := t.removed ++ dropped.map (·, false) ++ [(f, true)] }, s')
  | .setBandwidth bandwidth, (t, s) => return (t, s.setBandwidth bandwidth)

theorem Call.step_reachable {c : Call} {t t' : Trace} {s s' : DropBitrateDequeueQueue}
    (h : c.step (t, s) = .ok (t', s')) (hr : Reachable t.history s) : Reachable t'.history s' := by
  cases c with
  | enqueue ts arrivalTime contents =>
      obtain ⟨s₁, hs₁, h⟩ := bind_ok.mp h
      cases h
      refine hr.step (a := .enqueue ts arrivalTime contents) (bind_ok.mpr ⟨s', hs₁, ?_⟩)
      simp only [History.offer, Trace.history]
      split <;> rfl
  | dequeue clock =>
      obtain ⟨⟨dropped, f, s₁⟩, hd, h⟩ := bind_ok.mp h
      cases h
      have hr' := (dequeueAll_cases hd).1 t.history hr
      simpa [Trace.history, Function.comp_def] using hr'
  | setBandwidth bandwidth =>
      cases h
      exact hr.step (a := .setBandwidth bandwidth) rfl

/-- A run of calls only passes through reachable states. -/
theorem run_reachable {packetLimit byteLimit bandwidth : Nat} {logFd : Bool} {calls : List Call}
    {t : Trace} {s : DropBitrateDequeueQueue}
    (h : run Call.step calls ({}, ofArgs packetLimit byteLimit logFd bandwidth) = .ok (t, s)) :
    Reachable t.history s := by
  refine run_induction (P := fun _ x => Reachable x.1.history x.2) ?_ ?_ h
  · exact ⟨packetLimit, byteLimit, logFd, bandwidth, [], rfl⟩
  · rintro - ⟨t, s⟩ c ⟨t', s'⟩ - hr hs
    exact c.step_reachable hs hr

end DropBitrateDequeueQueue

end Mahimahi
