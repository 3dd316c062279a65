import Mathlib.Algebra.Order.BigOperators.Group.List
import Mathlib.Tactic.Ring
import Mahimahi.DropBitrate.Runs

/-!
# DropBitrate — arrival rates and the fair share

`enqueue_rate_` of a port is meant to be the bits that arrived after the port's oldest recorded
packet, over the time since.  The sum of lines 30–33 is lost, and what is divided is the negative
size of the oldest packet.  An `Estimate` is one use of lines 29–37 in a run: the port's trace as
the packet leaves it, and the rate written.

* `trace_sizes`: a port's trace holds the sizes of the Octopus packets accepted for it.
* `rates_right_iff`: the rates of a run are right exactly when every estimate is made 2³² − 1 ms
  after the port's oldest packet, or about 2⁶⁴ ms after it.
* `fairShare_bounds`: the fair share is at least the smaller of the port's own rate and half the
  bandwidth, and at most the bandwidth, except where the slack of 500 is added.
-/

open Fallible MachineInt
open Std (TreeMap)

namespace Mahimahi

/-- A packet whose header can be read has a byte. -/
theorem PacketHeader.ofPayload_pos {payload : Payload} {header : PacketHeader}
    (h : ofPayload payload = .ok header) : 0 < payload.length := by
  obtain ⟨ip, hip, -⟩ := bind_ok.mp h
  cases payload with
  | nil => cases hip
  | cons b bs => simp

/-- An Octopus packet for port `d`. -/
def QueuedPacket.sentTo (p : QueuedPacket) (d : UInt16) : Bool := p.stamp.any (·.port == d)

theorem QueuedPacket.sentTo_eq {p : QueuedPacket} {header : PacketHeader}
    (h : PacketHeader.ofPayload p.contents = .ok header) (d : UInt16) :
    p.sentTo d = (header.isOctopus && header.dstport == d) := by
  rw [sentTo, stamp_of_ok h, PacketHeader.stamp]
  cases header.isOctopus <;> simp

namespace DropBitrateDequeueQueue

/-! ### The traces -/

/-- `enqueue_trace_[dstport]` -/
def trace (s : DropBitrateDequeueQueue) (d : UInt16) : List (Nat × Int) := s.enqueueTrace.getD d []

theorem recordRate_trace (ts size : Nat) (d d' : UInt16) (s : DropBitrateDequeueQueue) :
    (s.recordRate ts size d).trace d' =
      if d = d' then s.trace d' ++ [(ts, toI32 size)] else s.trace d' := by
  have hinsert : (s.recordRate ts size d).enqueueTrace =
      s.enqueueTrace.insert d (s.trace d ++ [(ts, toI32 size)]) := by
    unfold recordRate
    dsimp only
    split <;> rfl
  rw [trace, hinsert, TreeMap.getD_insert]
  by_cases hd : d = d' <;> simp [hd, trace]

theorem enqueue_trace {ts : Nat} {p : QueuedPacket} {s s' : DropBitrateDequeueQueue}
    (h : s.enqueue ts p = .ok s') (d : UInt16) :
    s'.trace d = if s.fits p = .ok true ∧ p.sentTo d then s.trace d ++ [(ts, toI32 p.size)]
      else s.trace d := by
  rcases enqueue_cases h with ⟨hfits, rfl⟩ | ⟨header, hfits, hheader, hcase⟩
  · rw [if_neg]
    rintro ⟨hfit, -⟩
    rw [hfits] at hfit
    cases hfit
  · rcases hcase with ⟨hoct, rfl⟩ | ⟨hoct, s₁, hcount, rfl⟩
    · simp [QueuedPacket.sentTo_eq hheader, hoct, trace, accepting]
    · obtain ⟨fc, rfl⟩ := countArrival_frame hcount
      obtain ⟨droppers, hdr⟩ := recordDropper_frame header
        { (s.accepting p).recordRate ts p.size header.dstport with frameCounter := fc }
      rw [hdr]
      change ((s.accepting p).recordRate ts p.size header.dstport).trace d = _
      rw [recordRate_trace]
      simp only [hfits, QueuedPacket.sentTo_eq hheader, hoct, Bool.true_and, beq_iff_eq, true_and]
      rfl

theorem dequeuefront_traces {ts : Nat} {pkt : QueuedPacket} {s s' : DropBitrateDequeueQueue}
    (h : s.dequeuefront ts = .ok (pkt, s')) : s'.enqueueTrace = s.enqueueTrace := by
  obtain ⟨p, c, header, -, -, ⟨-, -, rfl⟩ | ⟨-, -, hcount⟩⟩ := dequeuefront_cases h
  · rfl
  · obtain ⟨fc, rfl⟩ := countDeparture_frame hcount
    obtain ⟨dr, mid, hv⟩ := recordVerdict_frame (s.verdict ts p header) header (s.popped c)
    rw [hv]
    rfl

/-- **A port's trace is never shortened**: its sizes are those of all the Octopus packets accepted
for the port, and none of them is empty. -/
theorem trace_sizes {h : History} {s : DropBitrateDequeueQueue} (hr : Reachable h s) (d : UInt16) :
    (s.trace d).map (·.2) = (h.accepted.filter (·.sentTo d)).map (toI32 ·.size) ∧
      ∀ p ∈ h.accepted, p.sentTo d → 0 < p.size := by
  refine hr.induction (P := fun h s =>
    (s.trace d).map (·.2) = (h.accepted.filter (·.sentTo d)).map (toI32 ·.size) ∧
      ∀ p ∈ h.accepted, p.sentTo d → 0 < p.size) ?_ ?_ ?_ ?_
  · exact fun _ _ _ _ => ⟨by simp [ofArgs, trace], by simp⟩
  · rintro h s s' ts p - ⟨hsizes, hpos⟩ - henq
    rw [enqueue_trace henq]
    by_cases hfits : s.fits p = .ok true
    · rw [History.offer, if_pos hfits]
      refine ⟨?_, List.forall_mem_append.mpr ⟨hpos, List.forall_mem_singleton.mpr fun hsent => ?_⟩⟩
      · cases hsent : p.sentTo d <;> simp [hfits, hsent, hsizes]
      · rcases enqueue_cases henq with ⟨hno, -⟩ | ⟨header, -, hheader, -⟩
        · rw [hfits] at hno; cases hno
        · exact PacketHeader.ofPayload_pos hheader
    · simpa [History.offer, hfits] using ⟨hsizes, hpos⟩
  · rintro h s s' ts pkt - hP hd
    rwa [trace, dequeuefront_traces hd]
  · exact fun _ _ _ _ hP => hP

theorem sum_sizes {ps : List QueuedPacket} (h : totalBytes ps < 2 ^ 31) :
    (ps.map (toI32 ·.size)).sum = totalBytes ps := by
  induction ps with
  | nil => rfl
  | cons p ps ih =>
      simp only [totalBytes_cons] at h
      rw [List.map_cons, List.sum_cons, ih (by omega), toI32_of_range (by omega) (by omega)]
      simp

theorem totalBytes_filter_le (f : QueuedPacket → Bool) (ps : List QueuedPacket) :
    totalBytes (ps.filter f) ≤ totalBytes ps := by
  induction ps with
  | nil => rfl
  | cons p ps ih =>
      rw [List.filter_cons]
      split <;> simp only [totalBytes_cons] <;> omega

/-- Below 2³¹ bytes, the sizes a trace holds are positive and add up to no more than what was
accepted. -/
theorem trace_bytes {h : History} {s : DropBitrateDequeueQueue} (hr : Reachable h s)
    (hbytes : totalBytes h.accepted < 2 ^ 31) (d : UInt16) :
    (∀ e ∈ s.trace d, 0 < e.2) ∧ ((s.trace d).map (·.2)).sum ≤ totalBytes h.accepted := by
  obtain ⟨hsizes, hpos⟩ := trace_sizes hr d
  have hle := totalBytes_filter_le (·.sentTo d) h.accepted
  constructor
  · intro e he
    have hmem : e.2 ∈ (s.trace d).map (·.2) := List.mem_map.mpr ⟨e, he, rfl⟩
    rw [hsizes] at hmem
    obtain ⟨p, hp, hpe⟩ := List.mem_map.mp hmem
    obtain ⟨hacc, hsent⟩ := List.mem_filter.mp hp
    have hone := hpos p hacc hsent
    have hall : p.size ≤ totalBytes h.accepted :=
      List.le_sum_of_mem (List.mem_map.mpr ⟨p, hacc, rfl⟩)
    rw [← hpe, toI32_of_range (by omega) (by omega)]
    exact_mod_cast hone
  · rw [hsizes, sum_sizes (by omega)]
    exact_mod_cast hle

/-! ### The rates -/

/-- One use of the estimate: the port's trace, and the rate it has then. -/
structure Estimate where
  oldest : Nat × Int
  later : List (Nat × Int)
  rate : Int

namespace Estimate

/-- The time from the oldest entry to the newest. -/
def gap (e : Estimate) : Nat := (e.later.getLastD e.oldest).1 - e.oldest.1

/-- The rate is the bits of all entries but the oldest, over the gap. -/
def Right (e : Estimate) : Prop :=
  e.rate = 8 * (e.later.map (·.2)).sum / (e.gap : Int) ∧ 0 ≤ e.rate

end Estimate

/-- The run `as` from `x` accepts an Octopus packet whose port has an entry older than 100 ms, and
`e` is the estimate it makes. -/
def Estimates (as : List Action) (x : History × DropBitrateDequeueQueue) (e : Estimate) : Prop :=
  ∃ done ts arrivalTime contents rest h s header s',
    as = done ++ Action.enqueue ts arrivalTime contents :: rest ∧
    run Action.step done x = .ok (h, s) ∧
    s.fits { arrivalTime, contents } = .ok true ∧
    PacketHeader.ofPayload contents = .ok header ∧ header.isOctopus = true ∧
    s.enqueue ts { arrivalTime, contents } = .ok s' ∧
    s'.trace header.dstport = e.oldest :: e.later ∧ e.oldest.1 + 100 < ts ∧
    e.rate = s'.enqueueRate.getD header.dstport 0

/-- What lines 29–37 write when the oldest entry is old enough. -/
theorem recordRate_rate {ts size : Nat} {d : UInt16} {s : DropBitrateDequeueQueue}
    {oldest : Nat × Int} {later : List (Nat × Int)}
    (htrace : s.trace d ++ [(ts, toI32 size)] = oldest :: later) (hold : oldest.1 + 100 < ts) :
    (s.recordRate ts size d).enqueueRate.getD d 0 =
      toI32 (toU64 (toI32 (-oldest.2 * 8)) / (ts - oldest.1)) := by
  have hhead : (s.trace d ++ [(ts, toI32 size)]).headD (ts, toI32 size) = oldest := by
    rw [htrace]; rfl
  unfold recordRate
  simp only [trace] at hhead
  simp only [hhead, hold, if_true, TreeMap.getD_insert_self]

theorem mod_of_toI32 {q r : Nat} (h : toI32 q = r) : q % 2 ^ 32 = r := by
  have hlt : (r : Int) < 2 ^ 31 := h ▸ toI32_lt _
  have hmod : (q : Int) % (2 ^ 32 : Nat) = r := by
    rw [← Int.bmod_emod, show (q : Int).bmod (2 ^ 32) = r from h]
    exact Int.emod_eq_of_lt (by omega) (by omega)
  exact_mod_cast hmod

/-- The quotient that is taken is the one that is meant only at two kinds of gap. -/
theorem toI32_quotient_iff (a b gap : Nat) (ha : 0 < a) (hsum : a + b < 2 ^ 28) (hgap : 100 < gap) :
    toI32 (toU64 (toI32 (-(a : Int) * 8)) / gap : Nat) = (8 * (b : Int) / gap : Int) ↔
      gap = 2 ^ 32 - 1 ∨ 2 ^ 64 - 8 * a < gap := by
  have hwrap : toU64 (toI32 (-(a : Int) * 8)) = 2 ^ 64 - 8 * a := by
    rw [toI32, Int.bmod_eq_of_le (by omega) (by omega), toU64]
    omega
  have hcast : (8 * (b : Int) / gap : Int) = ((8 * b / gap : Nat) : Int) := by push_cast; rfl
  rw [hwrap, hcast]
  generalize hq : (2 ^ 64 - 8 * a) / gap = q
  generalize hr : 8 * b / gap = r
  have hq₀ : gap * q ≤ 2 ^ 64 - 8 * a := hq ▸ Nat.mul_div_le _ _
  have hq₁ : 2 ^ 64 - 8 * a < gap * q + gap := by
    rw [← hq]; exact Nat.lt_mul_div_succ _ (by omega)
  have hr₀ : gap * r ≤ 8 * b := hr ▸ Nat.mul_div_le _ _
  have hr₁ : r < 2 ^ 31 := by rw [← hr]; exact lt_of_le_of_lt (Nat.div_le_self _ _) (by omega)
  constructor
  · intro h
    -- the conversion to `int` takes `2 ^ 32 * k` off `q`
    obtain ⟨k, hk⟩ : ∃ k, q = 2 ^ 32 * k + r := by
      exact ⟨q / 2 ^ 32, by rw [← mod_of_toI32 h, Nat.div_add_mod]⟩
    have hgq : gap * q = 2 ^ 32 * (gap * k) + gap * r := by rw [hk]; ring
    rcases Nat.lt_or_ge k 1 with hk₀ | hk₁
    · -- nothing is dropped: the quotient is small, so it is 0
      obtain rfl : k = 0 := by omega
      rcases Nat.eq_zero_or_pos r with rfl | hpos
      · right; omega
      · have hle : gap ≤ gap * r := Nat.le_mul_of_pos_right _ hpos
        omega
    · have hle : gap ≤ gap * k := Nat.le_mul_of_pos_right _ hk₁
      have heq : gap * k = 2 ^ 32 - 1 := by omega
      rcases Nat.lt_or_ge k 2 with hk₂ | hk₂
      · obtain rfl : k = 1 := by omega
        left; omega
      · have hle₂ : gap * 2 ≤ gap * k := Nat.mul_le_mul_left _ hk₂
        omega
  · rintro (rfl | hlarge)
    · have hr₂ : r = 0 := by omega
      have hq₂ : q = 2 ^ 32 := by omega
      rw [hr₂, hq₂]
      decide
    · have hzero : ∀ n, gap * n ≤ 2 ^ 64 - 8 * a → n = 0 := fun n hn => by
        rcases Nat.eq_zero_or_pos n with hn₀ | hpos
        · exact hn₀
        · have hle : gap ≤ gap * n := Nat.le_mul_of_pos_right _ hpos
          omega
      rw [hzero q hq₀, hzero r (by omega)]
      decide

/-- An accepted Octopus packet writes the rate of its port, when the oldest entry is old enough. -/
theorem enqueue_rate {ts : Nat} {p : QueuedPacket} {s s' : DropBitrateDequeueQueue}
    {header : PacketHeader} {oldest : Nat × Int} {later : List (Nat × Int)}
    (henq : s.enqueue ts p = .ok s') (hfits : s.fits p = .ok true)
    (hheader : PacketHeader.ofPayload p.contents = .ok header) (hoct : header.isOctopus = true)
    (htrace : s.trace header.dstport ++ [(ts, toI32 p.size)] = oldest :: later)
    (hold : oldest.1 + 100 < ts) :
    s'.enqueueRate.getD header.dstport 0 =
      toI32 (toU64 (toI32 (-oldest.2 * 8)) / (ts - oldest.1)) := by
  rcases enqueue_cases henq with ⟨hno, -⟩ | ⟨header', -, hheader', ⟨hno, -⟩ | ⟨-, s₁, hcount, rfl⟩⟩
  · rw [hfits] at hno; cases hno
  · obtain rfl : header = header' := Except.ok.inj (hheader.symm.trans hheader')
    rw [hoct] at hno; cases hno
  · obtain rfl : header = header' := Except.ok.inj (hheader.symm.trans hheader')
    obtain ⟨fc, rfl⟩ := countArrival_frame hcount
    obtain ⟨droppers, hdr⟩ := recordDropper_frame header _
    rw [hdr]
    exact recordRate_rate htrace hold

/-- When the rate that is written is the one that is meant. -/
theorem Estimate.right_iff {e : Estimate} (hpos : ∀ entry ∈ e.oldest :: e.later, 0 < entry.2)
    (hsum : ((e.oldest :: e.later).map (·.2)).sum < 2 ^ 28) (hgap : 100 < e.gap)
    (hrate : e.rate = toI32 (toU64 (toI32 (-e.oldest.2 * 8)) / (e.gap : Int))) :
    e.Right ↔ e.gap = 2 ^ 32 - 1 ∨ 2 ^ 64 - 8 * e.oldest.2 < (e.gap : Int) := by
  have holdest : 0 < e.oldest.2 := hpos e.oldest List.mem_cons_self
  have hlater : 0 ≤ (e.later.map (·.2)).sum := List.sum_nonneg fun x hx => by
    obtain ⟨entry, hentry, rfl⟩ := List.mem_map.mp hx
    exact (hpos entry (List.mem_cons_of_mem _ hentry)).le
  obtain ⟨a, ha⟩ := Int.eq_ofNat_of_zero_le holdest.le
  obtain ⟨b, hb⟩ := Int.eq_ofNat_of_zero_le hlater
  rw [List.map_cons, List.sum_cons] at hsum
  have hquotient := toI32_quotient_iff a b e.gap (by omega) (by omega) hgap
  rw [ha, ← Int.natCast_ediv] at hrate
  have hiff : (e.gap = 2 ^ 32 - 1 ∨ 2 ^ 64 - 8 * e.oldest.2 < (e.gap : Int)) ↔
      (e.gap = 2 ^ 32 - 1 ∨ 2 ^ 64 - 8 * a < e.gap) := by
    rw [ha]; omega
  have hnonneg : (0 : Int) ≤ 8 * b / e.gap :=
    Int.ediv_nonneg (by omega) (Int.natCast_nonneg _)
  rw [hiff, ← hquotient, ← hrate, Estimate.Right, hb]
  exact ⟨fun h => h.1, fun h => ⟨h, h ▸ hnonneg⟩⟩

/-- The bytes accepted in the course of the run `as` from `x` stay below `n`. -/
def BytesBelow (n : Nat) (as : List Action) (x : History × DropBitrateDequeueQueue) : Prop :=
  ∀ done h s, done <+: as → run Action.step done x = .ok (h, s) → totalBytes h.accepted < n

/-- **When a rate is right.**  Nothing else about the run matters: not its clock, nor what else the
port has received. -/
theorem rates_right_iff {packetLimit byteLimit bandwidth : Nat} {logFd : Bool} {as : List Action}
    (hbytes : BytesBelow (2 ^ 28) as ({}, ofArgs packetLimit byteLimit logFd bandwidth))
    {e : Estimate} (he : Estimates as ({}, ofArgs packetLimit byteLimit logFd bandwidth) e) :
    e.Right ↔ e.gap = 2 ^ 32 - 1 ∨ 2 ^ 64 - 8 * e.oldest.2 < (e.gap : Int) := by
  obtain ⟨done, ts, arrivalTime, contents, rest, h, s, header, s', rfl, hrun, hfits, hheader, hoct,
    henq, htrace', hold, hrate⟩ := he
  have hsent : QueuedPacket.sentTo { arrivalTime, contents } header.dstport = true := by
    simp [QueuedPacket.sentTo_eq (p := { arrivalTime, contents }) hheader, hoct]
  have hrun' : run Action.step (done ++ [.enqueue ts arrivalTime contents])
      ({}, ofArgs packetLimit byteLimit logFd bandwidth) =
        .ok (h.offer s { arrivalTime, contents }, s') := by
    rw [run_append, hrun, ok_bind, run_cons]
    exact bind_ok.mpr ⟨_, bind_ok.mpr ⟨_, henq, rfl⟩, rfl⟩
  have hsmall := hbytes _ _ _ ⟨rest, by simp⟩ hrun'
  obtain ⟨hpos, hsum⟩ := trace_bytes (d := header.dstport)
    ⟨packetLimit, byteLimit, logFd, bandwidth, _, hrun'⟩ (by omega)
  rw [htrace'] at hpos hsum
  -- the newest entry is this packet's, so the gap is the one the code divides by
  have htrace : s.trace header.dstport ++ [(ts, toI32 (QueuedPacket.size { arrivalTime, contents }))]
      = e.oldest :: e.later := by
    rw [← htrace', enqueue_trace henq, if_pos ⟨hfits, hsent⟩]
  have hlast : e.later.getLastD e.oldest =
      (ts, toI32 (QueuedPacket.size { arrivalTime, contents })) := by
    have hl := congrArg (fun l => l.getLastD (0, 0)) htrace
    simpa [List.getLast?_cons] using hl.symm
  have hgap : (e.gap : Int) = ts - e.oldest.1 := by rw [Estimate.gap, hlast]; omega
  refine Estimate.right_iff hpos (by omega) (by omega) ?_
  rw [hrate, hgap]
  exact enqueue_rate (p := { arrivalTime, contents }) henq hfits hheader hoct htrace hold

/-- Two whole messages of 44 bytes for one port. -/
def twoArrivals (ts : Nat) : List Action :=
  [.enqueue 0 0 (udpPayload 4433 1 0xc0000001 0), .enqueue ts ts (udpPayload 4433 2 0xc0000002 0)]

/-- The second packet's `enqueue`, where it is accepted and the oldest entry is old enough. -/
theorem estimates_twoArrivals (ts : Nat) (rate : Int) (hts : 100 < ts)
    (hs : (run Action.step (twoArrivals ts).dropLast ({}, ofArgs 100 0 false 0)).map (fun x =>
      let p : QueuedPacket := ⟨ts, udpPayload 4433 2 0xc0000002 0, false⟩
      (x.2.fits p, (x.2.enqueue ts p).map fun s => (s.trace 4433, s.enqueueRate.getD 4433 0))) =
        .ok (.ok true, .ok ([(0, 44), (ts, 44)], rate))) :
    Estimates (twoArrivals ts) ({}, ofArgs 100 0 false 0) ⟨(0, 44), [(ts, 44)], rate⟩ := by
  obtain ⟨⟨h, s⟩, hrun, hs⟩ := of_map_ok hs
  simp only [Prod.mk.injEq] at hs
  obtain ⟨s', henq, hs'⟩ := of_map_ok hs.2
  simp only [Prod.mk.injEq] at hs'
  exact ⟨_, ts, ts, _, [], h, s, ⟨2, 0xc0000002, 0, 0x00110000, 4433⟩, s', rfl, hrun, hs.1,
    by decide, by decide, henq, hs'.1, by omega, hs'.2.symm⟩

/-- The bytes accepted after none, one and both of the arrivals. -/
theorem bytesBelow_twoArrivals {ts : Nat}
    (hok : ∀ n < 3, (run Action.step ((twoArrivals ts).take n) ({}, ofArgs 100 0 false 0)).map
      (fun x => decide (totalBytes x.1.accepted < 2 ^ 28)) = .ok true) :
    BytesBelow (2 ^ 28) (twoArrivals ts) ({}, ofArgs 100 0 false 0) := by
  intro done h s hdone hrun
  have hbytes := hok done.length (Nat.lt_succ_of_le hdone.length_le)
  rw [← List.prefix_iff_eq_take.mp hdone, hrun] at hbytes
  simpa [Except.map] using hbytes

theorem rates_right_iff_twoArrivals :
    ∃ e, Estimates (twoArrivals (2 ^ 32 - 1)) ({}, ofArgs 100 0 false 0) e ∧ e.Right := by
  have he := estimates_twoArrivals (2 ^ 32 - 1) 0 (by decide) (by decide)
  exact ⟨_, he, (rates_right_iff (bytesBelow_twoArrivals (by decide)) he).mpr (.inl (by decide))⟩

def Action.clock? : Action → Option Nat
  | .enqueue ts .. | .dequeuefront ts => some ts
  | .setBandwidth _ => none

/-- After 44 bytes at 0 ms and 44 bytes at 101 ms the rate should be 3. -/
theorem rate_negative : ¬ ∀ packetLimit byteLimit logFd bandwidth as,
    (as.filterMap Action.clock?).Pairwise (· ≤ ·) →
    BytesBelow (2 ^ 28) as ({}, ofArgs packetLimit byteLimit logFd bandwidth) →
    ∀ e, Estimates as ({}, ofArgs packetLimit byteLimit logFd bandwidth) e → e.Right := by
  intro hall
  have he := estimates_twoArrivals 101 (-1403306150) (by decide) (by decide)
  have hright := hall 100 0 false 0 (twoArrivals 101) (by decide)
    (bytesBelow_twoArrivals (by decide)) _ he
  exact absurd hright.2 (by decide)

/-! ### The fair share -/

/-- Lines 93–103, of the port's own rate and of the sum of the others. -/
def share (bandwidth ownRate peerRate : Nat) : Nat :=
  if peerRate = 0 then bandwidth
  else if bandwidth / 2 ≤ peerRate ∧ bandwidth / 2 ≤ ownRate then bandwidth / 2
  else if peerRate ≤ bandwidth / 2 ∧ ownRate ≤ bandwidth / 2 then bandwidth / 2
  else if peerRate ≤ bandwidth / 2 ∧ bandwidth / 2 ≤ ownRate then bandwidth - peerRate
  else if bandwidth / 2 ≤ peerRate ∧ ownRate ≤ bandwidth / 2 then toU32 (ownRate + 500)
  else 0

/-- The rates of the other ports, added up in a `uint32_t`. -/
def peerRate (s : DropBitrateDequeueQueue) (d : UInt16) : Nat :=
  toU32 ((s.enqueueRate.toList.filter (·.1 != d)).map (·.2)).sum

/-- An association list with one entry for `d` adds up to that entry and the others. -/
theorem sum_split {d : UInt16} {own : Int} {l : List (UInt16 × Int)}
    (hdistinct : l.Pairwise fun a b => a.1 ≠ b.1) (hown : (d, own) ∈ l) :
    (l.map (·.2)).sum = own + ((l.filter (·.1 != d)).map (·.2)).sum := by
  induction l with
  | nil => cases hown
  | cons e l ih =>
      obtain ⟨hne, hdistinct⟩ := List.pairwise_cons.mp hdistinct
      rcases List.mem_cons.mp hown with rfl | hmem
      · have hall : l.filter (·.1 != d) = l := List.filter_eq_self.mpr fun e' he' => by
          simpa using (hne e' he').symm
        simp [hall]
      · have hed : e.1 ≠ d := hne _ hmem
        simp only [List.map_cons, List.sum_cons, List.filter_cons, bne_iff_ne, ne_eq, hed,
          not_false_eq_true, if_true, ih hdistinct hmem]
        omega

theorem foldl_toU32 (l : List (UInt16 × Int)) {n : Nat} (hn : n < 2 ^ 32) :
    l.foldl (fun (peerRate : Nat) e => toU32 (peerRate + e.2)) n =
      toU32 (n + (l.map (·.2)).sum) := by
  induction l generalizing n with
  | nil => simp [toU32_of_range (Int.natCast_nonneg n) (by omega)]
  | cons e l ih =>
      rw [List.foldl_cons, ih (toU32_lt _), toU32_add, List.map_cons, List.sum_cons, Int.add_assoc]

theorem fairShare_eq {s : DropBitrateDequeueQueue} {d : UInt16} {own : Int}
    (hown : s.enqueueRate[d]? = some own) :
    s.fairShare d = share s.bandwidth (toU32 own) (s.peerRate d) := by
  have hdistinct : s.enqueueRate.toList.Pairwise fun a b => a.1 ≠ b.1 :=
    TreeMap.distinct_keys_toList.imp fun hne heq => hne (by simp [heq])
  have htotal := sum_split hdistinct (TreeMap.mem_toList_iff_getElem?_eq_some.mpr hown)
  have hgetD : s.enqueueRate.getD d 0 = own := by
    rw [TreeMap.getD_eq_getD_getElem?, hown, Option.getD_some]
  have hpeer : toU32 (toU32 ((s.enqueueRate.toList.map (·.2)).sum) - toU32 own) = s.peerRate d := by
    rw [peerRate, toU32_sub, htotal, add_sub_cancel_left]
  unfold fairShare share
  simp only [TreeMap.foldl_eq_foldl_toList, foldl_toU32 _ (show 0 < 2 ^ 32 by decide), hgetD,
    Int.natCast_zero, Int.zero_add, hpeer]

theorem share_bounds {bandwidth own peer : Nat} (hbandwidth : bandwidth < 2 ^ 32) :
    min own (bandwidth / 2) ≤ share bandwidth own peer ∧
      if own < bandwidth / 2 ∧ bandwidth / 2 < peer then share bandwidth own peer = own + 500
      else share bandwidth own peer ≤ bandwidth := by
  by_cases hslack : own < bandwidth / 2 ∧ bandwidth / 2 < peer
  · have hshare : share bandwidth own peer = own + 500 := by
      rw [share, if_neg (by omega), if_neg (by omega), if_neg (by omega), if_neg (by omega),
        if_pos (by omega), toU32_of_range (by omega) (by omega)]
      rfl
    rw [if_pos hslack, hshare]
    omega
  · rw [if_neg hslack]
    unfold share
    split_ifs <;> omega

/-- **The fair share lies between the smaller of the own rate and half the bandwidth, and the
bandwidth**, except that 500 is added to an own rate below the half when the peers are above it. -/
theorem fairShare_bounds {s : DropBitrateDequeueQueue} {d : UInt16} {own : Int}
    (hbandwidth : s.bandwidth < 2 ^ 32)
    (hrates : ∀ (d' : UInt16) (rate : Int), s.enqueueRate[d']? = some rate → 0 ≤ rate ∧ rate < 2 ^ 31)
    (hown : s.enqueueRate[d]? = some own) :
    min own.toNat (s.bandwidth / 2) ≤ s.fairShare d ∧
      if own.toNat < s.bandwidth / 2 ∧ s.bandwidth / 2 < s.peerRate d
      then s.fairShare d = own.toNat + 500
      else s.fairShare d ≤ s.bandwidth := by
  obtain ⟨hnonneg, hlt⟩ := hrates d own hown
  rw [fairShare_eq hown, toU32_of_range hnonneg (by omega)]
  exact share_bounds hbandwidth

/-- Bandwidth 100, 10 for the port and 60 for another. -/
def twoPorts : DropBitrateDequeueQueue :=
  { ofArgs 100 0 false 100 with enqueueRate := ((∅ : TreeMap UInt16 Int).insert 1 10).insert 2 60 }

theorem twoPorts_rates {d : UInt16} {rate : Int} (h : twoPorts.enqueueRate[d]? = some rate) :
    0 ≤ rate ∧ rate < 2 ^ 31 := by
  simp only [twoPorts, TreeMap.getElem?_insert] at h
  split_ifs at h
  · cases h; decide
  · cases h; decide
  · simp at h

theorem fairShare_bounds_twoPorts : min (60 : Int).toNat (100 / 2) ≤ twoPorts.fairShare 2 ∧
    if (60 : Int).toNat < 100 / 2 ∧ 100 / 2 < twoPorts.peerRate 2
    then twoPorts.fairShare 2 = (60 : Int).toNat + 500 else twoPorts.fairShare 2 ≤ 100 :=
  fairShare_bounds (s := twoPorts) (d := 2) (by decide) (fun _ _ => twoPorts_rates) (by decide)

/-- With bandwidth 100 the slack takes the share of the port at 10 to 510. -/
theorem fairShare_above : ¬ ∀ (s : DropBitrateDequeueQueue) (d : UInt16) (own : Int),
    s.bandwidth < 2 ^ 32 →
    (∀ (d' : UInt16) (rate : Int), s.enqueueRate[d']? = some rate → 0 ≤ rate ∧ rate < 2 ^ 31) →
    s.enqueueRate[d]? = some own →
    min own.toNat (s.bandwidth / 2) ≤ s.fairShare d ∧ s.fairShare d ≤ s.bandwidth := by
  intro hall
  have hle := (hall twoPorts 1 10 (by decide) (fun _ _ => twoPorts_rates) (by decide)).2
  exact absurd hle (by decide)

end DropBitrateDequeueQueue

end Mahimahi
