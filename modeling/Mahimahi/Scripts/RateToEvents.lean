import Mathlib.Algebra.Order.BigOperators.Group.List
import Mathlib.Algebra.Order.Ring.Abs
import Mathlib.Algebra.Order.Ring.Rat
import Mathlib.Data.Rat.Cast.Order
import Mahimahi.Library.Reserve
import Mahimahi.Link.Runs
import Mahimahi.Link.Trace

/-!
# Scripts — `mm-rate-to-events`

The script turns the rate of a link, sampled every millisecond, into the trace that `mm-link`
replays: what the rate amounts to is kept in a reserve, and whenever the reserve holds a packet, the
time is printed.

* `Converted.printed_iff`: line `m` of the output is the first millisecond by whose end the rates
  have come to `m + 1` packets.
* `converted_replayed`: a link that loads the output has by `now`, in one pass, an opportunity for
  each packet that the rates have come to; replaying it repeats them.

Perl's numbers are doubles.  The number that it takes a line for is a parameter, `value`, and so is
`round`, what becomes of the exact result of an operation; results that are infinite are left out.
With doubles the inner loop need not end (a large reserve does not get smaller), so it has fuel.
Whole numbers of bits up to 2⁵³ are exact, and for these the results are proved.
-/

open Fallible Reserve

namespace Mahimahi

open Ezio

namespace RateToEvents

inductive RateError where
  /-- `Not a number` -/
  | notANumber (line : Bytes)
  /-- The loop has not ended within its fuel. -/
  | unfinished
  deriving DecidableEq, Repr

structure RateState where
  time : Nat := 0
  reserveBits : ℚ := 0
  printed : List Nat := []
  deriving DecidableEq

/-- `$PACKET_LENGTH`, in bits -/
def PACKET_LENGTH : ℚ := 12000

/-- The inner `while`. -/
def deliver (round : ℚ → ℚ) : Nat → RateState → Except RateError RateState
  | 0, _ => .error .unfinished
  | fuel + 1, s =>
      if PACKET_LENGTH ≤ s.reserveBits then
        deliver round fuel { s with
          printed := s.printed ++ [s.time]
          reserveBits := round (s.reserveBits - PACKET_LENGTH) }
      else .ok s

/-- An iteration of the outer `while`. -/
def readLine (value : Bytes → Option ℚ) (round : ℚ → ℚ) (fuel : Nat) (line : Bytes)
    (s : RateState) : Except RateError RateState :=
  match value line with
  | none => .error (.notANumber line)
  | some kilobits => do
      let reserveBits := round (s.reserveBits + round (1000 * kilobits))
      let s ← deliver round fuel { s with reserveBits }
      return { s with time := s.time + 1 }

def convert (value : Bytes → Option ℚ) (round : ℚ → ℚ) (fuel : Nat) (lines : List Bytes) :
    Except RateError RateState :=
  run (readLine value round fuel) lines {}

/-- A number, as it is printed. -/
def text (n : Nat) : Bytes := (Nat.toDigits 10 n).map fun c => c.toNat.toUInt8

/-- The lines of the output. -/
def RateState.output (s : RateState) : List Bytes := s.printed.map text

/-! ### Numbers that are printed -/

theorem digit_byte {c : Char} (h : c.isDigit = true) :
    isDigit 10 c.toNat.toUInt8 = true ∧ digitValue c.toNat.toUInt8 = c.toNat - '0'.toNat := by
  have hc : 48 ≤ c.toNat ∧ c.toNat ≤ 57 := by
    rw [Char.isDigit, Bool.and_eq_true, decide_eq_true_iff, decide_eq_true_iff] at h
    exact ⟨UInt32.le_iff_toNat_le.mp h.1, UInt32.le_iff_toNat_le.mp h.2⟩
  have hbyte : c.toNat.toUInt8.toNat = c.toNat :=
    Nat.mod_eq_of_lt (show c.toNat < 2 ^ 8 by omega)
  have hdigit : 48 ≤ c.toNat.toUInt8 ∧ c.toNat.toUInt8 ≤ 57 := by
    rw [UInt8.le_iff_toNat_le, UInt8.le_iff_toNat_le, hbyte]
    exact hc
  refine ⟨isDigit_ten.mpr (hbyte.symm ▸ hc), ?_⟩
  rw [digitValue, if_pos hdigit, hbyte]
  rfl

theorem ofDigits_text (n : Nat) : ofDigits 10 (text n) = n := by
  have hmap : ∀ {digits : List Char} {acc : Nat}, (∀ c ∈ digits, c.isDigit = true) →
      (digits.map fun c => c.toNat.toUInt8).foldl (fun n b => 10 * n + digitValue b) acc =
        Nat.ofDigitChars 10 digits acc := by
    intro digits acc h
    induction digits generalizing acc with
    | nil => rfl
    | cons c digits ih =>
        rw [List.map_cons, List.foldl_cons, Nat.ofDigitChars_cons,
          (digit_byte (h c List.mem_cons_self)).2]
        exact ih fun d hd => h d (List.mem_cons_of_mem _ hd)
  calc ofDigits 10 (text n) = Nat.ofDigitChars 10 (Nat.toDigits 10 n) 0 :=
        hmap fun c hc => Nat.isDigit_of_mem_toDigits (by decide) (by decide) hc
    _ = n := Nat.ofDigitChars_ten_toDigits

theorem isInteger_text (n : Nat) : IsInteger (text n) n := by
  refine ⟨⟨[], false, false, text n, fun b hb => absurd hb List.not_mem_nil, ?_, ?_⟩, rfl, ?_⟩
  · intro b hb
    obtain ⟨c, hc, rfl⟩ := List.mem_map.mp hb
    exact (digit_byte (Nat.isDigit_of_mem_toDigits (by decide) (by decide) hc)).1
  · exact fun hnil => Nat.toDigits_ne_nil (List.map_eq_nil_iff.mp hnil)
  · exact congrArg Int.ofNat (ofDigits_text n)

/-! ### The reserve -/

theorem PACKET_LENGTH_pos : 0 < PACKET_LENGTH := by decide +kernel

/-- The bits of each millisecond. -/
def bits (rates : List ℚ) : List ℚ := rates.map (1000 * ·)

/-- What doubles can hold exactly. -/
def Exact (round : ℚ → ℚ) : Prop := ∀ k : ℤ, |k| ≤ 2 ^ 53 → round k = k

variable {round : ℚ → ℚ}

/-- The inner loop pays the packets that the reserve holds, and the reserve gets no larger. -/
theorem deliver_run (hround : Exact round) {k : ℤ} (hk : |k| ≤ 2 ^ 53) (s : RateState)
    (hs : s.reserveBits = k) : ∃ n k', Pays PACKET_LENGTH s.reserveBits n ∧
      s.reserveBits - n * PACKET_LENGTH = (k' : ℤ) ∧ |k'| ≤ |k| ∧
      ∀ fuel, n < fuel → deliver round fuel s = .ok { s with
        printed := s.printed ++ List.replicate n s.time
        reserveBits := s.reserveBits - n * PACKET_LENGTH } := by
  induction hn : k.toNat using Nat.strongRecOn generalizing k s with
  | ind n ih =>
      subst hn
      by_cases hle : PACKET_LENGTH ≤ s.reserveBits
      · have hlarge : 12000 ≤ k := by
          rw [hs, PACKET_LENGTH] at hle
          exact_mod_cast hle
        rw [abs_of_nonneg (by omega)] at hk
        have hnext : s.reserveBits - PACKET_LENGTH = (k - 12000 : ℤ) := by
          rw [hs, PACKET_LENGTH]
          push_cast
          ring
        have habs : |k - 12000| ≤ 2 ^ 53 := by
          rw [abs_of_nonneg (by omega)]
          omega
        obtain ⟨n, k', hpays, hleft, hsmaller, hrun⟩ := ih _ (by omega) habs { s with
          printed := s.printed ++ [s.time], reserveBits := s.reserveBits - PACKET_LENGTH } hnext rfl
        have hreserve : s.reserveBits - PACKET_LENGTH - n * PACKET_LENGTH =
            s.reserveBits - (n + 1 : Nat) * PACKET_LENGTH := by
          rw [Nat.cast_succ]
          ring
        refine ⟨n + 1, k', hpays.succ hle, hreserve.symm.trans hleft,
          hsmaller.trans (abs_le_abs_of_nonneg (by omega) (by omega)), fun fuel hfuel => ?_⟩
        · obtain ⟨fuel, rfl⟩ : ∃ m, fuel = m + 1 := ⟨fuel - 1, by omega⟩
          rw [deliver, if_pos hle, show round (s.reserveBits - PACKET_LENGTH) =
            s.reserveBits - PACKET_LENGTH by rw [hnext, hround _ habs], hrun fuel (by omega)]
          dsimp only
          rw [hreserve, List.append_assoc, List.singleton_append, ← List.replicate_succ]
      · refine ⟨0, k, .zero (not_le.mp hle), by simp [hs], le_rfl, fun fuel hfuel => ?_⟩
        obtain ⟨fuel, rfl⟩ : ∃ m, fuel = m + 1 := ⟨fuel - 1, by omega⟩
        rw [deliver, if_neg hle]
        simp

/-- What has been read and what was printed. -/
structure Converted (rates : List ℚ) (s : RateState) : Prop where
  time : s.time = rates.length
  paid : Paid PACKET_LENGTH (bits rates) s.reserveBits s.printed

theorem converted_nil : Converted [] {} := ⟨rfl, paid_nil⟩

variable {value : Bytes → Option ℚ} {lines : List Bytes} {rates : List ℚ}

/-- Every rate is a whole number of bits, and together they are no more than a double holds exactly. -/
def Whole (rates : List ℚ) : Prop :=
  (∀ b ∈ bits rates, ∃ k : ℤ, b = k) ∧ ((bits rates).map (|·|)).sum ≤ 2 ^ 53

/-- The reserve is a whole number of bits, no more than have been read. -/
def Kept (rates : List ℚ) (s : RateState) : Prop :=
  ∃ k : ℤ, s.reserveBits = k ∧ (|k| : ℤ) ≤ ((bits rates).map (|·|)).sum

theorem Converted.readLine {line : Bytes} {rate : ℚ} {s : RateState} (hround : Exact round)
    (h : Converted rates s) (hkept : Kept rates s) (hwhole : Whole (rates ++ [rate]))
    (hrate : value line = some rate) :
    ∃ s' fuel₀, (∀ fuel, fuel₀ ≤ fuel → readLine value round fuel line s = .ok s') ∧
      Converted (rates ++ [rate]) s' ∧ Kept (rates ++ [rate]) s' := by
  obtain ⟨k, hk, hksmall⟩ := hkept
  obtain ⟨hints, hsum⟩ := hwhole
  have hbits : bits (rates ++ [rate]) = bits rates ++ [1000 * rate] := List.map_append
  rw [hbits] at hints hsum
  rw [List.map_append, List.sum_append, List.map_singleton, List.sum_singleton] at hsum
  obtain ⟨b, hb⟩ := hints (1000 * rate) (List.mem_append_right _ List.mem_cons_self)
  have hbabs : (|1000 * rate| : ℚ) = (|b| : ℤ) := by rw [hb, Int.cast_abs]
  have htotal : |k| + |b| ≤ 2 ^ 53 := by
    rw [hbabs] at hsum
    exact_mod_cast (add_le_add_left hksmall _).trans hsum
  have hadd : |k + b| ≤ |k| + |b| := abs_add_le k b
  have hreserve : round (s.reserveBits + round (1000 * rate)) = (k + b : ℤ) := by
    rw [hb, hround b (by have := abs_nonneg k; omega), hk, ← Int.cast_add, hround _ (by omega)]
  obtain ⟨n, k', hpays, hleft, hle, hrun⟩ := deliver_run hround (hadd.trans htotal)
    { s with reserveBits := s.reserveBits + 1000 * rate } (by rw [hk, hb, ← Int.cast_add])
  refine ⟨{
    time := s.time + 1
    printed := s.printed ++ List.replicate n s.time
    reserveBits := s.reserveBits + 1000 * rate - n * PACKET_LENGTH }, n + 1,
    fun fuel hfuel => ?_, ⟨?_, ?_⟩, k', hleft, ?_⟩
  · rw [RateToEvents.readLine, hrate]
    dsimp only
    rw [show round (s.reserveBits + round (1000 * rate)) = s.reserveBits + 1000 * rate by
      rw [hreserve, hk, hb, Int.cast_add], hrun fuel hfuel]
    rfl
  · rw [List.length_append, List.length_singleton, h.time]
  · have hadd := h.paid.add PACKET_LENGTH_pos.le hpays
    rw [bits, List.length_map, ← h.time] at hadd
    rwa [bits, List.map_append]
  · rw [hbits, List.map_append, List.sum_append, List.map_singleton, List.sum_singleton, hbabs]
    have hle' : (|k'| : ℚ) ≤ |k| + |b| := by exact_mod_cast hle.trans hadd
    push_cast at hksmall hle' ⊢
    linarith

theorem whole_append {rates' : List ℚ} (h : Whole (rates ++ rates')) : Whole rates := by
  obtain ⟨hints, hsum⟩ := h
  rw [bits, List.map_append] at hints hsum
  refine ⟨fun b hb => hints b (List.mem_append_left _ hb), le_trans ?_ hsum⟩
  rw [List.map_append, List.sum_append]
  refine le_add_of_nonneg_right (List.sum_nonneg fun x hx => ?_)
  obtain ⟨y, -, rfl⟩ := List.mem_map.mp hx
  exact abs_nonneg y

/-- Lines with numbers are converted. -/
theorem convert_converted (hround : Exact round) (hwhole : Whole rates)
    (h : List.Forall₂ (fun line rate => value line = some rate) lines rates) :
    ∃ s fuel₀, (∀ fuel, fuel₀ ≤ fuel → convert value round fuel lines = .ok s) ∧
      Converted rates s := by
  have hrun : ∀ {before : List ℚ} {s : RateState}, Whole (before ++ rates) →
      Converted before s → Kept before s →
      ∃ s' fuel₀, (∀ fuel, fuel₀ ≤ fuel → run (readLine value round fuel) lines s = .ok s') ∧
        Converted (before ++ rates) s' := by
    clear hwhole
    induction h with
    | nil => exact fun _ hs _ => ⟨_, 0, fun _ _ => rfl, by rwa [List.append_nil]⟩
    | cons hrate _ ih =>
        intro before s hwhole hs hkept
        rw [List.append_cons] at hwhole ⊢
        obtain ⟨t, fuel₁, ht, hconv, hkept'⟩ :=
          hs.readLine hround hkept (whole_append hwhole) hrate
        obtain ⟨s', fuel₂, hs', hconv'⟩ := ih hwhole hconv hkept'
        refine ⟨s', max fuel₁ fuel₂, fun fuel hfuel => ?_, hconv'⟩
        rw [run_cons, ht fuel ((le_max_left _ _).trans hfuel), ok_bind,
          hs' fuel ((le_max_right _ _).trans hfuel)]
  exact @hrun [] {} hwhole converted_nil ⟨0, rfl, by simp [bits]⟩

/-! ### The trace -/

section Output

variable {s : RateState} {m t : Nat}

/-- **Line `m` of the output.** -/
theorem Converted.printed_iff (h : Converted rates s) :
    s.printed[m]? = some t ↔ IsLeast (reached PACKET_LENGTH (bits rates) m) t := h.paid.times m t

theorem Converted.lt (h : Converted rates s) (ht : t ∈ s.printed) : t < rates.length := by
  obtain ⟨m, hm⟩ := List.mem_iff_getElem?.mp ht
  have hlt := (h.printed_iff.mp hm).1.1
  rwa [bits, List.length_map] at hlt

theorem Converted.size_lt (h : Converted rates s) {n : Nat} (hn : 0 < n)
    (hsmall : ∀ t, ((bits rates).take t).sum < n * PACKET_LENGTH) : s.printed.length < n := by
  by_contra hge
  have hlt : n - 1 < s.printed.length := by omega
  have hreached := (h.printed_iff.mp (List.getElem?_eq_getElem hlt)).1.2
  rw [Nat.sub_add_cancel hn] at hreached
  exact absurd (hsmall _) (not_lt.mpr hreached)

/-- The output is a trace, if not all of it stands in the first millisecond. -/
theorem Converted.valid (h : Converted rates s) (hlong : rates.length ≤ 2 ^ 63)
    (hlate : ∃ m, (reached PACKET_LENGTH (bits rates) m).Nonempty ∧
      0 ∉ reached PACKET_LENGTH (bits rates) m) : Trace.Valid s.output s.printed := by
  obtain ⟨m, hsome, hzero⟩ := hlate
  obtain ⟨t, ht⟩ : ∃ t, s.printed[m]? = some t := by
    rw [← Option.ne_none_iff_exists', Ne, h.paid.none_iff]
    exact hsome.ne_empty
  have hsorted := h.paid.sorted PACKET_LENGTH_pos.le
  have htpos : 0 < t := by
    refine Nat.pos_of_ne_zero ?_
    rintro rfl
    exact hzero (h.printed_iff.mp ht).1
  refine ⟨?_, ?_, hsorted, fun back hback => ?_⟩
  · rw [RateState.output, Ne, List.map_eq_nil_iff]
    exact List.ne_nil_of_mem (List.mem_of_getElem? ht)
  · rw [Trace.Reads, RateState.output, List.forall₂_map_left_iff, List.forall₂_map_right_iff,
      List.forall₂_same]
    intro u hu
    have hlt : (u : Int) < 2 ^ 63 := by
      have := h.lt hu
      omega
    exact ⟨isInteger_text u, le_trans (by decide) (Int.natCast_nonneg u), hlt⟩
  · obtain ⟨init, hinit⟩ := List.getLast?_eq_some_iff.mp hback
    have hmem := List.mem_of_getElem? ht
    rw [hinit] at hmem hsorted
    rcases List.mem_append.mp hmem with hmem | hmem
    · have := (List.pairwise_append.mp hsorted).2.2 t hmem back List.mem_cons_self
      omega
    · rwa [← List.mem_singleton.mp hmem]

end Output

/-- **From the rates to the link.**  Of rates that are whole numbers of bits the script's output is
loaded, and by `now` the link has in one pass the opportunities for the packets that the rates have
come to. -/
theorem converted_replayed (hround : Exact round) (hwhole : Whole rates)
    (hread : List.Forall₂ (fun line rate => value line = some rate) lines rates)
    (hlong : lines.length ≤ 2 ^ 31)
    (hsmall : ∀ t, ((bits rates).take t).sum < (2 ^ 31 : Nat) * PACKET_LENGTH)
    (hlate : ∃ m, (reached PACKET_LENGTH (bits rates) m).Nonempty ∧
      0 ∉ reached PACKET_LENGTH (bits rates) m) :
    ∃ s fuel₀ loaded, ∃ sched : Schedule,
      (∀ fuel, fuel₀ ≤ fuel → convert value round fuel lines = .ok s ∧
        Trace.load fuel s.output = .ok loaded) ∧
      sched.times = loaded.schedule ∧
      (∀ now m, m < LinkQueue.due sched false now ↔
        ∃ t ∈ reached PACKET_LENGTH (bits rates) m, t ≤ now) ∧
      ∀ now, LinkQueue.due sched true now =
        now / sched.back * sched.size + LinkQueue.due sched false (now % sched.back) := by
  obtain ⟨s, fuel₁, hs, hconv⟩ := convert_converted hround hwhole hread
  rw [hread.length_eq] at hlong
  have hvalid := hconv.valid (by omega) hlate
  have hsize := hconv.size_lt (Nat.two_pow_pos 31) hsmall
  have hrates := Trace.BitratesOk.of_small hvalid.sorted hsize fun back hback =>
    Nat.lt_of_lt_of_le (hconv.lt (List.mem_of_getLast? hback)) hlong
  obtain ⟨loaded, fuel₂, hload, hschedule⟩ := hvalid.loads hrates
  obtain ⟨sched, htimes⟩ := Trace.load_schedule (hload fuel₂ le_rfl)
  refine ⟨s, max fuel₁ fuel₂, loaded, sched, fun fuel hfuel =>
    ⟨hs fuel ((le_max_left _ _).trans hfuel), hload fuel ((le_max_right _ _).trans hfuel)⟩,
    htimes, fun now m => ?_, fun now => Schedule.upto_true now⟩
  rw [LinkQueue.due, Schedule.lt_upto_false, htimes, hschedule]
  constructor
  · rintro ⟨t, ht, hle⟩
    exact ⟨t, (hconv.printed_iff.mp ht).1, hle⟩
  · rintro ⟨u, hu, hle⟩
    obtain ⟨t, ht⟩ : ∃ t, s.printed[m]? = some t := by
      rw [← Option.ne_none_iff_exists', Ne, hconv.paid.none_iff]
      exact Set.Nonempty.ne_empty ⟨u, hu⟩
    exact ⟨t, ht, le_trans ((hconv.printed_iff.mp ht).2 hu) hle⟩

/-- Whole numbers of kilobits. -/
def whole (line : Bytes) : Option ℚ := (myatoi 10 line).toOption.map fun v => (v : ℚ)

def threeRates : List Bytes := ["24".toUTF8.toList, "0".toUTF8.toList, "18".toUTF8.toList]

example : (convert whole id 3 threeRates).map (·.printed) = .ok [0, 0, 2] := by decide +kernel

theorem converted_replayed_threeRates :
    ∃ s fuel₀ loaded, ∃ sched : Schedule,
      (∀ fuel, fuel₀ ≤ fuel → convert whole id fuel threeRates = .ok s ∧
        Trace.load fuel s.output = .ok loaded) ∧
      sched.times = loaded.schedule ∧
      (∀ now m, m < LinkQueue.due sched false now ↔
        ∃ t ∈ reached PACKET_LENGTH (bits [24, 0, 18]) m, t ≤ now) ∧
      ∀ now, LinkQueue.due sched true now =
        now / sched.back * sched.size + LinkQueue.due sched false (now % sched.back) := by
  refine @converted_replayed id whole threeRates [24, 0, 18] (fun _ _ => rfl) ⟨?_, ?_⟩ ?_ (by decide)
    ?_ ?_
  · intro b hb
    have hint : ∀ b ∈ bits [24, 0, 18], b = (b.num : ℚ) := by decide +kernel
    exact ⟨b.num, hint b hb⟩
  · decide +kernel
  · have h₁ : whole "24".toUTF8.toList = some 24 := by decide +kernel
    have h₂ : whole "0".toUTF8.toList = some 0 := by decide +kernel
    have h₃ : whole "18".toUTF8.toList = some 18 := by decide +kernel
    exact .cons h₁ (.cons h₂ (.cons h₃ .nil))
  · intro t
    have hall : ∀ k ≤ 3, ((bits [24, 0, 18]).take k).sum < (2 ^ 31 : Nat) * PACKET_LENGTH := by
      decide +kernel
    rcases Nat.le_total t 3 with hle | hge
    · exact hall t hle
    · rw [List.take_of_length_le hge]
      exact hall 3 (Nat.le_refl 3)
  · have hlate : 2 < 3 ∧ (2 + 1 : Nat) * PACKET_LENGTH ≤ ((bits [24, 0, 18]).take 3).sum := by
      decide +kernel
    have hearly : ¬ (2 + 1 : Nat) * PACKET_LENGTH ≤ ((bits [24, 0, 18]).take 1).sum := by
      decide +kernel
    exact ⟨2, ⟨2, hlate⟩, fun h => hearly h.2⟩

end RateToEvents

end Mahimahi
