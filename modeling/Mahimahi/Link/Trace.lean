import Mahimahi.Library.Integers
import Mahimahi.Library.Runs
import Mahimahi.Link.Schedule
import Mahimahi.Util.Ezio

/-!
# Link — loading a trace

`load` is what `LinkQueue`'s constructor does with the lines of a trace file.  Its checks of the
trace stand after the computation of the bitrates, which indexes, divides and loops.  Opening the
file is left out.

* `trace_loads_iff`: loading throws or completes, and completes for the valid traces, exactly when a
  line is refused or the trace is valid and every window of the bitrate computation is found and has
  a length that is not 0 in 32 bits.
* `BitratesOk.of_small`: they are where a trace has less than 2³¹ lines and lasts less than 2³¹ ms.
-/

open Fallible MachineInt

namespace Mahimahi

open Ezio

namespace Trace

/-! ### The constructor -/

/-- How loading a trace ends without a schedule: the first five are `runtime_error`s. -/
inductive TraceError where
  /-- `invalid empty line` -/
  | emptyLine
  /-- thrown by `myatoi` -/
  | invalid (e : IntegerError)
  /-- `timestamps must be monotonically nondecreasing` -/
  | decreasing
  /-- `no valid timestamps found` -/
  | noTimestamps
  /-- `trace must last for a nonzero amount of time` -/
  | zeroDuration
  /-- `back()` of an empty vector -/
  | backOfEmpty
  | divideByZero
  /-- an index that is not in `schedule_` -/
  | outOfRange
  /-- `assert( bitrate_.size() == schedule_.size() )` -/
  | bitrateSize
  /-- the fuel was not enough -/
  | running
  deriving DecidableEq, Repr

def TraceError.isThrow : TraceError → Bool
  | .emptyLine | .invalid _ | .decreasing | .noTimestamps | .zeroDuration => true
  | _ => false

structure Loaded where
  schedule : List Nat
  bitrate : List Nat
  deriving DecidableEq, Repr

/-- `myatoi( line )`, converted to `uint64_t`. -/
def readMs (line : Bytes) : Except TraceError Nat :=
  match myatoi 10 line with
  | .ok ms => .ok (toU64 ms)
  | .error e => .error (.invalid e)

/-- Lines 46–60. -/
def readLine (line : Bytes) (schedule : List Nat) : Except TraceError (List Nat) :=
  if line.isEmpty then .error .emptyLine
  else do
    let ms ← readMs line
    match schedule.getLast? with
    | some back => if ms < back then .error .decreasing else return schedule ++ [ms]
    | none => return schedule ++ [ms]

def PACKET_SIZE : Nat := 1504

/-- `schedule_[i]` -/
def entryAt (schedule : List Nat) (i : Int) : Except TraceError Nat :=
  if i < 0 then .error .outOfRange
  else match schedule[i.toNat]? with
    | some ms => .ok ms
    | none => .error .outOfRange

/-- Lines 100–106: the search for the start of the window of 50 ms that ends at `i`. -/
def findLeft (schedule : List Nat) (cycle i : Int) :
    Nat → Int → Int → Except TraceError Int
  | 0, _, _ => .error .running
  | fuel + 1, left, offset => do
      let atLeft ← entryAt schedule left
      let atI ← entryAt schedule i
      if toU64 (atI - 50) < toU64 (atLeft + offset) then
        if left - 1 < 0 then
          findLeft schedule cycle i fuel (toI32 (left - 1 + schedule.length)) (-cycle)
        else findLeft schedule cycle i fuel (left - 1) offset
      else return left

/-- Lines 107–109. -/
def bitrateFrom (schedule : List Nat) (cycle i left : Int) : Except TraceError Nat := do
  let atLeft ← entryAt schedule left
  let atI ← entryAt schedule i
  let numPkts := if 0 < i - left then i - left else toI32 (i - left + schedule.length)
  let interval := if 0 < i - left then toI32 (atI - atLeft) else toI32 (atI - atLeft + cycle)
  if toU32 interval = 0 then throw .divideByZero
  else return toU32 (PACKET_SIZE * numPkts * 8) / toU32 interval

/-- Lines 96–109. -/
def bitrateAt (fuel : Nat) (schedule : List Nat) (back i : Nat) : Except TraceError Nat := do
  let cycle := toI32 back
  let left ← findLeft schedule cycle i fuel i 0
  bitrateFrom schedule cycle i left

/-- Line 90. -/
def bitrateOfShort (schedule : List Nat) (back : Nat) : Except TraceError Nat :=
  if back = 0 then .error .divideByZero
  else .ok (toU32 (toU64 (PACKET_SIZE * schedule.length * 8) / back : Nat))

/-- Lines 86–125.  The loops count an `int` up to `(int)schedule_.size()`. -/
def computeBitrate (fuel : Nat) (schedule : List Nat) : Except TraceError (List Nat) :=
  match schedule.getLast? with
  | none => .error .backOfEmpty
  | some back =>
      (List.range (toI32 schedule.length).toNat).mapM fun i =>
        if toI32 back < 100 then bitrateOfShort schedule back
        else bitrateAt fuel schedule back i

/-- Lines 44–134. -/
def load (fuel : Nat) (lines : List Bytes) : Except TraceError Loaded := do
  let schedule ← run readLine lines []
  let bitrate ← computeBitrate fuel schedule
  if bitrate.length ≠ schedule.length then throw .bitrateSize
  else if schedule = [] then throw .noTimestamps
  else if schedule.getLast? = some 0 then throw .zeroDuration
  else return { schedule, bitrate }

/-! ### What is asked of a trace -/

/-- Every line holds an integer that fits a `long`. -/
def Reads (lines : List Bytes) (values : List Int) : Prop :=
  List.Forall₂ (fun line v => IsInteger line v ∧ -2 ^ 63 ≤ v ∧ v < 2 ^ 63) lines values

/-- A trace as it should be: values that are not negative, in order, the last one positive. -/
structure Valid (lines : List Bytes) (schedule : List Nat) : Prop where
  nonempty : lines ≠ []
  reads : Reads lines (schedule.map Int.ofNat)
  sorted : schedule.Pairwise (· ≤ ·)
  last_pos : ∀ back, schedule.getLast? = some back → 0 < back

/-- Loading throws, or completes, and completes for the valid traces with their values. -/
def Meets (lines : List Bytes) : Prop :=
  ∃ r, (∃ fuel₀, ∀ fuel, fuel₀ ≤ fuel → load fuel lines = r) ∧ match r with
    | .ok t => Valid lines t.schedule ∧ t.bitrate.length = t.schedule.length
    | .error e => e.isThrow = true ∧ ¬ ∃ schedule, Valid lines schedule

/-! ### Reading the lines -/

/-- The reading takes these lines: as `uint64_t`s, their values are in order. -/
def Accepted (lines : List Bytes) : Prop :=
  ∃ values, Reads lines values ∧ (values.map toU64).Pairwise (· ≤ ·)

theorem pairwise_snoc {schedule : List Nat} {ms : Nat} (h : schedule.Pairwise (· ≤ ·)) :
    (schedule ++ [ms]).Pairwise (· ≤ ·) ↔ ∀ back, schedule.getLast? = some back → back ≤ ms := by
  rw [List.pairwise_append]
  constructor
  · rintro ⟨-, -, hle⟩ back hback
    exact hle back (List.mem_of_getLast? hback) ms List.mem_cons_self
  · intro hback
    refine ⟨h, List.pairwise_singleton _ _, fun a ha b hb => ?_⟩
    rw [List.mem_singleton.mp hb]
    obtain ⟨back, hlast⟩ := Option.isSome_iff_exists.mp
      (List.getLast?_isSome.mpr (List.ne_nil_of_mem ha))
    obtain ⟨init, rfl⟩ := List.getLast?_eq_some_iff.mp hlast
    refine Nat.le_trans ?_ (hback back hlast)
    rcases List.mem_append.mp ha with ha | ha
    · exact (List.pairwise_append.mp h).2.2 a ha back List.mem_cons_self
    · exact (List.mem_singleton.mp ha).le

theorem readMs_ok_iff {line : Bytes} {ms : Nat} : readMs line = .ok ms ↔
    ∃ v, (IsInteger line v ∧ -2 ^ 63 ≤ v ∧ v < 2 ^ 63) ∧ ms = toU64 v := by
  unfold readMs
  constructor
  · intro h
    split at h
    next v hv => cases h; exact ⟨v, myatoi_ok_iff.mp hv, rfl⟩
    · cases h
  · rintro ⟨v, hv, rfl⟩
    rw [myatoi_ok_iff.mpr hv]

theorem readLine_ok_iff {line : Bytes} {schedule schedule' : List Nat}
    (h : schedule.Pairwise (· ≤ ·)) : readLine line schedule = .ok schedule' ↔
      ∃ v, (IsInteger line v ∧ -2 ^ 63 ≤ v ∧ v < 2 ^ 63) ∧ schedule' = schedule ++ [toU64 v] ∧
        schedule'.Pairwise (· ≤ ·) := by
  have happend : ∀ ms, (match schedule.getLast? with
      | some back => if ms < back then .error .decreasing else return schedule ++ [ms]
      | none => return schedule ++ [ms] : Except TraceError (List Nat)) = .ok schedule' ↔
      schedule' = schedule ++ [ms] ∧ schedule'.Pairwise (· ≤ ·) := by
    intro ms
    constructor
    · intro happ
      split at happ
      next back hback =>
        split at happ
        · cases happ
        next hle =>
          cases happ
          refine ⟨rfl, (pairwise_snoc h).mpr fun back' hback' => ?_⟩
          cases hback.symm.trans hback'
          exact Nat.not_lt.mp hle
      next hback =>
        cases happ
        exact ⟨rfl, (pairwise_snoc h).mpr fun back' hback' => nomatch hback.symm.trans hback'⟩
    · rintro ⟨rfl, hsorted⟩
      have hle := (pairwise_snoc h).mp hsorted
      split
      next back hback => rw [if_neg (Nat.not_lt.mpr (hle back hback))]; rfl
      · rfl
  unfold readLine
  constructor
  · intro hread
    split at hread
    · cases hread
    · obtain ⟨ms, hms, hread⟩ := bind_ok.mp hread
      obtain ⟨v, hv, rfl⟩ := readMs_ok_iff.mp hms
      exact ⟨v, hv, (happend _).mp hread⟩
  · rintro ⟨v, hv, hread⟩
    have hne : line.isEmpty = false := by
      obtain ⟨⟨d, rfl, -⟩, -⟩ := hv
      simp [Decimal.text, d.digits_ne]
    rw [hne, if_neg (by decide), readMs_ok_iff.mpr ⟨v, hv, rfl⟩, ok_bind]
    exact (happend _).mpr hread

theorem readLine_throws (line : Bytes) (schedule : List Nat) :
    Ensures (fun e => e.isThrow = true) (fun _ => True) (readLine line schedule) := by
  unfold readLine readMs
  split
  · exact rfl
  · split
    · rw [ok_bind]
      split
      · split
        · exact rfl
        · exact trivial
      · exact trivial
    · exact rfl

theorem read_ok_iff {lines : List Bytes} {acc schedule : List Nat} (h : acc.Pairwise (· ≤ ·)) :
    run readLine lines acc = .ok schedule ↔
      ∃ values, Reads lines values ∧ schedule = acc ++ values.map toU64 ∧
        schedule.Pairwise (· ≤ ·) := by
  induction lines generalizing acc with
  | nil =>
      rw [run_nil]
      constructor
      · rintro ⟨⟩
        exact ⟨[], .nil, (List.append_nil _).symm, h⟩
      · rintro ⟨values, hreads, rfl, -⟩
        cases hreads
        rw [List.map_nil, List.append_nil]
  | cons line lines ih =>
      rw [run_cons, bind_ok]
      constructor
      · rintro ⟨acc', hline, hlines⟩
        obtain ⟨v, hv, rfl, hsorted⟩ := (readLine_ok_iff h).mp hline
        obtain ⟨values, hreads, rfl, hsorted'⟩ := (ih hsorted).mp hlines
        exact ⟨v :: values, .cons hv hreads, by simp, hsorted'⟩
      · rintro ⟨values, hreads, rfl, hsorted⟩
        cases hreads with
        | @cons _ v _ values hv hreads =>
            have hfirst : (acc ++ [toU64 v]).Pairwise (· ≤ ·) := by
              rw [List.map_cons, List.append_cons] at hsorted
              exact (List.pairwise_append.mp hsorted).1
            exact ⟨_, (readLine_ok_iff h).mpr ⟨v, hv, rfl, hfirst⟩,
              (ih hfirst).mpr ⟨values, hreads, by simp, hsorted⟩⟩

theorem accepted_iff {lines : List Bytes} :
    Accepted lines ↔ ∃ schedule, run readLine lines [] = .ok schedule := by
  constructor
  · rintro ⟨values, hreads, hsorted⟩
    exact ⟨_, (read_ok_iff List.Pairwise.nil).mpr ⟨values, hreads, rfl, hsorted⟩⟩
  · rintro ⟨schedule, hread⟩
    obtain ⟨values, hreads, rfl, hsorted⟩ := (read_ok_iff List.Pairwise.nil).mp hread
    exact ⟨values, hreads, hsorted⟩

theorem read_throws (lines : List Bytes) :
    Ensures (fun e => e.isThrow = true) (fun _ => True) (run readLine lines []) :=
  ensures_run (P := fun _ _ => True) trivial fun _ _ _ _ _ _ => readLine_throws _ _

theorem Reads.lt {lines : List Bytes} {values : List Int} (h : Reads lines values) :
    ∀ v ∈ values, v < 2 ^ 63 := by
  induction h with
  | nil => exact fun v hv => absurd hv List.not_mem_nil
  | cons hv _ ih => exact List.forall_mem_cons.mpr ⟨hv.2.2, ih⟩

theorem Valid.lt {lines : List Bytes} {schedule : List Nat} (h : Valid lines schedule) :
    ∀ ms ∈ schedule, ms < 2 ^ 63 :=
  fun _ hms => Int.ofNat_lt.mp (h.reads.lt _ (List.mem_map_of_mem hms))

theorem Valid.read {lines : List Bytes} {schedule : List Nat} (h : Valid lines schedule) :
    run readLine lines [] = .ok schedule := by
  refine (read_ok_iff List.Pairwise.nil).mpr ⟨_, h.reads, ?_, h.sorted⟩
  rw [List.nil_append, List.map_map]
  refine ((List.map_congr_left fun ms hms => ?_).trans (List.map_id schedule)).symm
  have hlt := h.lt ms hms
  exact congrArg Int.toNat (Int.emod_eq_of_lt (Int.natCast_nonneg ms) (by omega))

theorem Valid.ne_nil {lines : List Bytes} {schedule : List Nat} (h : Valid lines schedule) :
    schedule ≠ [] := by
  obtain ⟨hne, hreads, -, -⟩ := h
  rintro rfl
  cases hreads
  exact hne rfl

/-! ### The window -/

/-- The entry at `i`. -/
def ms (schedule : List Nat) (i : Nat) : Nat := schedule.getD i 0

/-- `schedule_[left] + offset > schedule_[i] - 50`, in 64 bits -/
def InWindow (schedule : List Nat) (i : Nat) (offset : Int) (left : Nat) : Prop :=
  toU64 (ms schedule i - 50) < toU64 (ms schedule left + offset)

instance (schedule : List Nat) (i : Nat) (offset : Int) (left : Nat) :
    Decidable (InWindow schedule i offset left) := inferInstanceAs (Decidable (_ < _))

/-- `j` is where the search from `left` stops: on its way down, or in the pass before. -/
def StopsAt (schedule : List Nat) (cycle : Int) (i left : Nat) (offset : Int) (j : Nat) : Prop :=
  (j ≤ left ∧ ¬ InWindow schedule i offset j ∧
    ∀ k, j < k → k ≤ left → InWindow schedule i offset k) ∨
  ((∀ k ≤ left, InWindow schedule i offset k) ∧ j < schedule.length ∧
    ¬ InWindow schedule i (-cycle) j ∧
    ∀ k, j < k → k < schedule.length → InWindow schedule i (-cycle) k)

variable {schedule : List Nat} {cycle : Int} {i : Nat}

theorem entryAt_of_lt {i : Nat} (h : i < schedule.length) :
    entryAt schedule i = .ok (ms schedule i) := by
  rw [entryAt, if_neg (by omega), Int.toNat_natCast, ms, List.getD_eq_getElem?_getD,
    List.getElem?_eq_getElem h]
  rfl

theorem findLeft_succ {fuel left : Nat} {offset : Int} (hleft : left < schedule.length)
    (hi : i < schedule.length) (hsize : schedule.length < 2 ^ 31) :
    findLeft schedule cycle i (fuel + 1) left offset =
      if InWindow schedule i offset left then
        if left = 0 then findLeft schedule cycle i fuel (schedule.length - 1 : Nat) (-cycle)
        else findLeft schedule cycle i fuel (left - 1 : Nat) offset
      else .ok left := by
  rw [findLeft, entryAt_of_lt hleft, entryAt_of_lt hi, ok_bind, ok_bind]
  by_cases hin : InWindow schedule i offset left
  · rw [if_pos hin, if_pos (show toU64 _ < toU64 _ from hin)]
    by_cases hzero : left = 0
    · subst hzero
      rw [if_pos (by decide), if_pos rfl, toI32_of_range (by omega) (by omega)]
      congr 1
      omega
    · rw [if_neg (by omega), if_neg hzero]
      congr 1
      omega
  · rw [if_neg hin, if_neg (show ¬ toU64 _ < toU64 _ from hin)]
    rfl

theorem findLeft_ok {fuel left : Nat} {offset left' : Int} (hleft : left < schedule.length)
    (hi : i < schedule.length) (hsize : schedule.length < 2 ^ 31)
    (h : findLeft schedule cycle i fuel left offset = .ok left') :
    ∃ j : Nat, left' = j ∧ StopsAt schedule cycle i left offset j := by
  induction fuel generalizing left offset with
  | zero => cases h
  | succ fuel ih =>
      rw [findLeft_succ hleft hi hsize] at h
      split at h
      next hin =>
        split at h
        next hzero =>
          subst hzero
          -- the search goes on at the last entry, one cycle earlier
          have hall : ∀ k ≤ 0, InWindow schedule i offset k := fun k hk => by
            rwa [Nat.le_zero.mp hk]
          obtain ⟨j, rfl, ⟨hj, hout, hbetween⟩ | ⟨hbefore, hj, hout, -⟩⟩ := ih (by omega) h
          · exact ⟨j, rfl, .inr ⟨hall, by omega, hout, fun k hjk hk => hbetween k hjk (by omega)⟩⟩
          · exact absurd (hbefore j (by omega)) hout
        next hzero =>
          obtain ⟨j, rfl, ⟨hj, hout, hbetween⟩ | ⟨hbefore, hrest⟩⟩ := ih (by omega) h
          · refine ⟨j, rfl, .inl ⟨by omega, hout, fun k hjk hk => ?_⟩⟩
            rcases Nat.lt_or_ge k left with hlt | hge
            · exact hbetween k hjk (by omega)
            · rwa [Nat.le_antisymm hk hge]
          · refine ⟨j, rfl, .inr ⟨fun k hk => ?_, hrest⟩⟩
            rcases Nat.lt_or_ge k left with hlt | hge
            · exact hbefore k (by omega)
            · rwa [Nat.le_antisymm hk hge]
      next hout =>
        cases h
        exact ⟨left, rfl, .inl ⟨Nat.le_refl _, hout, fun k hlt hle => by omega⟩⟩

theorem findLeft_down {fuel left j : Nat} {offset : Int} (hleft : left < schedule.length)
    (hi : i < schedule.length) (hsize : schedule.length < 2 ^ 31) (hj : j ≤ left)
    (h : ∀ k, j < k → k ≤ left → InWindow schedule i offset k) :
    findLeft schedule cycle i (fuel + (left - j)) left offset =
      findLeft schedule cycle i fuel j offset := by
  induction left with
  | zero =>
      cases Nat.le_zero.mp hj
      rfl
  | succ left ih =>
      rcases Nat.eq_or_lt_of_le hj with rfl | hlt
      · rw [Nat.sub_self, Nat.add_zero]
      · rw [show fuel + (left + 1 - j) = fuel + (left - j) + 1 by omega,
          findLeft_succ hleft hi hsize, if_pos (h _ hlt (Nat.le_refl _)), if_neg (by omega)]
        exact ih (by omega) (by omega) fun k hjk hk => h k hjk (by omega)

/-- The search that never ends. -/
theorem findLeft_runs {left : Nat} {offset : Int} (hleft : left < schedule.length)
    (hi : i < schedule.length) (hsize : schedule.length < 2 ^ 31)
    (h : ∀ k ≤ left, InWindow schedule i offset k)
    (hpass : ∀ k < schedule.length, InWindow schedule i (-cycle) k) (fuel : Nat) :
    findLeft schedule cycle i fuel left offset = .error .running := by
  induction fuel generalizing left offset with
  | zero => rfl
  | succ fuel ih =>
      rw [findLeft_succ hleft hi hsize, if_pos (h left (Nat.le_refl _))]
      split
      · exact ih (by omega) fun k hk => hpass k (by omega)
      · exact ih (by omega) fun k hk => h k (by omega)

theorem findLeft_stops {fuel left j : Nat} {offset : Int} (hleft : left < schedule.length)
    (hi : i < schedule.length) (hsize : schedule.length < 2 ^ 31)
    (h : StopsAt schedule cycle i left offset j) (hfuel : left + schedule.length + 1 ≤ fuel) :
    findLeft schedule cycle i fuel left offset = .ok (j : Int) := by
  rcases h with ⟨hj, hout, hbetween⟩ | ⟨hbefore, hj, hout, hbetween⟩
  · obtain ⟨fuel, rfl⟩ := Nat.exists_eq_add_of_le' (show left - j + 1 ≤ fuel by omega)
    rw [show fuel + (left - j + 1) = fuel + 1 + (left - j) by omega,
      findLeft_down hleft hi hsize hj hbetween, findLeft_succ (by omega) hi hsize, if_neg hout]
  · obtain ⟨fuel, rfl⟩ := Nat.exists_eq_add_of_le'
      (show left + 1 + (schedule.length - 1 - j) + 1 ≤ fuel by omega)
    rw [show fuel + (left + 1 + (schedule.length - 1 - j) + 1) =
        fuel + 1 + (schedule.length - 1 - j) + 1 + (left - 0) by omega,
      findLeft_down hleft hi hsize (Nat.zero_le _) fun k _ hk => hbefore k hk,
      findLeft_succ (by omega) hi hsize, if_pos (hbefore 0 (Nat.zero_le _)), if_pos rfl,
      findLeft_down (by omega) hi hsize (by omega) fun k hjk hk => hbetween k hjk (by omega),
      findLeft_succ (by omega) hi hsize, if_neg hout]

/-- The condition on the window that ends at `i`: the search for its start ends, and its length is
not a multiple of 2³².  Without an entry at least 50 ms before `i`, the start is looked for in the
pass before, `cycle` earlier; an entry before `cycle` is negative there and looks like a late one. -/
def WindowOk (schedule : List Nat) (cycle : Int) (i : Nat) : Prop :=
  ms schedule i < 50 ∨
  (∃ j < i, ms schedule j + 50 ≤ ms schedule i ∧
    (∀ k, j < k → k < i → ms schedule i < ms schedule k + 50) ∧
    ¬ 2 ^ 32 ∣ (ms schedule i - ms schedule j : Int)) ∨
  ((∀ j < i, ms schedule i < ms schedule j + 50) ∧
    ∃ j < schedule.length, (cycle ≤ ms schedule j ∧ ms schedule j + 50 ≤ ms schedule i + cycle) ∧
      (∀ k, j < k → k < schedule.length →
        ¬ (cycle ≤ ms schedule k ∧ ms schedule k + 50 ≤ ms schedule i + cycle)) ∧
      ¬ 2 ^ 32 ∣ (ms schedule i - ms schedule j + if j < i then 0 else cycle : Int))

theorem natCast_toU64 {x : Int} (h₀ : 0 ≤ x) (h₁ : x < 2 ^ 64) : (toU64 x : Int) = x := by
  rw [toU64_of_range h₀ h₁, Int.toNat_of_nonneg h₀]

theorem toU64_of_neg {x : Int} (h₀ : -2 ^ 64 ≤ x) (h₁ : x < 0) : (toU64 x : Int) = x + 2 ^ 64 := by
  have hmod : x % 2 ^ 64 = x + 2 ^ 64 := by
    rw [← Int.add_emod_right, Int.emod_eq_of_lt (by omega) (by omega)]
  rw [toU64, hmod, Int.toNat_of_nonneg (by omega)]

theorem ms_lt (hlt : ∀ t ∈ schedule, t < 2 ^ 63) (i : Nat) : ms schedule i < 2 ^ 63 := by
  rw [ms, List.getD_eq_getElem?_getD]
  cases h : schedule[i]? with
  | none => exact Nat.two_pow_pos 63
  | some t => exact hlt t (List.mem_of_getElem? h)

theorem inWindow_iff (hlt : ∀ t ∈ schedule, t < 2 ^ 63) {k : Nat} :
    InWindow schedule i 0 k ↔ 50 ≤ ms schedule i ∧ ms schedule i < ms schedule k + 50 := by
  have hi := ms_lt hlt i
  have hk := ms_lt hlt k
  have hleft := natCast_toU64 (x := ms schedule k + 0) (by omega) (by omega)
  unfold InWindow
  rcases Nat.lt_or_ge (ms schedule i) 50 with h | h
  · have := toU64_of_neg (x := ms schedule i - 50) (by omega) (by omega)
    omega
  · have := natCast_toU64 (x := ms schedule i - 50) (by omega) (by omega)
    omega

/-- In the pass before. -/
theorem inWindow_neg_iff (hlt : ∀ t ∈ schedule, t < 2 ^ 63) (hcycle : 0 ≤ cycle)
    (hcycle' : cycle < 2 ^ 31) (hi : 50 ≤ ms schedule i) {k : Nat} :
    InWindow schedule i (-cycle) k ↔
      ¬ (cycle ≤ ms schedule k ∧ ms schedule k + 50 ≤ ms schedule i + cycle) := by
  have hi' := ms_lt hlt i
  have hk := ms_lt hlt k
  have := natCast_toU64 (x := ms schedule i - 50) (by omega) (by omega)
  unfold InWindow
  rcases Int.lt_or_le (ms schedule k) cycle with h | h
  · have := toU64_of_neg (x := ms schedule k + -cycle) (by omega) (by omega)
    omega
  · have := natCast_toU64 (x := ms schedule k + -cycle) (by omega) (by omega)
    omega

/-- The length of the window that starts at `j`, before it is put into an `int`. -/
def windowLength (schedule : List Nat) (cycle : Int) (i j : Nat) : Int :=
  ms schedule i - ms schedule j + if j < i then 0 else cycle

theorem windowOk_iff (hlt : ∀ t ∈ schedule, t < 2 ^ 63) (hcycle : 0 < cycle)
    (hcycle' : cycle < 2 ^ 31) : WindowOk schedule cycle i ↔
      ∃ j, StopsAt schedule cycle i i 0 j ∧ ¬ 2 ^ 32 ∣ windowLength schedule cycle i j := by
  have hneg (hi : 50 ≤ ms schedule i) (k : Nat) := inWindow_neg_iff (k := k) hlt hcycle.le hcycle' hi
  rcases Nat.lt_or_ge (ms schedule i) 50 with hi | hi
  · -- `schedule_[i] - 50` wraps, and the search stops where it starts
    refine iff_of_true (.inl hi) ⟨i, .inl ⟨Nat.le_refl i, ?_, fun k h₁ h₂ => by omega⟩, ?_⟩
    · rw [inWindow_iff hlt]
      omega
    · rw [windowLength, if_neg (Nat.lt_irrefl i)]
      omega
  constructor
  · rintro (h | ⟨j, hj, hle, hbetween, hlength⟩ | ⟨hbefore, j, hj, hin, hbetween, hlength⟩)
    · omega
    · refine ⟨j, .inl ⟨hj.le, ?_, fun k hjk hk => (inWindow_iff hlt).mpr ⟨hi, ?_⟩⟩, ?_⟩
      · rw [inWindow_iff hlt]
        omega
      · rcases Nat.eq_or_lt_of_le hk with rfl | hk
        · omega
        · exact hbetween k hjk hk
      · rwa [windowLength, if_pos hj, Int.add_zero]
    · refine ⟨j, .inr ⟨fun k hk => (inWindow_iff hlt).mpr ⟨hi, ?_⟩, hj, ?_, fun k hjk hk => ?_⟩,
        hlength⟩
      · rcases Nat.eq_or_lt_of_le hk with rfl | hk
        · omega
        · exact hbefore k hk
      · exact fun h => (hneg hi j).mp h hin
      · exact (hneg hi k).mpr (hbetween k hjk hk)
  · rintro ⟨j, ⟨hj, hout, hbetween⟩ | ⟨hbefore, hj, hout, hbetween⟩, hlength⟩
    · rw [inWindow_iff hlt] at hout
      have hne : j < i := by
        refine Nat.lt_of_le_of_ne hj ?_
        rintro rfl
        omega
      refine .inr (.inl ⟨j, hne, by omega, fun k hjk hk => ?_, ?_⟩)
      · exact ((inWindow_iff hlt).mp (hbetween k hjk hk.le)).2
      · rwa [windowLength, if_pos hne, Int.add_zero] at hlength
    · refine .inr (.inr ⟨fun k hk => ((inWindow_iff hlt).mp (hbefore k hk.le)).2, j, hj, ?_,
        fun k hjk hk => (hneg hi k).mp (hbetween k hjk hk), hlength⟩)
      exact not_not.mp fun h => hout ((hneg hi j).mpr h)

theorem toU32_toI32_eq_zero {x : Int} : toU32 (toI32 x) = 0 ↔ 2 ^ 32 ∣ x := by
  have hmod : x.bmod (2 ^ 32) % 2 ^ 32 = x % 2 ^ 32 := Int.bmod_emod
  rw [toU32, toI32, hmod, Int.toNat_eq_zero]
  omega

theorem bitrateFrom_ok_iff {j : Nat} (hi : i < schedule.length) (hj : j < schedule.length) :
    (∃ rate, bitrateFrom schedule cycle i j = .ok rate) ↔
      ¬ 2 ^ 32 ∣ windowLength schedule cycle i j := by
  unfold bitrateFrom windowLength
  rw [entryAt_of_lt hj, entryAt_of_lt hi, ok_bind, ok_bind]
  by_cases hlt : j < i
  · simp only [if_pos hlt, show (0 : Int) < i - j by omega, if_true, toU32_toI32_eq_zero,
      Int.add_zero]
    split
    next h => exact iff_of_false (fun ⟨_, he⟩ => nomatch he) (not_not.mpr h)
    next h => exact iff_of_true ⟨_, rfl⟩ h
  · simp only [if_neg hlt, show ¬ (0 : Int) < i - j by omega, if_false, toU32_toI32_eq_zero]
    split
    next h => exact iff_of_false (fun ⟨_, he⟩ => nomatch he) (not_not.mpr h)
    next h => exact iff_of_true ⟨_, rfl⟩ h

theorem StopsAt.lt {left j : Nat} {offset : Int} (h : StopsAt schedule cycle i left offset j)
    (hleft : left < schedule.length) : j < schedule.length := by
  rcases h with ⟨hj, -⟩ | ⟨-, hj, -⟩ <;> omega

/-- A bitrate is computed when the window is as asked, and only then. -/
theorem bitrateAt_ok {back : Nat} (hlt : ∀ t ∈ schedule, t < 2 ^ 63) (hback : 100 ≤ toI32 back)
    (hi : i < schedule.length) (hsize : schedule.length < 2 ^ 31)
    (h : WindowOk schedule (toI32 back) i) :
    ∃ rate, ∀ fuel, 2 * schedule.length ≤ fuel → bitrateAt fuel schedule back i = .ok rate := by
  obtain ⟨j, hstops, hlength⟩ := (windowOk_iff hlt (by omega) (toI32_lt _)).mp h
  obtain ⟨rate, hrate⟩ := (bitrateFrom_ok_iff hi (hstops.lt hi)).mpr hlength
  refine ⟨rate, fun fuel hfuel => ?_⟩
  rw [bitrateAt, findLeft_stops hi hi hsize hstops (by omega), ok_bind, hrate]

theorem of_bitrateAt_ok {fuel back rate : Nat} (hlt : ∀ t ∈ schedule, t < 2 ^ 63)
    (hback : 100 ≤ toI32 back) (hi : i < schedule.length) (hsize : schedule.length < 2 ^ 31)
    (h : bitrateAt fuel schedule back i = .ok rate) : WindowOk schedule (toI32 back) i := by
  obtain ⟨left, hleft, hrate⟩ := bind_ok.mp h
  obtain ⟨j, rfl, hstops⟩ := findLeft_ok hi hi hsize hleft
  exact (windowOk_iff hlt (by omega) (toI32_lt _)).mpr
    ⟨j, hstops, (bitrateFrom_ok_iff hi (hstops.lt hi)).mp ⟨rate, hrate⟩⟩

/-! ### Loading -/

/-- What is asked of a schedule for its bitrates to be computed. -/
def BitratesOk (schedule : List Nat) : Prop :=
  schedule.length < 2 ^ 31 ∧ ∀ back, schedule.getLast? = some back →
    toI32 back < 100 ∨ ∀ i < schedule.length, WindowOk schedule (toI32 back) i

/-- Traces that are not too long, in entries and in time, pose no problem. -/
theorem BitratesOk.of_small (hsorted : schedule.Pairwise (· ≤ ·))
    (hsize : schedule.length < 2 ^ 31)
    (hlast : ∀ back, schedule.getLast? = some back → back < 2 ^ 31) : BitratesOk schedule := by
  refine ⟨hsize, fun back hback => or_iff_not_imp_left.mpr fun _ i hi => ?_⟩
  have hsmall := hlast back hback
  rw [toI32_of_range (by omega) (by omega)]
  have hend : ms schedule (schedule.length - 1) = back := by
    rw [ms, List.getD_eq_getElem?_getD, ← List.getLast?_eq_getElem?, hback]
    rfl
  have hms : ms schedule i ≤ back := by
    rw [← hend, ms, ms, List.getD_eq_getElem?_getD, List.getD_eq_getElem?_getD,
      List.getElem?_eq_getElem hi, List.getElem?_eq_getElem (by omega)]
    rcases Nat.eq_or_lt_of_le (show i ≤ schedule.length - 1 by omega) with heq | hlt
    · simp only [← heq, Nat.le_refl]
    · exact List.pairwise_iff_getElem.mp hsorted i _ hi (by omega) hlt
  rcases Nat.lt_or_ge (ms schedule i) 50 with hearly | hlate
  · exact .inl hearly
  by_cases hbefore : ∃ j < i, ms schedule j + 50 ≤ ms schedule i
  · -- the last of these starts the window
    obtain ⟨j₀, hj₀, hle₀⟩ := hbefore
    have hspec := Nat.findGreatest_spec (P := fun j => j < i ∧ ms schedule j + 50 ≤ ms schedule i)
      hj₀.le ⟨hj₀, hle₀⟩
    refine .inr (.inl ⟨_, hspec.1, hspec.2, fun k hjk hk => ?_, by omega⟩)
    have := Nat.findGreatest_is_greatest hjk hk.le
    omega
  · refine .inr (.inr ⟨fun j hj => ?_, schedule.length - 1, by omega, ?_, fun k _ _ => by omega, ?_⟩)
    · by_contra hlt
      exact hbefore ⟨j, hj, by omega⟩
    · rw [hend]
      omega
    · rw [hend, if_neg (by omega)]
      omega

theorem computeBitrate_ok (hlt : ∀ t ∈ schedule, t < 2 ^ 63) (hne : schedule ≠ [])
    (hpos : schedule.getLast? ≠ some 0) (h : BitratesOk schedule) :
    ∃ rates, rates.length = schedule.length ∧
      ∀ fuel, 2 * schedule.length ≤ fuel → computeBitrate fuel schedule = .ok rates := by
  obtain ⟨hsize, hwindows⟩ := h
  obtain ⟨back, hback⟩ := Option.isSome_iff_exists.mp (List.getLast?_isSome.mpr hne)
  have hrange : (toI32 schedule.length).toNat = schedule.length := by
    rw [toI32_of_range (by omega) (by omega), Int.toNat_natCast]
  have hrate : ∀ i, ∃ rate, i < schedule.length → ∀ fuel, 2 * schedule.length ≤ fuel →
      (if toI32 back < 100 then bitrateOfShort schedule back else bitrateAt fuel schedule back i) =
        .ok rate := by
    intro i
    by_cases hi : i < schedule.length
    · by_cases hshort : toI32 back < 100
      · refine ⟨toU32 (toU64 (PACKET_SIZE * schedule.length * 8) / back : Nat), fun _ fuel _ => ?_⟩
        rw [if_pos hshort, bitrateOfShort, if_neg fun hzero => hpos (by rw [hback, hzero])]
      · obtain ⟨rate, hrate⟩ := bitrateAt_ok hlt (Int.not_lt.mp hshort) hi hsize
          ((hwindows back hback).resolve_left hshort i hi)
        exact ⟨rate, fun _ fuel hfuel => by rw [if_neg hshort, hrate fuel hfuel]⟩
    · exact ⟨0, fun h => absurd h hi⟩
  choose rate hrate using hrate
  refine ⟨(List.range schedule.length).map rate, by simp, fun fuel hfuel => ?_⟩
  rw [computeBitrate, hback, hrange]
  exact mapM_ok fun i hi => hrate i (List.mem_range.mp hi) fuel hfuel

theorem of_computeBitrate_ok {fuel : Nat} {rates : List Nat} (hlt : ∀ t ∈ schedule, t < 2 ^ 63)
    (h : computeBitrate fuel schedule = .ok rates) (hlength : rates.length = schedule.length) :
    BitratesOk schedule := by
  unfold computeBitrate at h
  split at h
  · cases h
  next back hback =>
    obtain ⟨hrange, hall⟩ := of_mapM_ok h
    rw [List.length_range, hlength] at hrange
    have hsize : schedule.length < 2 ^ 31 := by
      have := toI32_lt schedule.length
      omega
    refine ⟨hsize, fun back' hback' => ?_⟩
    cases hback.symm.trans hback'
    by_cases hshort : toI32 back < 100
    · exact .inl hshort
    · refine .inr fun i hi => ?_
      obtain ⟨rate, hrate⟩ := hall i (List.mem_range.mpr (hrange ▸ hi))
      rw [if_neg hshort] at hrate
      exact of_bitrateAt_ok hlt (Int.not_lt.mp hshort) hi hsize hrate

theorem entryAt_faults (schedule : List Nat) (i : Int) :
    Ensures (fun e => e.isThrow = false) (fun _ => True) (entryAt schedule i) := by
  unfold entryAt
  split
  · exact rfl
  · split
    · exact trivial
    · exact rfl

theorem findLeft_faults (schedule : List Nat) (cycle i : Int) (fuel : Nat) :
    ∀ left offset, Ensures (fun e => e.isThrow = false) (fun _ => True)
      (findLeft schedule cycle i fuel left offset) := by
  induction fuel with
  | zero => exact fun _ _ => rfl
  | succ fuel ih =>
      intro left offset
      refine (entryAt_faults _ _).bind fun atLeft _ => (entryAt_faults _ _).bind fun atI _ => ?_
      split
      · split
        · exact ih _ _
        · exact ih _ _
      · exact trivial

theorem bitrateAt_faults (fuel : Nat) (schedule : List Nat) (back i : Nat) :
    Ensures (fun e => e.isThrow = false) (fun _ => True) (bitrateAt fuel schedule back i) := by
  have hdivide : ∀ n d : Nat, Ensures (fun e => e.isThrow = false) (fun _ => True)
      (if d = 0 then throw .divideByZero else return n / d : Except TraceError Nat) := by
    intro n d
    split
    · exact rfl
    · exact trivial
  exact (findLeft_faults _ _ _ _ _ _).bind fun left _ =>
    (entryAt_faults _ _).bind fun atLeft _ => (entryAt_faults _ _).bind fun atI _ => hdivide _ _

/-- What stops the computation of the bitrates is never an exception. -/
theorem computeBitrate_faults {fuel : Nat} {e : TraceError}
    (h : computeBitrate fuel schedule = .error e) : e.isThrow = false := by
  unfold computeBitrate at h
  split at h
  · cases h; rfl
  · obtain ⟨i, -, h⟩ := of_mapM_error h
    split at h
    · unfold bitrateOfShort at h
      split at h
      · cases h; rfl
      · cases h
    · exact (bitrateAt_faults _ _ _ _).of_error h

/-- A trace that ends at 0 has stopped at a division before it is refused. -/
theorem last_ne_zero {fuel : Nat} {rates : List Nat} (h : computeBitrate fuel schedule = .ok rates)
    (hlength : rates.length = schedule.length) : schedule.getLast? ≠ some 0 := by
  intro hzero
  have hne : schedule ≠ [] := List.getLast?_isSome.mp (by rw [hzero]; rfl)
  rw [computeBitrate, hzero] at h
  obtain ⟨hrange, hall⟩ := of_mapM_ok h
  rw [List.length_range, hlength] at hrange
  obtain ⟨rate, hrate⟩ := hall 0 (List.mem_range.mpr (hrange ▸ List.length_pos_iff.mpr hne))
  cases hrate

/-- After the reading: a fault that is not an exception, or a valid trace. -/
theorem load_of_read {fuel : Nat} {lines : List Bytes} {r : Except TraceError Loaded}
    (hread : run readLine lines [] = .ok schedule) (h : load fuel lines = r) :
    Ensures (fun e => e.isThrow = false) (fun t => t.schedule = schedule ∧
      t.bitrate.length = schedule.length ∧ computeBitrate fuel schedule = .ok t.bitrate) r := by
  rw [load, hread, ok_bind] at h
  cases hrates : computeBitrate fuel schedule with
  | error e =>
      rw [hrates] at h
      cases h
      exact computeBitrate_faults hrates
  | ok rates =>
      have hne : schedule ≠ [] := by
        rintro rfl
        cases hrates
      rw [hrates, ok_bind, if_neg hne] at h
      split at h
      · cases h; rfl
      next hlength =>
        have hlast := last_ne_zero hrates (not_not.mp hlength)
        rw [if_neg hlast] at h
        cases h
        exact ⟨rfl, not_not.mp hlength, rfl⟩

/-- A link gets a schedule as its model has it. -/
theorem load_schedule {fuel : Nat} {lines : List Bytes} {t : Loaded} (h : load fuel lines = .ok t) :
    ∃ sched : Schedule, sched.times = t.schedule := by
  obtain ⟨schedule, hread, -⟩ := bind_ok.mp h
  obtain ⟨rfl, hlength, hrates⟩ := load_of_read hread h
  obtain ⟨values, -, -, hsorted⟩ := (read_ok_iff List.Pairwise.nil).mp hread
  have hne : t.schedule ≠ [] := by
    intro hnil
    rw [hnil] at hrates
    cases hrates
  have hlast := last_ne_zero hrates hlength
  rw [List.getLast?_eq_some_getLast hne, Ne, Option.some_inj] at hlast
  exact ⟨⟨t.schedule, hne, hsorted, Nat.pos_of_ne_zero hlast⟩, rfl⟩

theorem Valid.meets {lines : List Bytes} (h : Valid lines schedule) (hrates : BitratesOk schedule) :
    Meets lines := by
  have hpos : schedule.getLast? ≠ some 0 := fun hzero => Nat.lt_irrefl 0 (h.last_pos 0 hzero)
  obtain ⟨rates, hlength, hok⟩ := computeBitrate_ok h.lt h.ne_nil hpos hrates
  refine ⟨.ok ⟨schedule, rates⟩, ⟨2 * schedule.length, fun fuel hfuel => ?_⟩, h, hlength⟩
  rw [load, h.read, ok_bind, hok fuel hfuel, ok_bind, if_neg (not_not.mpr hlength),
    if_neg h.ne_nil, if_neg hpos]
  rfl

theorem Valid.loads {lines : List Bytes} (h : Valid lines schedule)
    (hrates : BitratesOk schedule) : ∃ t fuel₀,
      (∀ fuel, fuel₀ ≤ fuel → load fuel lines = .ok t) ∧ t.schedule = schedule := by
  obtain ⟨r, ⟨fuel₀, hload⟩, hr⟩ := h.meets hrates
  cases r with
  | error e => exact absurd ⟨schedule, h⟩ hr.2
  | ok t =>
      have hread := load_of_read h.read (hload fuel₀ (Nat.le_refl _))
      exact ⟨t, fuel₀, hload, hread.1⟩

/-- **Loading a trace.**  The constructor does what is asked of it when a line is refused, or when
the trace is valid and its bitrates can be computed; in no other case. -/
theorem trace_loads_iff (lines : List Bytes) : Meets lines ↔
    ¬ Accepted lines ∨ ∃ schedule, Valid lines schedule ∧ BitratesOk schedule := by
  constructor
  · rintro ⟨r, ⟨fuel, hload⟩, hr⟩
    -- once the lines are read, a fault is no exception, so the result is a trace
    refine or_iff_not_imp_left.mpr fun hacc => ?_
    obtain ⟨schedule, hread⟩ := accepted_iff.mp (not_not.mp hacc)
    have hafter := load_of_read hread (hload fuel (Nat.le_refl _))
    cases r with
    | error e => exact absurd (hr.1.symm.trans hafter) (by decide)
    | ok t =>
        obtain ⟨rfl, hlength, hrates⟩ := hafter
        exact ⟨_, hr.1, of_computeBitrate_ok hr.1.lt hrates hlength⟩
  · rintro (hrefused | ⟨schedule, hvalid, hrates⟩)
    · rw [accepted_iff] at hrefused
      cases hread : run readLine lines [] with
      | ok schedule => exact absurd ⟨schedule, hread⟩ hrefused
      | error e =>
          refine ⟨.error e, ⟨0, fun fuel _ => by rw [load, hread]; rfl⟩,
            (read_throws lines).of_error hread, ?_⟩
          rintro ⟨schedule, hvalid⟩
          exact hrefused ⟨schedule, hvalid.read⟩
    · exact hvalid.meets hrates

theorem not_meets {lines : List Bytes} {e : TraceError} (h : ∀ fuel, load fuel lines = .error e)
    (he : e.isThrow = false) : ¬ Meets lines := by
  rintro ⟨r, ⟨fuel, hload⟩, hr⟩
  rw [← hload fuel (Nat.le_refl _), h] at hr
  exact absurd (hr.1.symm.trans he) (by decide)

/-- `60` and 2³² + 100: in an `int` the last time is 100. -/
theorem long_trace_runs (fuel : Nat) :
    load fuel ["60".toUTF8.toList, "4294967396".toUTF8.toList] = .error .running := by
  have hread : run readLine ["60".toUTF8.toList, "4294967396".toUTF8.toList] [] =
      .ok [60, 4294967396] := by decide +kernel
  have hsearch : findLeft [60, 4294967396] 100 (0 : Nat) fuel (0 : Nat) 0 = .error .running :=
    findLeft_runs (by decide) (by decide) (by decide) (by decide) (by decide) fuel
  have hrates : computeBitrate fuel [60, 4294967396] =
      (findLeft [60, 4294967396] 100 (0 : Nat) fuel (0 : Nat) 0 >>=
        bitrateFrom [60, 4294967396] 100 (0 : Nat)) >>= fun rate =>
          bitrateAt fuel [60, 4294967396] 4294967396 1 >>= fun rate' => .ok [rate, rate'] := rfl
  -- every entry is in the window, in this pass and in the one before
  rw [load, hread, ok_bind, hrates, hsearch]
  rfl

/-- An empty trace, a trace that ends at 0, a negative time, and a trace that is too long. -/
theorem trace_misloaded : ¬ Meets [] ∧ ¬ Meets ["0".toUTF8.toList] ∧ ¬ Meets ["-5".toUTF8.toList] ∧
    ¬ Meets ["60".toUTF8.toList, "4294967396".toUTF8.toList] := by
  have hzero : run readLine ["0".toUTF8.toList] [] = .ok [0] := by decide +kernel
  have hneg : run readLine ["-5".toUTF8.toList] [] = .ok [2 ^ 64 - 5] := by decide +kernel
  refine ⟨not_meets (e := .backOfEmpty) (fun _ => rfl) rfl,
    not_meets (e := .divideByZero) (fun _ => ?_) rfl, ?_, not_meets long_trace_runs rfl⟩
  · rw [load, hzero]
    rfl
  · rintro ⟨r, ⟨fuel, hload⟩, hr⟩
    have hok : load fuel ["-5".toUTF8.toList] = .ok ⟨[2 ^ 64 - 5], [0]⟩ := by
      rw [load, hneg]
      rfl
    rw [← hload fuel (Nat.le_refl _), hok] at hr
    exact absurd (hr.1.lt _ List.mem_cons_self) (by decide)

end Trace

end Mahimahi
