import Mathlib.Data.List.AList
import Mathlib.Order.Bounds.Basic
import Mathlib.Data.List.Induction
import Mathlib.Data.List.Sort

/-!
# Scripts — `%signal_delay`

The table that `mm-delay-graph` and `mm-throughput-graph` build of the departures in a log.  While a
log is read, the table gets the least delay of each arrival time; a backward pass then gives every
millisecond without an entry one more than the next one has.

* `signalDelay_isLeast`: where no packet departs later than one that arrived after it, the entry at
  a time is the least time for a message created then to reach the receiver.

The scripts differ in what lines they accept, not in the table.  A time is a whole number of
milliseconds; `POSIX::DBL_MAX`, from which `min` starts, is above all of them.
-/

namespace Mahimahi

namespace SignalDelay

/-- A departure event: the packet's delay, and the time at which it left. -/
structure Departure where
  timestamp : Int
  delay : Int
  deriving DecidableEq, Repr

def Departure.arrival (p : Departure) : Int := p.timestamp - p.delay

/-- `%signal_delay` -/
abbrev Table : Type := AList fun _ : Int => Int

/-- `min( $delay, $entry )`, where the entry may be missing. -/
protected def min (delay : Int) : Option Int → Int
  | none => delay
  | some entry => if entry < delay then entry else delay

def record (table : Table) (p : Departure) : Table :=
  table.insert p.arrival (SignalDelay.min p.delay (table.lookup p.arrival))

/-- An iteration of the backward pass.  A missing value counts as 0 in a sum. -/
def fill (table : Table) (ts : Int) : Table :=
  if (table.lookup ts).isSome then table
  else table.insert ts ((table.lookup (ts + 1)).getD 0 + 1)

/-- The backward pass: `n` iterations from `ts` down. -/
def backfill (table : Table) : Nat → Int → Table
  | 0, _ => table
  | n + 1, ts => backfill (fill table ts) n (ts - 1)

/-- The table, if there is a departure at all. -/
def signalDelay (departures : List Departure) : Option Table :=
  let table := departures.foldl record ∅
  let samples := table.keys.mergeSort fun a b => decide (a ≤ b)
  match samples.head?, samples.getLast? with
  | some first, some last => some (backfill table (last - first + 1).toNat last)
  | _, _ => none

/-! ### The entries of the arrivals -/

theorem min_isLeast {delays : Set Int} {entry : Option Int} (delay : Int)
    (h : ∀ v, entry = some v → IsLeast delays v) (hnone : entry = none → delays = ∅) :
    IsLeast (insert delay delays) (SignalDelay.min delay entry) := by
  cases entry with
  | none =>
      rw [hnone rfl]
      simp [SignalDelay.min]
  | some v =>
      have hleast : IsLeast (insert delay delays) (min delay v) := (h v rfl).insert delay
      rw [SignalDelay.min]
      split
      next hlt => rwa [min_eq_right hlt.le] at hleast
      next hle => rwa [min_eq_left (not_lt.mp hle)] at hleast

/-- The delays of the packets that arrived at `a`. -/
def delaysAt (departures : List Departure) (a : Int) : Set Int :=
  {d | ∃ p ∈ departures, p.arrival = a ∧ p.delay = d}

/-- The entries of a table are the least delays. -/
structure Recorded (departures : List Departure) (table : Table) : Prop where
  least : ∀ a v, table.lookup a = some v → IsLeast (delaysAt departures a) v
  missing : ∀ a, table.lookup a = none → delaysAt departures a = ∅

theorem delaysAt_concat (departures : List Departure) (p : Departure) (a : Int) :
    delaysAt (departures ++ [p]) a =
      if p.arrival = a then insert p.delay (delaysAt departures a) else delaysAt departures a := by
  ext d
  simp only [delaysAt, List.mem_append, List.mem_singleton, Set.mem_ofPred_eq]
  split
  next ha =>
    simp only [Set.mem_insert_iff, Set.mem_ofPred_eq]
    constructor
    · rintro ⟨q, hq | rfl, hqa, rfl⟩
      · exact .inr ⟨q, hq, hqa, rfl⟩
      · exact .inl rfl
    · rintro (rfl | ⟨q, hq, hqa, rfl⟩)
      · exact ⟨p, .inr rfl, ha, rfl⟩
      · exact ⟨q, .inl hq, hqa, rfl⟩
  next ha =>
    simp only [Set.mem_ofPred_eq]
    constructor
    · rintro ⟨q, hq | rfl, hqa, rfl⟩
      · exact ⟨q, hq, hqa, rfl⟩
      · exact absurd hqa ha
    · rintro ⟨q, hq, hqa, rfl⟩
      exact ⟨q, .inl hq, hqa, rfl⟩

theorem Recorded.record {departures : List Departure} {table : Table}
    (h : Recorded departures table) (p : Departure) :
    Recorded (departures ++ [p]) (record table p) := by
  refine ⟨fun a v hv => ?_, fun a hnone => ?_⟩
  · rw [delaysAt_concat]
    split
    next ha =>
      subst ha
      rw [SignalDelay.record, AList.lookup_insert, Option.some.injEq] at hv
      exact hv ▸ min_isLeast p.delay (h.least _) (h.missing _)
    next ha =>
      rw [SignalDelay.record, AList.lookup_insert_ne (Ne.symm ha)] at hv
      exact h.least a v hv
  · rw [delaysAt_concat]
    split
    next ha =>
      subst ha
      rw [SignalDelay.record, AList.lookup_insert] at hnone
      cases hnone
    next ha =>
      rw [SignalDelay.record, AList.lookup_insert_ne (Ne.symm ha)] at hnone
      exact h.missing a hnone

theorem recorded (departures : List Departure) :
    Recorded departures (departures.foldl record ∅) := by
  induction departures using List.reverseRecOn with
  | nil =>
      refine ⟨fun a v hv => ?_, fun a _ => ?_⟩
      · rw [List.foldl_nil, AList.lookup_empty] at hv
        cases hv
      · simp [delaysAt]
  | append_singleton departures p ih =>
      rw [List.foldl_append]
      exact ih.record p

/-! ### The backward pass -/

/-- The first entry of a table from `t` on. -/
structure FirstFrom (table : Table) (t k v : Int) : Prop where
  le : t ≤ k
  entry : table.lookup k = some v
  before : ∀ j, t ≤ j → j < k → table.lookup j = none

/-- The backward pass has come down to `ts`: from there on up to `last`, every entry counts the way
to the first entry of the table it began with. -/
structure Filled (table : Table) (last ts : Int) (filled : Table) : Prop where
  below : ∀ t, t ≤ ts → filled.lookup t = table.lookup t
  above : ∀ t, ts < t → t ≤ last → ∃ k v, FirstFrom table t k v ∧
    filled.lookup t = some (v + (k - t))

theorem Filled.fill {table filled : Table} {last ts : Int} (h : Filled table last ts filled)
    (hlast : (table.lookup last).isSome) (hts : ts ≤ last) :
    Filled table last (ts - 1) (fill filled ts) := by
  cases hentry : filled.lookup ts with
  | some v =>
      have hsame : SignalDelay.fill filled ts = filled := if_pos (by rw [hentry]; rfl)
      rw [hsame]
      refine ⟨fun t ht => h.below t (by omega), fun t hlt hle => ?_⟩
      rcases eq_or_lt_of_le (show ts ≤ t by omega) with rfl | hlt'
      · refine ⟨ts, v, ⟨le_refl ts, (h.below ts (le_refl ts)).symm.trans hentry, ?_⟩, ?_⟩
        · intro j hj hj'
          omega
        · rw [hentry, Int.sub_self, Int.add_zero]
      · exact h.above t hlt' hle
  | none =>
      have hnone : table.lookup ts = none := (h.below ts (le_refl ts)).symm.trans hentry
      -- the last entry was there from the beginning, so there is a next one
      have hne : ts ≠ last := by
        rintro rfl
        rw [hnone] at hlast
        cases hlast
      obtain ⟨k, v, hfirst, hnext⟩ := h.above (ts + 1) (by omega) (by omega)
      have hinsert : SignalDelay.fill filled ts = filled.insert ts (v + (k - ts)) := by
        rw [SignalDelay.fill, if_neg (by rw [hentry]; decide), hnext, Option.getD_some]
        congr 1
        omega
      rw [hinsert]
      refine ⟨fun t ht => ?_, fun t hlt hle => ?_⟩
      · rw [AList.lookup_insert_ne (by omega)]
        exact h.below t (by omega)
      · rcases eq_or_lt_of_le (show ts ≤ t by omega) with rfl | hlt'
        · refine ⟨k, v, ⟨by have := hfirst.le; omega, hfirst.entry, fun j hj hj' => ?_⟩,
            AList.lookup_insert _⟩
          rcases eq_or_lt_of_le hj with rfl | hj
          · exact hnone
          · exact hfirst.before j (by omega) hj'
        · rw [AList.lookup_insert_ne (by omega)]
          exact h.above t hlt' hle

theorem Filled.backfill {table : Table} {last : Int} (hlast : (table.lookup last).isSome) {n : Nat} :
    ∀ {filled : Table} {ts : Int}, Filled table last ts filled → ts ≤ last →
      Filled table last (ts - n) (backfill filled n ts) := by
  induction n with
  | zero =>
      intro filled ts h _
      exact (Int.sub_zero ts).symm ▸ h
  | succ n ih =>
      intro filled ts h hts
      have hstop : ts - (n + 1 : Nat) = ts - 1 - n := by omega
      rw [hstop]
      exact ih (h.fill hlast hts) (by omega)

/-! ### The table -/

theorem mem_delaysAt {departures : List Departure} {p : Departure} (h : p ∈ departures) :
    p.delay ∈ delaysAt departures p.arrival := ⟨p, h, rfl, rfl⟩

theorem Recorded.lookup_isSome {departures : List Departure} {table : Table}
    (h : Recorded departures table) {p : Departure} (hp : p ∈ departures) :
    (table.lookup p.arrival).isSome := by
  cases hentry : table.lookup p.arrival with
  | some v => rfl
  | none => exact absurd (mem_delaysAt hp) (by rw [h.missing _ hentry]; exact Set.notMem_empty _)

/-- The first and the last key in order bound all keys. -/
theorem bounds_of_sorted {table : Table} {a : Int} (h : a ∈ table) :
    ∃ first last, (table.keys.mergeSort fun a b => decide (a ≤ b)).head? = some first ∧
      (table.keys.mergeSort fun a b => decide (a ≤ b)).getLast? = some last ∧
      last ∈ table ∧ ∀ b ∈ table, first ≤ b ∧ b ≤ last := by
  have hmem : ∀ b, b ∈ table.keys.mergeSort (fun a b => decide (a ≤ b)) ↔ b ∈ table := fun b =>
    List.mem_mergeSort
  have hsorted : (table.keys.mergeSort fun a b => decide (a ≤ b)).Pairwise (· ≤ ·) :=
    List.pairwise_mergeSort' (· ≤ ·) table.keys
  generalize table.keys.mergeSort (fun a b => decide (a ≤ b)) = samples at hmem hsorted
  have hne : samples ≠ [] := List.ne_nil_of_mem ((hmem a).mpr h)
  refine ⟨samples.head hne, samples.getLast hne, List.head?_eq_some_head hne,
    List.getLast?_eq_some_getLast hne, (hmem _).mp (List.getLast_mem hne), fun b hb => ?_⟩
  exact ⟨hsorted.rel_head ((hmem b).mpr hb), hsorted.rel_getLast ((hmem b).mpr hb)⟩

/-- **The entry at a time is the least time for a message created then to arrive.** -/
theorem signalDelay_isLeast {departures : List Departure}
    (horder : ∀ p ∈ departures, ∀ q ∈ departures, p.arrival < q.arrival →
      p.arrival + p.delay ≤ q.arrival + q.delay)
    {t : Int} (hfirst : ∃ p ∈ departures, p.arrival ≤ t)
    (hlast : ∃ p ∈ departures, t ≤ p.arrival) :
    ∃ table v, signalDelay departures = some table ∧ table.lookup t = some v ∧
      IsLeast {x | ∃ p ∈ departures, t ≤ p.arrival ∧ x = p.arrival + p.delay - t} v := by
  obtain ⟨p₀, hp₀, hle₀⟩ := hfirst
  obtain ⟨p₁, hp₁, hle₁⟩ := hlast
  have hrec := recorded departures
  generalize htable : departures.foldl record ∅ = table at hrec
  have hkey : ∀ p ∈ departures, p.arrival ∈ table := fun p hp =>
    AList.lookup_isSome.mp (hrec.lookup_isSome hp)
  obtain ⟨first, last, hhead, hgetLast, hmem, hbounds⟩ := bounds_of_sorted (hkey p₀ hp₀)
  have hsome := AList.lookup_isSome.mpr hmem
  have hstart : Filled table last last table :=
    ⟨fun _ _ => rfl, fun t hlt hle => absurd hle (not_le.mpr hlt)⟩
  have hfilled := Filled.backfill hsome (n := (last - first + 1).toNat) hstart (le_refl last)
  have hlo := (hbounds _ (hkey p₀ hp₀)).1
  have hhi := (hbounds _ (hkey p₁ hp₁)).2
  obtain ⟨k, v, hk, hentry⟩ := hfilled.above t (by omega) (by omega)
  refine ⟨_, v + (k - t), by rw [signalDelay, htable, hhead, hgetLast], hentry, ?_⟩
  obtain ⟨⟨q, hq, hqk, rfl⟩, hleast⟩ := hrec.least k v hk.entry
  refine ⟨⟨q, hq, by rw [hqk]; exact hk.le, by rw [hqk]; omega⟩, ?_⟩
  rintro _ ⟨p, hp, htp, rfl⟩
  -- nothing arrived between `t` and the first entry
  have hkp : k ≤ p.arrival := by
    by_contra hlt
    have hnone := hk.before p.arrival htp (not_le.mp hlt)
    have := hrec.lookup_isSome hp
    rw [hnone] at this
    cases this
  rcases eq_or_lt_of_le hkp with heq | hlt
  · have : q.delay ≤ p.delay := hleast (heq ▸ mem_delaysAt hp)
    omega
  · have := horder q hq p hp (hqk ▸ hlt)
    omega

/-- Three packets; the first two arrived together. -/
def threeDepartures : List Departure := [⟨20, 20⟩, ⟨21, 21⟩, ⟨22, 12⟩]

theorem signalDelay_isLeast_threeDepartures :
    ∃ table v, signalDelay threeDepartures = some table ∧ table.lookup 5 = some v ∧
      IsLeast {x | ∃ p ∈ threeDepartures, 5 ≤ p.arrival ∧ x = p.arrival + p.delay - 5} v :=
  signalDelay_isLeast (by decide) (by decide) (by decide)

end SignalDelay

end Mahimahi
