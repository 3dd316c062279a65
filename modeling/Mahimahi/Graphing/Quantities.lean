import Mathlib.Algebra.BigOperators.Group.List.Basic
import Mathlib.Order.Bounds.Basic
import Mahimahi.Graphing.GraphThreads

/-!
# Graphing — sums and maxima

`link_queue.cc` has two kinds of graphs.  A graph of throughput adds the sizes of packets, and its
bins begin with 0; a graph of delay keeps the greatest delay, and its bins begin with -1, which says
that nothing was counted.

* `throughput_counts`: in a graph of sums the value of a bin is the sum of what was counted, as an
  `int`, and no call throws before a sum is too much for one.
* `delay_counts`: in a graph of maxima it is the maximum, and no call throws at all.
-/

open Fallible MachineInt

namespace Mahimahi

open BinnedLiveGraph

namespace GraphThreads

variable {A : GraphArgs} {F : Floats} {first start i b : Nat} {calls : List Call}
  {done : List CountedCall} {e : CountedCall} {turns : List GraphTurn}

theorem Timely.all (h : Timely start calls turns done) {P : Call → Prop}
    (hP : ∀ c ∈ calls, P c) : ∀ e ∈ done, P e.toCall :=
  fun _ he => hP _ (h.order.subset (List.mem_map_of_mem he))

theorem Stops.mono {Bad Bad' : GraphThreads → Call → Prop} {f : GraphFault}
    (h : Stops F A start calls turns Bad f)
    (hbad : ∀ done s c, done <+: turns → run (step F A) done (ofArgs A calls start) = .ok s →
      s.calls.head? = some c → Bad s c → Bad' s c) : Stops F A start calls turns Bad' f := by
  cases h with
  | unconstructed hpre hearly => exact .unconstructed hpre hearly
  | defaultValue hpre hrun hcall h =>
      exact .defaultValue hpre hrun hcall (hbad _ _ _ hpre hrun hcall h)

/-! ### A graph of sums -/

/-- What was counted on line `i` in bin `b`. -/
def total (A : GraphArgs) (done : List CountedCall) (i b : Nat) : Nat :=
  ((done.filter (InBin A i b ·)).map fun e => e.amount).sum

theorem foldl_add {es : List CountedCall} (h : ∀ e ∈ es, e.op = .add) (x : Int) :
    es.foldl (fun x e => e.value x) (toI32 x) = toI32 (x + (es.map fun e => e.amount).sum) := by
  induction es generalizing x with
  | nil => simp
  | cons e es ih =>
      obtain ⟨he, hes⟩ := List.forall_mem_cons.mp h
      have hvalue : e.value (toI32 x) = toI32 (x + e.amount) := by
        simp [Call.value, he, toI32_add]
      rw [List.foldl_cons, hvalue, ih hes, List.map_cons, List.sum_cons, Nat.cast_add, add_assoc]

theorem cell_add (hA : A.initial = 0) (h : ∀ e ∈ done, e.op = .add) :
    cell A first done i b = toI32 (total A done i b) := by
  have hzero : fresh A first b = toI32 0 := by simp [fresh, toI32, hA]
  rw [cell, hzero, foldl_add (fun e he => h e (List.mem_of_mem_filter he)), zero_add, total]

/-- **A graph of sums** shows what was counted in each bin, and a call throws only in a bin in which
that is too much for an `int`. -/
theorem throughput_counts (hA : A.initial = 0) (hnum : ∀ c ∈ calls, c.num < A.lines)
    (hadd : ∀ c ∈ calls, c.op = .add)
    (hclock : (start :: turns.map GraphTurn.now).Pairwise (· ≤ ·))
    (hsmall : ∀ t ∈ start :: turns.map GraphTurn.now, t < 2 ^ 31) :
    Ensures
      (Stops F A start calls turns fun s c =>
        2 ^ 31 ≤ total A s.done c.num (s.clock / A.binWidthMs))
      (fun s => Shows A (fun i b => toI32 (total A s.done i b)) (start / A.binWidthMs) s ∧
        Timely start calls turns s.done)
      (run (step F A) turns (ofArgs A calls start)) := by
  refine ((run_keeps F hnum hclock hsmall).mono ?_).mono_error ?_
  · intro s h
    have hcell : cell A (start / A.binWidthMs) s.done = fun i b => toI32 (total A s.done i b) :=
      funext fun i => funext fun b => cell_add hA (h.history.timely.all hadd)
    exact ⟨hcell ▸ h.shows, h.history.timely⟩
  · refine fun f hf => hf.mono fun before s c hpre hrun hcall hbad => not_lt.mp fun hlt => ?_
    have hkeeps := keeps_of_prefix hnum hclock hsmall hpre hrun
    have hneg := hbad.2
    rw [cell_add hA (hkeeps.history.timely.all hadd), toI32_of_range (by omega) (by omega)] at hneg
    omega

/-- Two calls in the first bin, and the animation later. -/
def twoPacketTurns : List GraphTurn :=
  List.replicate 5 ⟨.counting, 10, 640⟩ ++ List.replicate 3 ⟨.counting, 200, 640⟩ ++
    List.replicate 15 ⟨.animation, 1000, 640⟩

theorem throughput_counts_twoPackets : ∃ s,
    run (step Floats.exact ⟨1, 500, by decide, 0⟩) twoPacketTurns
      (ofArgs ⟨1, 500, by decide, 0⟩ [⟨.add, 0, 40⟩, ⟨.add, 0, 1500⟩] 0) = .ok s ∧
    s.graph.lines = [⟨0, [(0, 0), (1, 1540), (2, 0)]⟩] ∧
    Timely 0 [⟨.add, 0, 40⟩, ⟨.add, 0, 1500⟩] twoPacketTurns s.done := by
  have hrun : (run (step Floats.exact ⟨1, 500, by decide, 0⟩) twoPacketTurns
      (ofArgs ⟨1, 500, by decide, 0⟩ [⟨.add, 0, 40⟩, ⟨.add, 0, 1500⟩] 0)).map
      (fun s => s.graph.lines) = .ok [⟨0, [(0, 0), (1, 1540), (2, 0)]⟩] := by
    decide +kernel
  obtain ⟨s, hs, hlines⟩ := of_map_ok hrun
  exact ⟨s, hs, hlines,
    ((throughput_counts rfl (by decide) (by decide) (by decide) (by decide)).of_ok hs).2⟩

/-! ### A graph of maxima -/

theorem value_setMax {e : Call} {x : Int} (hop : e.op = .setMax) (hamount : e.amount < 2 ^ 31)
    (hx : -1 ≤ x) (hlt : x < 2 ^ 31) : e.value x = max x e.amount := by
  have hkeeps : toI32 e.amount = e.amount := toI32_of_range (by omega) (by omega)
  rw [Call.value, hop]
  dsimp only
  split
  next hneg => rw [hkeeps, max_eq_right (by omega)]
  next hpos =>
    rw [toU32_of_range (by omega) (by omega), toI32_of_range (by omega) (by omega), Nat.cast_max,
      Int.toNat_of_nonneg (by omega)]

/-- The amounts counted on line `i` in bin `b`, and the value it began with. -/
def counted (A : GraphArgs) (first : Nat) (done : List CountedCall) (i b : Nat) : Set Int :=
  {x | x = fresh A first b ∨ ∃ e ∈ done, InBin A i b e ∧ x = e.amount}

theorem counted_concat : counted A first (done ++ [e]) i b =
    if InBin A i b e then insert (e.amount : Int) (counted A first done i b)
    else counted A first done i b := by
  ext x
  by_cases he : InBin A i b e <;>
    simp [counted, he, or_and_right, exists_or, or_left_comm, or_comm]

theorem cell_setMax (hA : A.initial = -1) (hop : ∀ e ∈ done, e.op = .setMax)
    (hamount : ∀ e ∈ done, e.amount < 2 ^ 31) :
    IsGreatest (counted A first done i b) (cell A first done i b) := by
  induction done using List.reverseRecOn with
  | nil => simp [counted, cell]
  | append_singleton done e ih =>
      simp only [List.forall_mem_append, List.forall_mem_singleton] at hop hamount
      have hgreatest := ih hop.1 hamount.1
      rw [counted_concat, cell_concat]
      by_cases he : InBin A i b e
      · have hfresh : -1 ≤ fresh A first b ∧ fresh A first b < 2 ^ 31 := by
          unfold fresh
          split <;> omega
        have hlow : -1 ≤ cell A first done i b := hfresh.1.trans (hgreatest.2 (.inl rfl))
        have hhigh : cell A first done i b < 2 ^ 31 := by
          rcases hgreatest.1 with heq | ⟨e', he', -, heq⟩
          · rw [heq]
            exact hfresh.2
          · have := hamount.1 e' he'
            omega
        rw [if_pos he, if_pos he, value_setMax hop.2 hamount.2 hlow hhigh, max_comm]
        exact hgreatest.insert _
      · rwa [if_neg he, if_neg he]

/-- **A graph of maxima** shows the greatest of what was counted in each bin, and no call throws. -/
theorem delay_counts (hA : A.initial = -1) (hnum : ∀ c ∈ calls, c.num < A.lines)
    (hmax : ∀ c ∈ calls, c.op = .setMax) (hamount : ∀ c ∈ calls, c.amount < 2 ^ 31)
    (hclock : (start :: turns.map GraphTurn.now).Pairwise (· ≤ ·))
    (hsmall : ∀ t ∈ start :: turns.map GraphTurn.now, t < 2 ^ 31) :
    Ensures (Stops F A start calls turns fun _ _ => False)
      (fun s => ∃ value : Nat → Nat → Int, Shows A value (start / A.binWidthMs) s ∧
        (∀ i b, IsGreatest (counted A (start / A.binWidthMs) s.done i b) (value i b)) ∧
        Timely start calls turns s.done)
      (run (step F A) turns (ofArgs A calls start)) := by
  refine ((run_keeps F hnum hclock hsmall).mono ?_).mono_error ?_
  · rintro s h
    exact ⟨cell A (start / A.binWidthMs) s.done, h.shows, fun i b =>
      cell_setMax hA (h.history.timely.all hmax) (h.history.timely.all hamount), h.history.timely⟩
  · refine fun f hf => hf.mono fun before s c hpre hrun hcall hbad => ?_
    have hkeeps := keeps_of_prefix hnum hclock hsmall hpre hrun
    have hc : c ∈ calls := by
      rw [← hkeeps.history.order]
      exact List.mem_append_right _ (List.mem_of_mem_head? hcall)
    cases (hmax c hc).symm.trans hbad.1

/-- A packet that waited 7 ms and one that waited 3. -/
theorem delay_counts_twoPackets : ∃ (s : GraphThreads) (value : Nat → Nat → Int),
    run (step Floats.exact ⟨1, 250, by decide, -1⟩) twoPacketTurns
      (ofArgs ⟨1, 250, by decide, -1⟩ [⟨.setMax, 0, 7⟩, ⟨.setMax, 0, 3⟩] 0) = .ok s ∧
    s.graph.lines = [⟨-1, [(0, 0), (1, 7), (2, -1), (3, -1), (4, -1)]⟩] ∧
    Shows ⟨1, 250, by decide, -1⟩ value 0 s ∧ value 0 4 = -1 ∧
    Timely 0 [⟨.setMax, 0, 7⟩, ⟨.setMax, 0, 3⟩] twoPacketTurns s.done := by
  have hrun : (run (step Floats.exact ⟨1, 250, by decide, -1⟩) twoPacketTurns
      (ofArgs ⟨1, 250, by decide, -1⟩ [⟨.setMax, 0, 7⟩, ⟨.setMax, 0, 3⟩] 0)).map
      (fun s => (s.graph, s.advancing)) =
      .ok (⟨[⟨-1, [(0, 0), (1, 7), (2, -1), (3, -1), (4, -1)]⟩], 4, true⟩, none) := by
    decide +kernel
  obtain ⟨s, hs, hshown⟩ := of_map_ok hrun
  obtain ⟨hgraph, hfree⟩ := Prod.mk.inj hshown
  obtain ⟨value, hshows, -, htimely⟩ :=
    (delay_counts rfl (by decide) (by decide) (by decide) (by decide) (by decide)).of_ok hs
  have hlines := congrArg BinnedLiveGraph.lines hgraph
  have hvalue := (hshows.lines 0 _ (by rw [hlines]; rfl)).current
  rw [valueBin, hgraph, hfree] at hvalue
  exact ⟨s, value, hs, hlines, hshows, hvalue.symm, htimely⟩

end GraphThreads

end Mahimahi
