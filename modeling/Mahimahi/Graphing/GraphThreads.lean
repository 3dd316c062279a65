import Mahimahi.Graphing.BinnedLiveGraph

/-!
# Graphing — the threads of a graph

* `step_counts`: what a turn keeps, whoever has it.
* `run_counts`: whatever the threads do in whichever order, every bin that is over has a point on
  every line, in order, and shows what was counted in it, until it is five seconds old; every call
  is counted once, in the bin of a reading of the clock between its beginning and its end.
-/

open Fallible

namespace Mahimahi

open BinnedLiveGraph

namespace GraphThreads

variable {A : GraphArgs} {first clock i b c : Nat} {done : List CountedCall} {e : CountedCall}
  {added : Prop} {l : GraphLine}

/-! ### Where the threads are -/

/-- The lines that have a point for the current bin. -/
def placedLines (a : Advance) : Nat := if a.placed then a.line + 1 else a.line

/-- 1 for the first `k` lines. -/
def passed (k i : Nat) : Nat := if i < k then 1 else 0

@[simp] theorem passed_zero (i : Nat) : passed 0 i = 0 := rfl

@[simp] theorem passed_self (k : Nat) : passed k k = 0 := if_neg (lt_irrefl k)

theorem passed_of_lt {k i : Nat} (h : i < k) : passed k i = 1 := if_pos h

theorem passed_succ {k i : Nat} (h : i ≠ k) : passed (k + 1) i = passed k i :=
  if_congr (by omega) rfl rfl

/-- The value of line `i` is for this bin. -/
def valueBin (s : GraphThreads) (i : Nat) : Nat :=
  s.graph.currentBin + passed (s.advancing.elim 0 Advance.line) i

/-- The bins before this one have a point on line `i`. -/
def closedBins (s : GraphThreads) (i : Nat) : Nat :=
  s.graph.currentBin + passed (s.advancing.elim 0 placedLines) i

/-- The graph shows `value i` on line `i`.  While nobody is in `advance`, it has come to the bin of
the clock. -/
structure Shows (A : GraphArgs) (value : Nat → Nat → Int) (first : Nat) (s : GraphThreads) :
    Prop where
  length : s.graph.lines.length = A.lines
  lines : ∀ i l, s.graph.lines[i]? = some l →
    OnLine A (value i) first s.clock (s.valueBin i) (s.closedBins i) (i < s.added) l
  current : s.advancing = none → s.graph.currentBin = s.clock / A.binWidthMs

/-- The thread had a turn when the clock showed `t`. -/
def At (turns : List GraphTurn) (thread : GraphThread) (t : Nat) : Prop :=
  ∃ turn ∈ turns, turn.thread = thread ∧ turn.now = t

/-- The calls were made in order, one after the other, and each was counted in the bin of a reading
of the clock between its own first and last turns. -/
structure Timely (start : Nat) (calls : List Call) (turns : List GraphTurn)
    (done : List CountedCall) : Prop where
  order : done.map CountedCall.toCall <+: calls
  turns : ∀ e ∈ done, At turns .counting e.began ∧ At turns .counting e.ended ∧
    e.counted ∈ start :: turns.map GraphTurn.now
  between : ∀ e ∈ done, e.began ≤ e.counted ∧ e.counted ≤ e.ended
  apart : done.Pairwise fun e e' => e.ended ≤ e'.began

/-- What the threads have done, and `left` is still to be counted. -/
structure History (start : Nat) (calls : List Call) (turns : List GraphTurn) (left : List Call)
    (done : List CountedCall) (advanced drawing : Option Nat) (clock : Nat) : Prop where
  order : done.map CountedCall.toCall ++ left = calls
  timely : Timely start calls turns done
  advanced : ∀ t ∈ advanced, At turns .counting t ∧ t ≤ clock ∧ ∀ e ∈ done, e.ended ≤ t
  drawing : ∀ t ∈ drawing, t ≤ clock
  clock : clock ∈ start :: turns.map GraphTurn.now

/-- A thread is in `advance`. -/
structure Held (A : GraphArgs) (turns : List GraphTurn) (currentBin : Nat)
    (done : List CountedCall) (clock : Nat) (a : Advance) : Prop where
  turn : At turns a.thread a.now
  now : a.now = clock
  inside : a.line ≠ 0 ∨ a.placed = true → currentBin < clock / A.binWidthMs
  line : a.line ≤ A.lines
  placed : a.placed = true → a.line < A.lines
  done : ∀ e ∈ done, e.ended ≤ a.now

/-- Where the threads are after `turns`. -/
structure Counts (A : GraphArgs) (start : Nat) (calls : List Call) (turns : List GraphTurn)
    (s : GraphThreads) : Prop where
  shows : Shows A (cell A (start / A.binWidthMs) s.done) (start / A.binWidthMs) s
  history : History start calls turns s.calls s.done s.advanced s.drawing s.clock
  held : ∀ a ∈ s.advancing, Held A turns s.graph.currentBin s.done s.clock a
  started : start / A.binWidthMs ≤ s.graph.currentBin
  bin : s.graph.currentBin ≤ s.clock / A.binWidthMs
  past : ∀ e ∈ s.done, e.counted / A.binWidthMs ≤ s.graph.currentBin
  constructed : s.graph.constructed = false → ∀ turn ∈ turns, turn.thread = .animation

variable {start : Nat} {calls left : List Call} {turns : List GraphTurn} {turn : GraphTurn}
  {s : GraphThreads} {a : Advance} {advanced drawing : Option Nat} {currentBin : Nat}

theorem At.snoc {thread : GraphThread} {t : Nat} (h : At turns thread t) (turn : GraphTurn) :
    At (turns ++ [turn]) thread t := by
  obtain ⟨turn', hturn, h⟩ := h
  exact ⟨turn', List.mem_append_left _ hturn, h⟩

theorem At.mem {thread : GraphThread} {t : Nat} (h : At turns thread t) :
    t ∈ start :: turns.map GraphTurn.now := by
  obtain ⟨turn, hturn, -, rfl⟩ := h
  exact List.mem_cons_of_mem _ (List.mem_map_of_mem hturn)

theorem mem_snoc {t : Nat} (h : t ∈ start :: turns.map GraphTurn.now) (turn : GraphTurn) :
    t ∈ start :: (turns ++ [turn]).map GraphTurn.now := by
  rw [List.map_append, ← List.cons_append]
  exact List.mem_append_left _ h

theorem Timely.snoc (h : Timely start calls turns done) (turn : GraphTurn) :
    Timely start calls (turns ++ [turn]) done where
  order := h.order
  turns e he := by
    obtain ⟨hbegan, hended, hcounted⟩ := h.turns e he
    exact ⟨hbegan.snoc turn, hended.snoc turn, mem_snoc hcounted turn⟩
  between := h.between
  apart := h.apart

theorem History.snoc (h : History start calls turns left done advanced drawing clock)
    (turn : GraphTurn) :
    History start calls (turns ++ [turn]) left done advanced drawing clock where
  order := h.order
  timely := h.timely.snoc turn
  advanced t ht := by
    obtain ⟨hat, hle, hdone⟩ := h.advanced t ht
    exact ⟨hat.snoc turn, hle, hdone⟩
  drawing := h.drawing
  clock := mem_snoc h.clock turn

/-- The thread has counted. -/
theorem History.count
    (h : History start calls turns (e.toCall :: left) done (some e.began) drawing clock)
    (hcounted : e.counted = clock) (hended : At turns .counting e.ended)
    (hle : clock ≤ e.ended) :
    History start calls turns left (done ++ [e]) none drawing clock := by
  obtain ⟨hat, hbegan, hlast⟩ := h.advanced e.began rfl
  have horder : (done ++ [e]).map CountedCall.toCall ++ left = calls := by
    rw [List.map_append, List.append_assoc]
    exact h.order
  refine ⟨horder, ⟨⟨left, horder⟩, ?_, ?_, ?_⟩, fun t ht => (by cases ht), h.drawing, h.clock⟩
  · refine List.forall_mem_append.mpr ⟨h.timely.turns, List.forall_mem_singleton.mpr ?_⟩
    exact ⟨hat, hended, hcounted ▸ h.clock⟩
  · refine List.forall_mem_append.mpr ⟨h.timely.between, List.forall_mem_singleton.mpr ?_⟩
    exact ⟨hcounted ▸ hbegan, hcounted ▸ hle⟩
  · refine List.pairwise_append.mpr ⟨h.timely.apart, List.pairwise_singleton _ _, ?_⟩
    exact fun e' he' => List.forall_mem_singleton.mpr (hlast e' he')

theorem Held.snoc (h : Held A turns currentBin done clock a) (turn : GraphTurn) :
    Held A (turns ++ [turn]) currentBin done clock a :=
  { h with turn := h.turn.snoc turn }

/-- The value of the call's line is negative, and the call adds to it. -/
def AddsToDefault (A : GraphArgs) (first : Nat) (s : GraphThreads) (c : Call) : Prop :=
  c.op = .add ∧ cell A first s.done c.num (s.clock / A.binWidthMs) < 0

/-- What is kept line by line. -/
theorem forall_modify {P Q : Nat → GraphLine → Prop} {f : GraphLine → GraphLine} {k : Nat}
    {lines : List GraphLine} (h : ∀ i l, lines[i]? = some l → P i l)
    (hk : ∀ l, P k l → Q k (f l)) (hother : ∀ i l, i ≠ k → P i l → Q i l) :
    ∀ i l, (lines.modify k f)[i]? = some l → Q i l := by
  intro i l hl
  rw [List.getElem?_modify] at hl
  obtain ⟨l₀, hl₀, rfl⟩ := Option.map_eq_some_iff.mp hl
  by_cases hi : k = i
  · subst hi
    rw [if_pos rfl]
    exact hk l₀ (h k l₀ hl₀)
  · rw [if_neg hi]
    exact hother i l₀ (Ne.symm hi) (h i l₀ hl₀)

namespace Counts

/-- The thread waits, or has nothing to do. -/
theorem idle (h : Counts A start calls turns s) (turn : GraphTurn)
    (hturn : s.graph.constructed = true ∨ turn.thread = .animation) :
    Counts A start calls (turns ++ [turn]) s where
  shows := h.shows
  history := h.history.snoc turn
  held a ha := (h.held a ha).snoc turn
  started := h.started
  bin := h.bin
  past := h.past
  constructed hnot := by
    refine List.forall_mem_append.mpr ⟨h.constructed hnot, List.forall_mem_singleton.mpr ?_⟩
    exact hturn.resolve_left fun hconstructed => by
      rw [hnot] at hconstructed
      cases hconstructed

theorem construct (h : Counts A start calls turns s) (turn : GraphTurn) :
    Counts A start calls (turns ++ [turn])
      { s with graph := { s.graph with constructed := true } } where
  shows := ⟨h.shows.length, h.shows.lines, h.shows.current⟩
  history := h.history.snoc turn
  held a ha := (h.held a ha).snoc turn
  started := h.started
  bin := h.bin
  past := h.past
  constructed hnot := by cases hnot

/-- A thread locks the mutex and reads the clock. -/
theorem lock (h : Counts A start calls turns s) (hfree : s.advancing = none)
    (hturn : turn ∈ turns) (hnow : ∀ t ∈ start :: turns.map GraphTurn.now, t ≤ turn.now) :
    Counts A start calls turns
      { s with
        advancing := some { thread := turn.thread, now := turn.now }, clock := turn.now } := by
  have hclock := hnow _ h.history.clock
  have hbin := Nat.div_le_div_right (c := A.binWidthMs) hclock
  refine ⟨⟨h.shows.length, fun i l hl => ?_, fun hnone => by cases hnone⟩, ?_, ?_, h.started,
    h.bin.trans hbin, h.past, h.constructed⟩
  · have hline := (h.shows.lines i l hl).later hclock
    simp only [valueBin, closedBins, hfree, Option.elim_none] at hline
    exact hline
  · refine { h.history with advanced := ?_, drawing := ?_, clock := ?_ }
    · intro t ht
      obtain ⟨hat, hle, hdone⟩ := h.history.advanced t ht
      exact ⟨hat, hle.trans hclock, hdone⟩
    · exact fun t ht => (h.history.drawing t ht).trans hclock
    · exact List.mem_cons_of_mem _ (List.mem_map_of_mem hturn)
  · rintro a ⟨⟩
    refine ⟨⟨turn, hturn, rfl, rfl⟩, rfl, ?_, Nat.zero_le _, ?_, ?_⟩
    · rintro (hline | hplaced)
      · exact absurd rfl hline
      · cases hplaced
    · intro hplaced
      cases hplaced
    · exact fun e he => hnow _ (h.history.timely.turns e he).2.1.mem

/-- A line gets the point of the bin that is over. -/
theorem place (h : Counts A start calls turns s) (ha : s.advancing = some a)
    (hplaced : a.placed = false) (hline : a.line < s.graph.lines.length)
    (hbehind : s.graph.currentBin < a.now / A.binWidthMs) :
    Counts A start calls turns
      { s with
        graph := { s.graph with
          lines := s.graph.lines.modify a.line fun l =>
            l.addDataPoint (s.graph.currentBin + 1, l.valueThisBin) }
        advancing := some { a with placed := true } } := by
  have hheld := h.held a ha
  refine ⟨⟨?_, ?_, fun hnone => by cases hnone⟩, h.history, ?_, h.started, h.bin, h.past,
    h.constructed⟩
  · exact (List.length_modify _ _ _).trans h.shows.length
  · refine forall_modify h.shows.lines ?_ ?_
    · intro l hl
      simp only [valueBin, closedBins, ha, Option.elim_some, placedLines, hplaced,
        Bool.false_eq_true, if_false, if_true, passed_self, passed_of_lt (Nat.lt_succ_self _),
        add_zero] at hl ⊢
      exact hl.place h.started
    · intro i l hi hl
      simp only [valueBin, closedBins, ha, Option.elim_some, placedLines, hplaced,
        Bool.false_eq_true, if_false, if_true, passed_succ hi] at hl ⊢
      exact hl
  · rintro a' ⟨⟩
    exact { hheld with
      inside := fun _ => hheld.now ▸ hbehind
      placed := fun _ => h.shows.length ▸ hline }

/-- The value of a line is reset. -/
theorem reset (h : Counts A start calls turns s) (ha : s.advancing = some a)
    (hplaced : a.placed = true) :
    Counts A start calls turns
      { s with
        graph := { s.graph with
          lines := s.graph.lines.modify a.line fun l => { l with valueThisBin := A.initial } }
        advancing := some { a with line := a.line + 1, placed := false } } := by
  have hheld := h.held a ha
  refine ⟨⟨?_, ?_, fun hnone => by cases hnone⟩, h.history, ?_, h.started, h.bin, h.past,
    h.constructed⟩
  · exact (List.length_modify _ _ _).trans h.shows.length
  · refine forall_modify h.shows.lines ?_ ?_
    · intro l hl
      simp only [valueBin, closedBins, ha, Option.elim_some, placedLines, hplaced,
        Bool.false_eq_true, if_false, if_true, passed_self, passed_of_lt (Nat.lt_succ_self _),
        add_zero] at hl ⊢
      exact hl.reset (cell_fresh (fun e he => Nat.lt_succ_of_le (h.past e he))
        (Nat.lt_succ_of_le h.started)).symm
    · intro i l hi hl
      simp only [valueBin, closedBins, ha, Option.elim_some, placedLines, hplaced,
        Bool.false_eq_true, if_false, if_true, passed_succ hi] at hl ⊢
      exact hl
  · rintro a' ⟨⟩
    refine { hheld with inside := fun _ => hheld.inside (.inr hplaced), line := ?_, placed := ?_ }
    · exact hheld.placed hplaced
    · intro hfalse
      cases hfalse

/-- All lines have come to the next bin. -/
theorem next (h : Counts A start calls turns s) (ha : s.advancing = some a)
    (hline : ¬ a.line < s.graph.lines.length)
    (hbehind : s.graph.currentBin < a.now / A.binWidthMs) :
    Counts A start calls turns
      { s with
        graph := { s.graph with currentBin := s.graph.currentBin + 1 }
        advancing := some { a with line := 0, placed := false } } := by
  have hheld := h.held a ha
  refine ⟨⟨h.shows.length, ?_, fun hnone => by cases hnone⟩, h.history, ?_,
    Nat.le_succ_of_le h.started, hheld.now ▸ hbehind, fun e he => Nat.le_succ_of_le (h.past e he),
    h.constructed⟩
  · intro i l hl
    have hlt : i < a.line :=
      (List.getElem?_eq_some_iff.mp hl).1.trans_le (not_lt.mp hline)
    have hplaced : i < placedLines a := by
      unfold placedLines
      split <;> omega
    have hshown := h.shows.lines i l hl
    simp only [valueBin, closedBins, ha, Option.elim_some, passed_of_lt hlt, passed_of_lt hplaced]
      at hshown
    exact hshown
  · rintro a' ⟨⟩
    refine { hheld with inside := ?_, line := Nat.zero_le _, placed := ?_ }
    · rintro (hzero | hfalse)
      · exact absurd rfl hzero
      · cases hfalse
    · intro hfalse
      cases hfalse

/-- The mutex is unlocked. -/
theorem leave (h : Counts A start calls turns s) (ha : s.advancing = some a)
    (hcome : ¬ s.graph.currentBin < a.now / A.binWidthMs) :
    Shows A (cell A (start / A.binWidthMs) s.done) (start / A.binWidthMs)
      { s with advancing := none } := by
  have hheld := h.held a ha
  rw [hheld.now] at hcome
  obtain ⟨hline, hplaced⟩ := not_or.mp (mt hheld.inside hcome)
  refine ⟨h.shows.length, fun i l hl => ?_, fun _ => le_antisymm h.bin (not_lt.mp hcome)⟩
  have hshown := h.shows.lines i l hl
  simp only [valueBin, closedBins, ha, Option.elim_some, placedLines, hplaced, not_not.mp hline,
    Bool.false_eq_true, if_false] at hshown
  exact hshown

theorem leave_animation (h : Counts A start calls turns s) (ha : s.advancing = some a)
    (hcome : ¬ s.graph.currentBin < a.now / A.binWidthMs) :
    Counts A start calls turns { s with advancing := none, drawing := some a.now } where
  shows := ⟨(h.leave ha hcome).length, (h.leave ha hcome).lines, (h.leave ha hcome).current⟩
  history := { h.history with
    drawing := by
      rintro t ⟨⟩
      exact (h.held a ha).now.le }
  held a ha := by cases ha
  started := h.started
  bin := h.bin
  past := h.past
  constructed := h.constructed

theorem leave_counting (h : Counts A start calls turns s) (ha : s.advancing = some a)
    (hcome : ¬ s.graph.currentBin < a.now / A.binWidthMs) (hthread : a.thread = .counting) :
    Counts A start calls turns { s with advancing := none, advanced := some a.now } where
  shows := ⟨(h.leave ha hcome).length, (h.leave ha hcome).lines, (h.leave ha hcome).current⟩
  history := { h.history with
    advanced := by
      rintro t ⟨⟩
      have hheld := h.held a ha
      exact ⟨hthread ▸ hheld.turn, hheld.now.le, hheld.done⟩ }
  held a ha := by cases ha
  started := h.started
  bin := h.bin
  past := h.past
  constructed := h.constructed

theorem closedBins_le (h : Counts A start calls turns s) (i : Nat) :
    s.closedBins i ≤ s.clock / A.binWidthMs := by
  cases ha : s.advancing with
  | none =>
      rw [closedBins, ha]
      exact h.bin
  | some a =>
      have hheld := h.held a ha
      rw [closedBins, ha, Option.elim_some]
      by_cases hi : i < placedLines a
      · have hinside : a.line ≠ 0 ∨ a.placed = true := by
          unfold placedLines at hi
          split at hi
          next hplaced => exact .inr hplaced
          next => exact .inl (Nat.ne_of_gt (Nat.zero_lt_of_lt hi))
        rw [passed_of_lt hi]
        exact hheld.inside hinside
      · rw [passed, if_neg hi]
        exact h.bin

/-- Old points are dropped. -/
theorem draw {F : Floats} {ts : Nat} (h : Counts A start calls turns s)
    (hts : s.drawing = some ts) (hclock : s.clock < 2 ^ 31) (windowWidth : UInt16) :
    Counts A start calls turns (s.draw F A ts windowWidth) where
  shows := by
    refine ⟨(List.length_map _).trans h.shows.length, fun i l hl => ?_, h.shows.current⟩
    rw [GraphThreads.draw, List.getElem?_map] at hl
    obtain ⟨l₀, hl₀, rfl⟩ := Option.map_eq_some_iff.mp hl
    exact (h.shows.lines i l₀ hl₀).draw (h.closedBins_le i) (h.history.drawing ts hts) hclock
      windowWidth
  history := { h.history with
    drawing := by
      intro t ht
      cases ht }
  held := h.held
  started := h.started
  bin := h.bin
  past := h.past
  constructed := h.constructed

/-- A line gets the point at the origin. -/
theorem add (h : Counts A start calls turns s) :
    Counts A start calls turns
      { s with
        graph := { s.graph with
          lines := s.graph.lines.modify s.added (GraphLine.addDataPoint (0, 0)) }
        added := s.added + 1 } where
  shows := by
    refine ⟨(List.length_modify _ _ _).trans h.shows.length, ?_, h.shows.current⟩
    refine forall_modify h.shows.lines ?_ ?_
    · intro l hl
      simp only [lt_irrefl, Nat.lt_succ_self] at hl ⊢
      exact hl.add (h.started.trans (Nat.le_add_right _ _))
    · intro i l hi hl
      have hiff : i < s.added + 1 ↔ i < s.added := by omega
      simp only [hiff]
      exact hl
  history := h.history
  held := h.held
  started := h.started
  bin := h.bin
  past := h.past
  constructed := h.constructed

/-- **What counting does.** -/
theorem count {c : Call} {rest : List Call} {began : Nat} (h : Counts A start calls turns s)
    (hcalls : s.calls = c :: rest) (hadvanced : s.advanced = some began)
    (hfree : s.advancing = none) (hturn : turn ∈ turns) (hthread : turn.thread = .counting)
    (hnow : s.clock ≤ turn.now) (hnum : c.num < A.lines) :
    Ensures (fun f => f = .defaultValue ∧ AddsToDefault A (start / A.binWidthMs) s c)
      (fun graph => Counts A start calls turns
        { s with
          graph
          calls := rest
          advanced := none
          done := s.done ++ [{ c with began, counted := s.clock, ended := turn.now }] })
      (s.graph.count c) := by
  have hcurrent := h.shows.current hfree
  have hlt : c.num < s.graph.lines.length := h.shows.length.symm ▸ hnum
  have hline := h.shows.lines c.num _ (List.getElem?_eq_getElem hlt)
  have hvalue := hline.current
  simp only [valueBin, hfree, Option.elim_none, passed_zero, add_zero, hcurrent] at hvalue
  rw [BinnedLiveGraph.count, List.getElem?_eq_getElem hlt]
  dsimp only
  split
  next hneg => exact ⟨rfl, hneg.1, hvalue ▸ hneg.2⟩
  next =>
    refine ⟨⟨(List.length_modify _ _ _).trans h.shows.length, ?_, h.shows.current⟩, ?_, ?_,
      h.started, h.bin, ?_, h.constructed⟩
    · refine forall_modify h.shows.lines ?_ ?_
      · intro l hl
        simp only [valueBin, closedBins, hfree, Option.elim_none, passed_zero, add_zero] at hl ⊢
        refine hl.count ?_ fun bin hbin => ?_
        · rw [cell_concat, if_pos ⟨rfl, hcurrent.symm⟩, hl.current]
        · rw [cell_concat, if_neg fun hin => hbin.ne (hin.2.symm.trans hcurrent.symm)]
      · intro i l hi hl
        simp only [valueBin, closedBins, hfree, Option.elim_none, passed_zero, add_zero] at hl ⊢
        have hother : ∀ bin, cell A (start / A.binWidthMs) s.done i bin =
            cell A (start / A.binWidthMs)
              (s.done ++ [{ c with began, counted := s.clock, ended := turn.now }]) i bin :=
          fun bin => by rw [cell_concat, if_neg fun hin => hi hin.1.symm]
        exact hl.count (hl.current.trans (hother _)) fun bin _ => hother bin
    · have hhistory := h.history
      rw [hcalls, hadvanced] at hhistory
      exact hhistory.count (e := { c with began, counted := s.clock, ended := turn.now }) rfl
        ⟨turn, hturn, hthread, rfl⟩ hnow
    · intro a ha
      rw [hfree] at ha
      cases ha
    · exact List.forall_mem_append.mpr ⟨h.past, List.forall_mem_singleton.mpr hcurrent.ge⟩

end Counts

/-! ### Runs of the threads -/

theorem counts_start (A : GraphArgs) (calls : List Call) (start : Nat) :
    Counts A start calls [] (ofArgs A calls start) where
  shows := by
    refine ⟨List.length_replicate, fun i l hl => ?_, fun _ => rfl⟩
    obtain ⟨-, rfl⟩ := List.mem_replicate.mp (List.mem_of_getElem? hl)
    refine ⟨?_, none, by simp [ofArgs], by simp, ?_⟩
    · simp [valueBin, ofArgs, BinnedLiveGraph.ofArgs, cell, fresh]
    · show LeftOf _ _ (bins _ _ _) []
      rw [show (ofArgs A calls start).closedBins i = start / A.binWidthMs from rfl, bins_self]
      exact LeftOf.refl []
  history := ⟨rfl, ⟨List.nil_prefix, by simp [ofArgs], by simp [ofArgs], .nil⟩, by simp [ofArgs],
    by simp [ofArgs], List.mem_cons_self⟩
  held a ha := by cases ha
  started := le_rfl
  bin := le_rfl
  past := by simp [ofArgs]
  constructed := by simp

/-- The animation has had all the turns, and has read a time after the first bin. -/
def Early (A : GraphArgs) (start : Nat) (turns : List GraphTurn) : Prop :=
  (∀ turn ∈ turns, turn.thread = .animation) ∧
    ∃ turn ∈ turns, start / A.binWidthMs < turn.now / A.binWidthMs

theorem advanceOn_counts (h : Counts A start calls turns s) (ha : s.advancing = some a) :
    Ensures (fun f => f = .unconstructed ∧ Early A start turns) (Counts A start calls turns)
      (s.advanceOn A a) := by
  unfold advanceOn
  dsimp only
  split
  next hbehind =>
    split
    next hline =>
      split
      next hplaced =>
        split
        next => exact h.reset ha hplaced
        next hnot =>
          obtain ⟨turn, hturn, -, hnow⟩ := (h.held a ha).turn
          refine ⟨rfl, h.constructed (Bool.eq_false_iff.mpr hnot), turn, hturn, ?_⟩
          rw [hnow]
          exact h.started.trans_lt hbehind
      next hplaced => exact h.place ha (Bool.eq_false_iff.mpr hplaced) hline hbehind
    next hline => exact h.next ha hline hbehind
  next hcome =>
    split
    next => exact h.leave_animation ha hcome
    next hthread => exact h.leave_counting ha hcome hthread

theorem advance_counts (h : Counts A start calls turns s) (hturn : turn ∈ turns)
    (hnow : ∀ t ∈ start :: turns.map GraphTurn.now, t ≤ turn.now) :
    Ensures (fun f => f = .unconstructed ∧ Early A start turns) (Counts A start calls turns)
      (s.advance A turn) := by
  unfold GraphThreads.advance
  split
  next hfree => exact h.lock hfree hturn hnow
  next a ha =>
    split
    next => exact advanceOn_counts h ha
    next => exact h

/-- **What a turn keeps.** -/
theorem step_counts (F : Floats) (h : Counts A start calls turns s)
    (hnum : ∀ c ∈ calls, c.num < A.lines) (hsmall : s.clock < 2 ^ 31)
    (hnow : ∀ t ∈ start :: turns.map GraphTurn.now, t ≤ turn.now) :
    Ensures (fun f => f = .unconstructed ∧ Early A start (turns ++ [turn]) ∨
        f = .defaultValue ∧ ∃ c ∈ s.calls.head?, AddsToDefault A (start / A.binWidthMs) s c)
      (Counts A start calls (turns ++ [turn])) (step F A turn s) := by
  have hturn : turn ∈ turns ++ [turn] := List.mem_append_right _ (List.mem_singleton_self _)
  have hnow' : ∀ t ∈ start :: (turns ++ [turn]).map GraphTurn.now, t ≤ turn.now := by
    rw [List.map_append, ← List.cons_append]
    exact List.forall_mem_append.mpr ⟨hnow, List.forall_mem_singleton.mpr le_rfl⟩
  unfold step
  split
  next hthread =>
    have hidle := h.idle turn (.inr hthread)
    split
    next ts hts => exact hidle.draw hts hsmall turn.windowWidth
    next => exact (advance_counts hidle hturn hnow').mono_error fun f hf => .inl hf
  next hthread =>
    split
    next => exact h.construct turn
    next hconstructed =>
      have hidle := h.idle turn (.inl (by simpa using hconstructed))
      split
      next => exact hidle.add
      next =>
        split
        next => exact hidle
        next => exact (advance_counts hidle hturn hnow').mono_error fun f hf => .inl hf
        next c rest began hcalls hadvanced =>
          split
          next => exact hidle
          next hfree =>
            have hc : c ∈ calls := by
              rw [← h.history.order, hcalls]
              exact List.mem_append_right _ List.mem_cons_self
            refine Ensures.bind ((hidle.count hcalls hadvanced (by simpa using hfree) hturn hthread
              (hnow _ h.history.clock) (hnum c hc)).mono_error ?_) fun graph hgraph => hgraph
            rintro f ⟨hf, hbad⟩
            exact .inr ⟨hf, c, by rw [hcalls]; rfl, hbad⟩

/-- Why a run stops.  `Bad` says of a state of the run and the next call that the call throws. -/
inductive Stops (F : Floats) (A : GraphArgs) (start : Nat) (calls : List Call)
    (turns : List GraphTurn) (Bad : GraphThreads → Call → Prop) : GraphFault → Prop
  | unconstructed {done : List GraphTurn} (hpre : done <+: turns) (hearly : Early A start done) :
      Stops F A start calls turns Bad .unconstructed
  | defaultValue {done : List GraphTurn} {s : GraphThreads} {c : Call} (hpre : done <+: turns)
      (hrun : run (step F A) done (ofArgs A calls start) = .ok s) (hcall : s.calls.head? = some c)
      (hbad : Bad s c) : Stops F A start calls turns Bad .defaultValue

/-- What a run keeps. -/
theorem run_keeps (F : Floats) (hnum : ∀ c ∈ calls, c.num < A.lines)
    (hclock : (start :: turns.map GraphTurn.now).Pairwise (· ≤ ·))
    (hsmall : ∀ t ∈ start :: turns.map GraphTurn.now, t < 2 ^ 31) :
    Ensures (Stops F A start calls turns (AddsToDefault A (start / A.binWidthMs)))
      (Counts A start calls turns) (run (step F A) turns (ofArgs A calls start)) := by
  refine ensures_run (P := fun done s => Counts A start calls done s)
    (counts_start A calls start) ?_
  intro done s turn h hrun hpre
  have hbefore := (List.prefix_append done [turn]).trans hpre
  have hsorted := hclock.sublist ((hpre.sublist.map GraphTurn.now).cons_cons start)
  rw [List.map_append, ← List.cons_append] at hsorted
  have hmem : s.clock ∈ start :: turns.map GraphTurn.now :=
    ((hbefore.sublist.map GraphTurn.now).cons_cons start).subset h.history.clock
  refine (step_counts F h hnum (hsmall _ hmem) fun t ht =>
    (List.pairwise_append.mp hsorted).2.2 t ht turn.now List.mem_cons_self).mono_error ?_
  rintro f (⟨rfl, hearly⟩ | ⟨rfl, c, hc, hbad⟩)
  · exact .unconstructed hpre hearly
  · exact .defaultValue hbefore hrun hc hbad

theorem keeps_of_prefix {F : Floats} {before : List GraphTurn}
    (hnum : ∀ c ∈ calls, c.num < A.lines)
    (hclock : (start :: turns.map GraphTurn.now).Pairwise (· ≤ ·))
    (hsmall : ∀ t ∈ start :: turns.map GraphTurn.now, t < 2 ^ 31) (hpre : before <+: turns)
    (hrun : run (step F A) before (ofArgs A calls start) = .ok s) :
    Counts A start calls before s := by
  have hsub := (hpre.sublist.map GraphTurn.now).cons_cons start
  exact (run_keeps F hnum (hclock.sublist hsub) fun t ht => hsmall t (hsub.subset ht)).of_ok hrun

/-- **What the threads do, in whichever order.** -/
theorem run_counts (F : Floats) (hnum : ∀ c ∈ calls, c.num < A.lines)
    (hclock : (start :: turns.map GraphTurn.now).Pairwise (· ≤ ·))
    (hsmall : ∀ t ∈ start :: turns.map GraphTurn.now, t < 2 ^ 31) :
    Ensures (Stops F A start calls turns (AddsToDefault A (start / A.binWidthMs)))
      (fun s => Shows A (cell A (start / A.binWidthMs) s.done) (start / A.binWidthMs) s ∧
        Timely start calls turns s.done)
      (run (step F A) turns (ofArgs A calls start)) :=
  (run_keeps F hnum hclock hsmall).mono fun _ h => ⟨h.shows, h.history.timely⟩

/-- The animation closes a bin between the two halves of a call.  When the clock shows 16 s, the
points of the first 7.6 s are dropped, but for the last of them. -/
def betweenTurns : List GraphTurn :=
  List.replicate 2 ⟨.counting, 0, 640⟩ ++ List.replicate 2 ⟨.counting, 3999, 640⟩ ++
    List.replicate 5 ⟨.animation, 4100, 640⟩ ++ [⟨.counting, 4101, 640⟩] ++
    [⟨.animation, 4102, 640⟩] ++ List.replicate 12 ⟨.animation, 16000, 640⟩

theorem run_counts_between : ∃ s,
    run (step Floats.exact ⟨1, 4000, by decide, 0⟩) betweenTurns
      (ofArgs ⟨1, 4000, by decide, 0⟩ [⟨.add, 0, 1504⟩] 0) = .ok s ∧
    s.graph.lines = [⟨0, [(2, 1504), (3, 0), (4, 0)]⟩] ∧
    Shows ⟨1, 4000, by decide, 0⟩ (cell ⟨1, 4000, by decide, 0⟩ 0 s.done) 0 s ∧
    Timely 0 [⟨.add, 0, 1504⟩] betweenTurns s.done := by
  have hrun : (run (step Floats.exact ⟨1, 4000, by decide, 0⟩) betweenTurns
      (ofArgs ⟨1, 4000, by decide, 0⟩ [⟨.add, 0, 1504⟩] 0)).map (fun s => s.graph.lines) =
      .ok [⟨0, [(2, 1504), (3, 0), (4, 0)]⟩] := by
    decide +kernel
  obtain ⟨s, hs, hlines⟩ := of_map_ok hrun
  obtain ⟨hshows, htimely⟩ :=
    (run_counts Floats.exact (by decide) (by decide) (by decide)).of_ok hs
  exact ⟨s, hs, hlines, hshows, htimely⟩

end GraphThreads

end Mahimahi
