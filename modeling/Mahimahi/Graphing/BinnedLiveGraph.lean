import Mahimahi.Graphing.Graph
import Mahimahi.Library.Integers
import Mahimahi.Library.Runs

/-!
# Graphing — `BinnedLiveGraph`

A graph of what is counted in each interval of `bin_width_ms_`.  Two threads have it: one animates
the graph, the other constructs it and counts.  Both move on to the current bin (`advance`), which
turns the values of the bins that are over into data points.  `add_value_now` and
`set_max_value_now` lock the mutex twice, once to advance and once to count, and the animation may
advance in between.  The animation is started before the constructor is through: before
`initialize_new_bin_` is constructed, and before every line has its point at the origin.

A turn is what a thread does between two accesses to what they share: it locks the mutex and reads
the clock, adds a point, resets a value, goes on to the next bin, unlocks, counts, or drops old
points.  A thread that needs the mutex waits as long as the other one has it.

What the animation reads of the bin that is not over, the drawing and the end of the animation are
left out.
-/

open Fallible MachineInt

namespace Mahimahi

/-- What the constructor of a graph is given. -/
structure GraphArgs where
  lines : Nat
  binWidthMs : Nat
  wide : 0 < binWidthMs
  /-- what `initialize_new_bin_` sets a value to -/
  initial : Int

/-- What `value_this_bin_` and `data_points_` have for a line. -/
structure GraphLine where
  valueThisBin : Int := 0
  dataPoints : List (Nat × Int) := []
  deriving DecidableEq, Repr

structure BinnedLiveGraph where
  lines : List GraphLine
  currentBin : Nat
  /-- `initialize_new_bin_` has been constructed. -/
  constructed : Bool := false
  deriving DecidableEq, Repr

inductive GraphFault where
  /-- thrown by `at` -/
  | outOfRange
  /-- `attempt to add to a default value` -/
  | defaultValue
  /-- `initialize_new_bin_` is called before it is constructed, which is undefined. -/
  | unconstructed
  deriving DecidableEq, Repr

namespace GraphLine

def addDataPoint (p : Nat × Int) (l : GraphLine) : GraphLine :=
  { l with dataPoints := l.dataPoints ++ [p] }

end GraphLine

namespace BinnedLiveGraph

/-- When the constructor, at `now`, starts the animation. -/
def ofArgs (A : GraphArgs) (now : Nat) : BinnedLiveGraph where
  lines := List.replicate A.lines {}
  currentBin := now / A.binWidthMs

inductive ValueOp where
  | add
  | setMax
  deriving DecidableEq, Repr

/-- `add_value_now` or `set_max_value_now` -/
structure Call where
  op : ValueOp
  num : Nat
  amount : Nat
  deriving DecidableEq, Repr

/-- The new value, where nothing is thrown. -/
def Call.value (c : Call) (x : Int) : Int :=
  match c.op with
  | .add => toI32 (x + c.amount)
  | .setMax => if x < 0 then toI32 c.amount else toI32 (max (toU32 x) c.amount : Nat)

/-- What is done after `advance`. -/
def count (c : Call) (g : BinnedLiveGraph) : Except GraphFault BinnedLiveGraph :=
  match g.lines[c.num]? with
  | none => .error .outOfRange
  | some l =>
      if c.op = .add ∧ l.valueThisBin < 0 then .error .defaultValue
      else .ok { g with
        lines := g.lines.modify c.num fun l =>
          { l with valueThisBin := c.value l.valueThisBin } }

end BinnedLiveGraph

open BinnedLiveGraph

inductive GraphThread where
  | animation
  | counting
  deriving DecidableEq, Repr

/-- Where a thread is in `advance`; it has the mutex. -/
structure Advance where
  thread : GraphThread
  now : Nat
  /-- the variable of the inner loop -/
  line : Nat := 0
  /-- The line has its point, and its value is still to be reset. -/
  placed : Bool := false
  deriving DecidableEq, Repr

/-- A turn of a thread, what the clock shows and how wide the window is. -/
structure GraphTurn where
  thread : GraphThread
  now : Nat
  windowWidth : UInt16 := 640
  deriving DecidableEq, Repr

/-- A call that has been counted, when the clock was last read. -/
structure CountedCall extends Call where
  began : Nat
  counted : Nat
  ended : Nat
  deriving DecidableEq, Repr

/-- The graph, where the threads are, and what is still to be counted. -/
structure GraphThreads where
  graph : BinnedLiveGraph
  /-- the lines to which the constructor has added a point at the origin -/
  added : Nat := 0
  /-- from the call that the thread is in -/
  calls : List Call
  advancing : Option Advance := none
  /-- when the counting thread advanced, if it still has to count -/
  advanced : Option Nat := none
  /-- when the animation advanced, if it still has to draw -/
  drawing : Option Nat := none
  /-- the last reading of the clock -/
  clock : Nat
  done : List CountedCall := []
  deriving DecidableEq, Repr

namespace GraphThreads

/-- When the constructor starts the animation. -/
def ofArgs (A : GraphArgs) (calls : List Call) (start : Nat) : GraphThreads where
  graph := BinnedLiveGraph.ofArgs A start
  calls
  clock := start

/-- What a thread that has the mutex does next in `advance`. -/
def advanceOn (A : GraphArgs) (a : Advance) (s : GraphThreads) :
    Except GraphFault GraphThreads :=
  let g := s.graph
  if g.currentBin < a.now / A.binWidthMs then
    if a.line < g.lines.length then
      if a.placed then
        if g.constructed then
          .ok { s with
            graph := { g with
              lines := g.lines.modify a.line fun l => { l with valueThisBin := A.initial } }
            advancing := some { a with line := a.line + 1, placed := false } }
        else .error .unconstructed
      else
        .ok { s with
          graph := { g with
            lines := g.lines.modify a.line fun l =>
              l.addDataPoint (g.currentBin + 1, l.valueThisBin) }
          advancing := some { a with placed := true } }
    else
      .ok { s with
        graph := { g with currentBin := g.currentBin + 1 }
        advancing := some { a with line := 0, placed := false } }
  else
    match a.thread with
    | .animation => .ok { s with advancing := none, drawing := some a.now }
    | .counting => .ok { s with advancing := none, advanced := some a.now }

/-- `advance` -/
def advance (A : GraphArgs) (turn : GraphTurn) (s : GraphThreads) :
    Except GraphFault GraphThreads :=
  match s.advancing with
  | none =>
      .ok { s with advancing := some { thread := turn.thread, now := turn.now }, clock := turn.now }
  | some a => if a.thread = turn.thread then s.advanceOn A a else .ok s

/-- `blocking_draw`, as far as the points go -/
def draw (F : Floats) (A : GraphArgs) (ts : Nat) (windowWidth : UInt16) (s : GraphThreads) :
    GraphThreads :=
  { s with
    graph := { s.graph with
      lines := s.graph.lines.map fun l =>
        { l with dataPoints := popOld (F.tooOld A.binWidthMs ts windowWidth) l.dataPoints } }
    drawing := none }

/-- What a thread does next. -/
def step (F : Floats) (A : GraphArgs) (turn : GraphTurn) (s : GraphThreads) :
    Except GraphFault GraphThreads :=
  match turn.thread with
  | .animation =>
      match s.drawing with
      | some ts => .ok (s.draw F A ts turn.windowWidth)
      | none => s.advance A turn
  | .counting =>
      if s.graph.constructed = false then
        .ok { s with graph := { s.graph with constructed := true } }
      else if s.added < s.graph.lines.length then
        .ok { s with
          graph := { s.graph with
            lines := s.graph.lines.modify s.added (GraphLine.addDataPoint (0, 0)) }
          added := s.added + 1 }
      else
        match s.calls, s.advanced with
        | [], _ => .ok s
        | _ :: _, none => s.advance A turn
        | c :: calls, some began =>
            if s.advancing.isSome then .ok s
            else do
              let graph ← s.graph.count c
              return { s with
                graph
                calls
                advanced := none
                done := s.done ++ [{ c with began, counted := s.clock, ended := turn.now }] }

/-! ### What a graph shows -/

/-- The call was counted on line `i` in bin `b`. -/
def InBin (A : GraphArgs) (i b : Nat) (e : CountedCall) : Prop :=
  e.num = i ∧ e.counted / A.binWidthMs = b

instance (A : GraphArgs) (i b : Nat) (e : CountedCall) : Decidable (InBin A i b e) :=
  inferInstanceAs (Decidable (_ ∧ _))

/-- The value a bin begins with: the first one begins with 0. -/
def fresh (A : GraphArgs) (first b : Nat) : Int := if b = first then 0 else A.initial

/-- The value of line `i` in bin `b`. -/
def cell (A : GraphArgs) (first : Nat) (done : List CountedCall) (i b : Nat) : Int :=
  (done.filter (InBin A i b ·)).foldl (fun x e => e.value x) (fresh A first b)

/-- A point for every bin from `a` on and before `b`, at its end. -/
def bins (value : Nat → Int) (a b : Nat) : List (Nat × Int) :=
  (List.range' a (b - a)).map fun bin => (bin + 1, value bin)

/-- The points of a line when the bins before `c` are over.  The constructor adds its point when
the bins before `origin` are over. -/
def pointsOf (value : Nat → Int) (first : Nat) (origin : Option Nat) (c : Nat) :
    List (Nat × Int) :=
  match origin with
  | none => bins value first c
  | some o => bins value first o ++ (0, 0) :: bins value o c

/-- What a line shows: the value of bin `b`, and the points of the bins before `c` that are left at
`clock`. -/
structure OnLine (A : GraphArgs) (value : Nat → Int) (first clock b c : Nat) (added : Prop)
    (l : GraphLine) : Prop where
  current : l.valueThisBin = value b
  points : ∃ origin : Option Nat, (origin.isSome = true ↔ added) ∧
    (∀ o ∈ origin, first ≤ o ∧ o ≤ c) ∧
    LeftOf A.binWidthMs clock (pointsOf value first origin c) l.dataPoints

variable {A : GraphArgs} {first clock i b c : Nat} {done : List CountedCall} {e : CountedCall}
  {added : Prop} {l : GraphLine} {value value' : Nat → Int} {origin : Option Nat}

theorem cell_concat : cell A first (done ++ [e]) i b =
    if InBin A i b e then e.value (cell A first done i b) else cell A first done i b := by
  by_cases he : InBin A i b e <;> simp [cell, List.filter_append, he]

theorem cell_fresh (h : ∀ e ∈ done, e.counted / A.binWidthMs < b) (hb : first < b) :
    cell A first done i b = A.initial := by
  have hnone : done.filter (InBin A i b ·) = [] := by
    refine List.filter_eq_nil_iff.mpr fun e he => ?_
    exact fun hin => (h e he).ne (of_decide_eq_true hin).2
  rw [cell, hnone, List.foldl_nil, fresh, if_neg hb.ne']

theorem bins_self (value : Nat → Int) (a : Nat) : bins value a a = [] := by simp [bins]

theorem bins_succ (h : b ≤ c) : bins value b (c + 1) = bins value b c ++ [(c + 1, value c)] := by
  have hlength : c + 1 - b = c - b + 1 := by omega
  have hlast : b + 1 * (c - b) = c := by omega
  rw [bins, hlength, List.range'_concat, hlast, List.map_append, bins]
  rfl

theorem bins_congr (h : ∀ bin < c, value bin = value' bin) : bins value b c = bins value' b c := by
  refine List.map_congr_left fun bin hbin => ?_
  obtain ⟨hle, hlt⟩ := List.mem_range'_1.mp hbin
  rw [h bin (by omega)]

theorem bins_le {p : Nat × Int} (h : p ∈ bins value b c) : p.1 ≤ c := by
  obtain ⟨bin, hbin, rfl⟩ := List.mem_map.mp h
  obtain ⟨hle, hlt⟩ := List.mem_range'_1.mp hbin
  show bin + 1 ≤ c
  omega

theorem pointsOf_succ (hfirst : first ≤ c) (h : ∀ o ∈ origin, o ≤ c) :
    pointsOf value first origin (c + 1) =
      pointsOf value first origin c ++ [(c + 1, value c)] := by
  cases origin with
  | none => exact bins_succ hfirst
  | some o =>
      rw [pointsOf, bins_succ (h o rfl), ← List.cons_append, ← List.append_assoc]
      rfl

theorem pointsOf_some (value : Nat → Int) (first c : Nat) :
    pointsOf value first (some c) c = pointsOf value first none c ++ [(0, 0)] := by
  show bins value first c ++ (0, 0) :: bins value c c = bins value first c ++ [(0, 0)]
  rw [bins_self]

theorem pointsOf_congr (h : ∀ bin < c, value bin = value' bin) (ho : ∀ o ∈ origin, o ≤ c) :
    pointsOf value first origin c = pointsOf value' first origin c := by
  cases origin with
  | none => exact bins_congr h
  | some o =>
      have hle := ho o rfl
      rw [pointsOf, pointsOf, bins_congr h, bins_congr fun bin hbin => h bin (by omega)]

theorem pointsOf_le {p : Nat × Int} (ho : ∀ o ∈ origin, o ≤ c)
    (h : p ∈ pointsOf value first origin c) : p.1 ≤ c := by
  cases origin with
  | none => exact bins_le h
  | some o =>
      rcases List.mem_append.mp h with h | h
      · exact (bins_le h).trans (ho o rfl)
      · rcases List.mem_cons.mp h with rfl | h
        · exact Nat.zero_le c
        · exact bins_le h

namespace OnLine

theorem later {clock' : Nat} (h : OnLine A value first clock b c added l) (hle : clock ≤ clock') :
    OnLine A value first clock' b c added l where
  current := h.current
  points := by
    obtain ⟨origin, hadded, horigin, hleft⟩ := h.points
    exact ⟨origin, hadded, horigin, hleft.mono hle⟩

/-- The bin is over. -/
theorem place (h : OnLine A value first clock b b added l) (hfirst : first ≤ b) :
    OnLine A value first clock b (b + 1) added (l.addDataPoint (b + 1, l.valueThisBin)) where
  current := h.current
  points := by
    obtain ⟨origin, hadded, horigin, hleft⟩ := h.points
    refine ⟨origin, hadded, fun o ho => ?_, ?_⟩
    · exact ⟨(horigin o ho).1, Nat.le_succ_of_le (horigin o ho).2⟩
    · rw [pointsOf_succ hfirst fun o ho => (horigin o ho).2, h.current]
      exact hleft.snoc _

/-- The next bin begins. -/
theorem reset {x : Int} (h : OnLine A value first clock b c added l) (hx : x = value (b + 1)) :
    OnLine A value first clock (b + 1) c added { l with valueThisBin := x } where
  current := hx
  points := h.points

/-- The constructor comes to the line. -/
theorem add (h : OnLine A value first clock b c False l) (hfirst : first ≤ c) :
    OnLine A value first clock b c True (l.addDataPoint (0, 0)) where
  current := h.current
  points := by
    obtain ⟨origin, hadded, -, hleft⟩ := h.points
    obtain rfl : origin = none := Option.not_isSome_iff_eq_none.mp hadded.mp
    refine ⟨some c, by simp, ?_, ?_⟩
    · rintro o ⟨⟩
      exact ⟨hfirst, le_rfl⟩
    · rw [pointsOf_some]
      exact hleft.snoc _

theorem draw {F : Floats} {ts : Nat} (h : OnLine A value first clock b c added l)
    (hc : c ≤ clock / A.binWidthMs) (hts : ts ≤ clock) (hclock : clock < 2 ^ 31)
    (windowWidth : UInt16) :
    OnLine A value first clock b c added
      { l with dataPoints := popOld (F.tooOld A.binWidthMs ts windowWidth) l.dataPoints } where
  current := h.current
  points := by
    obtain ⟨origin, hadded, horigin, hleft⟩ := h.points
    refine ⟨origin, hadded, horigin, hleft.popOld fun p hp hold => ?_⟩
    have hle : p.1 * A.binWidthMs ≤ clock := by
      have hbin := (pointsOf_le (fun o ho => (horigin o ho).2) hp).trans hc
      exact (Nat.mul_le_mul_right _ hbin).trans (Nat.div_mul_le_self _ _)
    exact (F.tooOld_lt (hle.trans_lt hclock) (hts.trans_lt hclock) hold).trans_le hts

/-- Only the bin that is not over changes. -/
theorem count {x : Int} (h : OnLine A value first clock b b added l) (hx : x = value' b)
    (hsame : ∀ bin < b, value bin = value' bin) :
    OnLine A value' first clock b b added { l with valueThisBin := x } where
  current := hx
  points := by
    obtain ⟨origin, hadded, horigin, hleft⟩ := h.points
    refine ⟨origin, hadded, horigin, ?_⟩
    rwa [← pointsOf_congr hsame fun o ho => (horigin o ho).2]

end OnLine

end GraphThreads

end Mahimahi
