import Mathlib.Algebra.Order.AbsoluteValue.Basic
import Mathlib.Data.Rat.Cast.Order
import Mathlib.Tactic.Linarith

/-!
# Graphing — `Graph`

A graph keeps the points of each line until they have left the window on the left.
`Graph::blocking_draw` drops them before it draws (`popOld`); the drawing itself only reads, and is
left out.

The times are `float`s, and comparing them is the only arithmetic that decides anything here.
`Floats` is that arithmetic as parameters: what becomes of the exact result of an operation, with a
bound on how far off it is.  A point is held as a number of bins, and its value as it was counted;
what `add_data_point` is given is computed from these.

* `popOld_eq`: a first part of a line is dropped, of old points only, and never the whole line.
* `Floats.tooOld_lt`: a point that is dropped ended more than five seconds before the drawing, by a
  clock below 2³¹ ms.
-/

namespace Mahimahi

/-- What becomes of the exact result of an operation on `double`s or `float`s. -/
structure Floats where
  double : ℚ → ℚ
  float : ℚ → ℚ
  double_near : ∀ x, |x| ≤ 2 ^ 31 → |double x - x| ≤ 1 / 64
  float_near : ∀ x, |x| ≤ 2 ^ 22 → |float x - x| ≤ 1 / 8

namespace Floats

variable (F : Floats)

/-- `ms / 1000.0`, as a `float`. -/
def seconds (ms : Nat) : ℚ := F.float (F.double (F.double ms / 1000))

/-- `max( 5.0, size.first / 100.0 )`, as a `float`.  The width of a window has 16 bits. -/
def logicalWidth (windowWidth : UInt16) : ℚ :=
  F.float (max 5 (F.double ((windowWidth.toNat : ℚ) / 100)))

/-- The point is at a time before `t - logical_width - 1`, for the drawing at `ts`. -/
def tooOld (binWidthMs ts : Nat) (windowWidth : UInt16) (p : Nat × Int) : Bool :=
  decide (F.seconds (p.1 * binWidthMs) <
    F.float (F.float (F.seconds ts - F.logicalWidth windowWidth) - 1))

theorem double_bounds {x : ℚ} (h : |x| ≤ 2 ^ 31) :
    x - 1 / 64 ≤ F.double x ∧ F.double x ≤ x + 1 / 64 := by
  obtain ⟨hlow, hhigh⟩ := abs_le.mp (F.double_near x h)
  exact ⟨by linarith, by linarith⟩

theorem float_bounds {x : ℚ} (h : |x| ≤ 2 ^ 22) :
    x - 1 / 8 ≤ F.float x ∧ F.float x ≤ x + 1 / 8 := by
  obtain ⟨hlow, hhigh⟩ := abs_le.mp (F.float_near x h)
  exact ⟨by linarith, by linarith⟩

/-- Three roundings on the way to seconds. -/
theorem seconds_bounds {ms : Nat} (h : ms < 2 ^ 31) :
    (ms : ℚ) / 1000 - 3 / 20 ≤ F.seconds ms ∧ F.seconds ms ≤ (ms : ℚ) / 1000 + 3 / 20 := by
  have hpos : (0 : ℚ) ≤ ms := Nat.cast_nonneg ms
  have hlt : (ms : ℚ) ≤ 2 ^ 31 := by exact_mod_cast h.le
  obtain ⟨hlow₁, hhigh₁⟩ := F.double_bounds (x := ms) (by rw [abs_of_nonneg hpos]; exact hlt)
  have hquotient : |F.double ms / 1000| ≤ 2 ^ 31 := abs_le.mpr ⟨by linarith, by linarith⟩
  obtain ⟨hlow₂, hhigh₂⟩ := F.double_bounds hquotient
  have hsmall : |F.double (F.double ms / 1000)| ≤ 2 ^ 22 := abs_le.mpr ⟨by linarith, by linarith⟩
  obtain ⟨hlow₃, hhigh₃⟩ := F.float_bounds hsmall
  exact ⟨by unfold seconds; linarith, by unfold seconds; linarith⟩

/-- The window shows five seconds at least. -/
theorem logicalWidth_bounds (windowWidth : UInt16) :
    39 / 8 ≤ F.logicalWidth windowWidth ∧ F.logicalWidth windowWidth ≤ 1000 := by
  have hpos : (0 : ℚ) ≤ windowWidth.toNat := Nat.cast_nonneg _
  have hlt : (windowWidth.toNat : ℚ) ≤ 2 ^ 16 := by exact_mod_cast windowWidth.toNat_lt.le
  have hquotient : |(windowWidth.toNat : ℚ) / 100| ≤ 2 ^ 31 := abs_le.mpr ⟨by linarith, by linarith⟩
  obtain ⟨-, hhigh⟩ := F.double_bounds hquotient
  have hfive : (5 : ℚ) ≤ max 5 (F.double ((windowWidth.toNat : ℚ) / 100)) := le_max_left _ _
  have hmax : max 5 (F.double ((windowWidth.toNat : ℚ) / 100)) ≤ 900 :=
    max_le (by linarith) (by linarith)
  obtain ⟨hlow', hhigh'⟩ := F.float_bounds
    (x := max 5 (F.double ((windowWidth.toNat : ℚ) / 100))) (abs_le.mpr ⟨by linarith, by linarith⟩)
  exact ⟨by unfold logicalWidth; linarith, by unfold logicalWidth; linarith⟩

/-- **A point that is too old** is five seconds old, whatever the roundings. -/
theorem tooOld_lt {binWidthMs ts : Nat} {windowWidth : UInt16} {p : Nat × Int}
    (hp : p.1 * binWidthMs < 2 ^ 31) (hts : ts < 2 ^ 31)
    (h : F.tooOld binWidthMs ts windowWidth p = true) : p.1 * binWidthMs + 5000 < ts := by
  have hlt := of_decide_eq_true h
  obtain ⟨hpoint, -⟩ := F.seconds_bounds hp
  obtain ⟨htslow, htshigh⟩ := F.seconds_bounds hts
  obtain ⟨hwidth, hwide⟩ := F.logicalWidth_bounds windowWidth
  have hpos : (0 : ℚ) ≤ ts := Nat.cast_nonneg ts
  have hts' : (ts : ℚ) ≤ 2 ^ 31 := by exact_mod_cast hts.le
  obtain ⟨hlow₁, hhigh₁⟩ := F.float_bounds (x := F.seconds ts - F.logicalWidth windowWidth)
    (abs_le.mpr ⟨by linarith, by linarith⟩)
  obtain ⟨-, hhigh₂⟩ := F.float_bounds
    (x := F.float (F.seconds ts - F.logicalWidth windowWidth) - 1)
    (abs_le.mpr ⟨by linarith, by linarith⟩)
  have hrat : ((p.1 * binWidthMs : Nat) : ℚ) + 5000 < ts := by linarith
  exact_mod_cast hrat

/-- Arithmetic that is exact, as it is for the times in the runs below. -/
def exact : Floats where
  double x := x
  float x := x
  double_near x _ := by rw [sub_self, abs_zero]; norm_num
  float_near x _ := by rw [sub_self, abs_zero]; norm_num

end Floats

/-! ### The points of a line -/

variable {old : Nat × Int → Bool} {line full : List (Nat × Int)} {binWidthMs clock : Nat}

/-- The inner loop of `blocking_draw`: the first point goes if the second one is old, too. -/
def popOld (old : Nat × Int → Bool) : List (Nat × Int) → List (Nat × Int)
  | p :: p' :: line => if old p && old p' then popOld old (p' :: line) else p :: p' :: line
  | line => line

theorem popOld_eq (old : Nat × Int → Bool) (line : List (Nat × Int)) :
    ∃ gone, line = gone ++ popOld old line ∧ (∀ p ∈ gone, old p = true) ∧
      (line ≠ [] → popOld old line ≠ []) := by
  induction line using popOld.induct old with
  | case1 p p' line hold ih =>
      obtain ⟨gone, heq, hgone, hne⟩ := ih
      rw [popOld, if_pos hold]
      refine ⟨p :: gone, congrArg (p :: ·) heq, List.forall_mem_cons.mpr ⟨?_, hgone⟩,
        fun _ => hne (List.cons_ne_nil _ _)⟩
      exact (Bool.and_eq_true_iff.mp hold).1
  | case2 p p' line hold =>
      rw [popOld, if_neg hold]
      exact ⟨[], rfl, by simp, id⟩
  | case3 line hshort =>
      have hsame : popOld old line = line := by
        rw [popOld]
        exact hshort
      rw [hsame]
      exact ⟨[], rfl, by simp, id⟩

/-- What is left of the points `full` when the clock has come to `clock`: points that ended more
than five seconds ago may be gone, but never all. -/
def LeftOf (binWidthMs clock : Nat) (full line : List (Nat × Int)) : Prop :=
  ∃ gone, full = gone ++ line ∧ (∀ p ∈ gone, p.1 * binWidthMs + 5000 < clock) ∧
    (full ≠ [] → line ≠ [])

theorem LeftOf.refl (full : List (Nat × Int)) : LeftOf binWidthMs clock full full :=
  ⟨[], rfl, by simp, id⟩

theorem LeftOf.mono {clock' : Nat} (h : LeftOf binWidthMs clock full line) (hle : clock ≤ clock') :
    LeftOf binWidthMs clock' full line := by
  obtain ⟨gone, heq, hgone, hne⟩ := h
  exact ⟨gone, heq, fun p hp => (hgone p hp).trans_le hle, hne⟩

theorem LeftOf.snoc (h : LeftOf binWidthMs clock full line) (p : Nat × Int) :
    LeftOf binWidthMs clock (full ++ [p]) (line ++ [p]) := by
  obtain ⟨gone, rfl, hgone, -⟩ := h
  exact ⟨gone, List.append_assoc _ _ _, hgone, fun _ => by simp⟩

theorem LeftOf.popOld (h : LeftOf binWidthMs clock full line)
    (hold : ∀ p ∈ full, old p = true → p.1 * binWidthMs + 5000 < clock) :
    LeftOf binWidthMs clock full (popOld old line) := by
  obtain ⟨gone, rfl, hgone, hne⟩ := h
  obtain ⟨more, heq, hmore, hne'⟩ := popOld_eq old line
  refine ⟨gone ++ more, ?_, ?_, fun hfull => hne' (hne hfull)⟩
  · rw [List.append_assoc, ← heq]
  · refine List.forall_mem_append.mpr ⟨hgone, fun p hp => hold p ?_ (hmore p hp)⟩
    rw [heq]
    exact List.mem_append_right _ (List.mem_append_left _ hp)

end Mahimahi
