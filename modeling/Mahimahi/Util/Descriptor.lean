import Mahimahi.Library.Loops
import Mahimahi.Util.ByteStreamQueue

/-!
# Util — writing a whole string

`FileDescriptor::write( buffer )` calls `write(2)` until nothing of the buffer is left.  Call number
`n` on a descriptor takes up to `kernel n + 1` bytes, so `kernel` is all that the kernel decides.

* `writeAll_ok`: a string that is not empty is written, in pieces that make it up.
* `writeAll_nil`: an empty string is refused.
-/

open Fallible Loops

namespace Mahimahi

namespace FileDescriptor

variable {kernel : Nat → Nat} {n : Nat} {str : List UInt8}

theorem write_eq {room : Nat} (h : str ≠ []) :
    write (room + 1) str = .ok (min (room + 1) str.length) := by
  have := List.length_pos_iff.mpr h
  rw [write, if_neg h, if_neg (by omega)]

theorem write_ok {room written : Nat} (h : write (room + 1) str = .ok written) :
    str ≠ [] ∧ written = min (room + 1) str.length := by
  by_cases hstr : str = []
  · rw [write, if_pos hstr] at h
    cases h
  · rw [write_eq hstr] at h
    cases h
    exact ⟨hstr, rfl⟩

/-- A turn of the loop, with the pieces that the kernel has taken and what is left. -/
def writeStep (kernel : Nat → Nat) (n : Nat) (w : List (List UInt8) × List UInt8) :
    Except QueueFault (Next (List (List UInt8) × List UInt8) (List (List UInt8))) := do
  let written ← write (kernel (n + w.1.length) + 1) w.2
  let pieces := w.1 ++ [w.2.take written]
  if w.2.drop written = [] then return .stop pieces else return .more (pieces, w.2.drop written)

theorem writeStep_shrinks {w w' : List (List UInt8) × List UInt8}
    (h : writeStep kernel n w = .ok (.more w')) : w'.2.length < w.2.length := by
  obtain ⟨written, hwritten, h⟩ := bind_ok.mp h
  obtain ⟨hne, rfl⟩ := write_ok hwritten
  have := List.length_pos_iff.mpr hne
  dsimp only at h
  split at h
  · cases h
  · cases h
    rw [List.length_drop]
    omega

def writeLoop (kernel : Nat → Nat) (n : Nat) :
    Loop QueueFault (List (List UInt8) × List UInt8) (List (List UInt8)) where
  step := writeStep kernel n
  measure w := w.2.length
  shrinks := writeStep_shrinks

/-- `write( buffer )`, from call number `n` on: the pieces that the calls took. -/
def writeAll (kernel : Nat → Nat) (n : Nat) (buffer : List UInt8) :
    Except QueueFault (List (List UInt8)) :=
  (writeLoop kernel n).run ([], buffer)

/-- The number of calls that it takes to write `size` bytes. -/
def callsFor (kernel : Nat → Nat) (n : Nat) : Nat → Nat
  | 0 => 0
  | size + 1 => callsFor kernel (n + 1) (size - kernel n) + 1
termination_by size => size

theorem callsFor_last {size : Nat} (hpos : 0 < size) (hle : size ≤ kernel n + 1) :
    callsFor kernel n size = 1 := by
  obtain ⟨size, rfl⟩ := Nat.exists_eq_succ_of_ne_zero hpos.ne'
  rw [callsFor, Nat.sub_eq_zero_of_le (by omega), callsFor]

theorem callsFor_more {size : Nat} (h : kernel n + 1 < size) :
    callsFor kernel n size = callsFor kernel (n + 1) (size - (kernel n + 1)) + 1 := by
  obtain ⟨size, rfl⟩ := Nat.exists_eq_succ_of_ne_zero (Nat.ne_of_gt (Nat.zero_lt_of_lt h))
  rw [callsFor, Nat.succ_eq_add_one, Nat.add_sub_add_right]

theorem callsFor_bounds (kernel : Nat → Nat) (n size : Nat) :
    callsFor kernel n size ≤ size ∧ (0 < size → 0 < callsFor kernel n size) := by
  induction size using Nat.strongRecOn generalizing n with
  | ind size ih =>
      cases size with
      | zero => exact ⟨by rw [callsFor], fun h => absurd h (Nat.lt_irrefl 0)⟩
      | succ size =>
          have hrest := (ih (size - kernel n) (by omega) (n + 1)).1
          rw [callsFor]
          exact ⟨by omega, fun _ => Nat.succ_pos _⟩

theorem writeAll_nil : writeAll kernel n [] = .error .nothingToWrite := Loop.run_error rfl

theorem writeStep_last {pieces : List (List UInt8)} (hne : str ≠ [])
    (h : str.length ≤ kernel (n + pieces.length) + 1) :
    writeStep kernel n (pieces, str) = .ok (.stop (pieces ++ [str])) := by
  rw [writeStep, write_eq hne, ok_bind, Nat.min_eq_right h, List.drop_length, if_pos rfl,
    List.take_length]
  rfl

theorem writeStep_more {pieces : List (List UInt8)}
    (h : kernel (n + pieces.length) + 1 < str.length) :
    writeStep kernel n (pieces, str) =
      .ok (.more (pieces ++ [str.take (kernel (n + pieces.length) + 1)],
        str.drop (kernel (n + pieces.length) + 1))) := by
  have hne : str ≠ [] := List.length_pos_iff.mp (Nat.zero_lt_of_lt h)
  have hdrop : str.drop (kernel (n + pieces.length) + 1) ≠ [] := by
    rw [ne_eq, List.drop_eq_nil_iff]
    exact Nat.not_le.mpr h
  rw [writeStep, write_eq hne, ok_bind, Nat.min_eq_left h.le, if_neg hdrop]
  rfl

/-- The loop, from where some pieces were taken. -/
theorem writeLoop_run {left : List UInt8} : ∀ {pieces : List (List UInt8)}, left ≠ [] →
    ∃ more, (writeLoop kernel n).run (pieces, left) = .ok (pieces ++ more) ∧
      more.flatten = left ∧
      more.length = callsFor kernel (n + pieces.length) left.length := by
  induction hlength : left.length using Nat.strongRecOn generalizing left with
  | ind size ih =>
      subst hlength
      intro pieces hne
      have hpos := List.length_pos_iff.mpr hne
      rcases Nat.lt_or_ge (kernel (n + pieces.length) + 1) left.length with hlt | hge
      · have hstep := writeStep_more (n := n) hlt
        have hcalls := callsFor_more hlt
        have hroom := Nat.succ_pos (kernel (n + pieces.length))
        rw [Nat.succ_eq_add_one] at hroom
        generalize kernel (n + pieces.length) + 1 = room at hlt hstep hcalls hroom
        obtain ⟨more, hrun, hflatten, hcount⟩ := ih (left.drop room).length
          (by rw [List.length_drop]; omega) rfl
          (show left.drop room ≠ [] by rw [ne_eq, List.drop_eq_nil_iff]; omega)
        refine ⟨left.take room :: more, ?_, ?_, ?_⟩
        · rw [Loop.run_more (L := writeLoop kernel n) hstep, hrun, List.append_assoc]
          rfl
        · rw [List.flatten_cons, hflatten, List.take_append_drop]
        · rw [List.length_cons, hcount, hcalls, List.length_append, List.length_singleton,
            List.length_drop, Nat.add_assoc]
      · refine ⟨[left], Loop.run_stop (L := writeLoop kernel n) (writeStep_last hne hge),
          List.flatten_singleton, ?_⟩
        rw [List.length_singleton, callsFor_last hpos hge]

/-- **A string that is not empty is written.** -/
theorem writeAll_ok (kernel : Nat → Nat) (n : Nat) (h : str ≠ []) :
    ∃ pieces, writeAll kernel n str = .ok pieces ∧
      pieces.flatten = str ∧ pieces.length = callsFor kernel n str.length :=
  writeLoop_run h

theorem writeAll_spec {pieces : List (List UInt8)} (h : writeAll kernel n str = .ok pieces) :
    pieces.flatten = str ∧ pieces.length = callsFor kernel n str.length := by
  by_cases hstr : str = []
  · rw [hstr, writeAll_nil] at h
    cases h
  · obtain ⟨_, hpieces, hspec⟩ := writeAll_ok kernel n hstr
    cases h.symm.trans hpieces
    exact hspec

end FileDescriptor

end Mahimahi
