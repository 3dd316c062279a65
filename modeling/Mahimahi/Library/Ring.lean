import Mathlib.Data.List.Basic

/-!
# Library — windows of a ring

A list of `n` cells, read as a ring: after the last cell comes the first.  `window cells start len`
is what `len` cells hold from the cell `start` on, and `overwrite cells i chunk` puts a chunk into
the cells from `i` on, which do not wrap around.

* `window_add`: a window is its first part, and the window from where that ends.
* `window_push`: a chunk put right behind a window makes it longer by the chunk, and changes nothing
  in it while there is room.
-/

namespace Ring

universe u

variable {α : Type u} {cells chunk : List α} {i start len k t : Nat}

/-- A place in a ring of `n` cells, from one that is less than a turn too far. -/
def wrap (n i : Nat) : Nat := if i < n then i else i - n

/-- The `len` cells from `start` on, around the end of the ring. -/
def window (cells : List α) (start len : Nat) : List α :=
  (cells.drop start ++ cells.take start).take len

/-- The cells with `chunk` written over them from `i` on. -/
def overwrite (cells : List α) (i : Nat) (chunk : List α) : List α :=
  cells.take i ++ chunk ++ cells.drop (i + chunk.length)

theorem wrap_lt {n i : Nat} (h : i < 2 * n) : wrap n i < n := by
  unfold wrap
  split <;> omega

/-- The cells of a window, one by one. -/
theorem getElem?_window (hstart : start < cells.length) (hlen : len ≤ cells.length) :
    (window cells start len)[t]? =
      if t < len then cells[wrap cells.length (start + t)]? else none := by
  unfold window wrap
  rw [List.getElem?_take]
  by_cases ht : t < len
  · rw [if_pos ht, if_pos ht]
    by_cases hwrap : start + t < cells.length
    · rw [if_pos hwrap, List.getElem?_append_left (by simp; omega), List.getElem?_drop]
    · rw [if_neg hwrap, List.getElem?_append_right (by simp; omega), List.length_drop,
        List.getElem?_take, if_pos (by omega)]
      congr 1
      omega
  · rw [if_neg ht, if_neg ht]

@[simp] theorem length_overwrite (h : i + chunk.length ≤ cells.length) :
    (overwrite cells i chunk).length = cells.length := by
  simp only [overwrite, List.length_append, List.length_take, List.length_drop]
  omega

/-- The cells of an overwritten ring, one by one. -/
theorem getElem?_overwrite (h : i + chunk.length ≤ cells.length) :
    (overwrite cells i chunk)[t]? =
      if i ≤ t ∧ t < i + chunk.length then chunk[t - i]? else cells[t]? := by
  have hi : (cells.take i).length = i := by rw [List.length_take]; omega
  unfold overwrite
  by_cases hbefore : t < i
  · rw [List.append_assoc, List.getElem?_append_left (by omega), List.getElem?_take, if_pos hbefore,
      if_neg (by omega)]
  · by_cases hin : t < i + chunk.length
    · rw [if_pos (by omega), List.getElem?_append_left (by rw [List.length_append]; omega),
        List.getElem?_append_right (by omega), hi]
    · rw [if_neg (by omega), List.getElem?_append_right (by rw [List.length_append]; omega),
        List.length_append, hi, List.getElem?_drop]
      congr 1
      omega

/-- A window that does not wrap around. -/
theorem window_contiguous (h : start + len ≤ cells.length) :
    window cells start len = (cells.drop start).take len := by
  rw [window, List.take_append_of_le_length (by rw [List.length_drop]; omega)]

theorem length_window (len : Nat) (hstart : start ≤ cells.length) (hlen : len ≤ cells.length) :
    (window cells start len).length = len := by
  simp only [window, List.length_take, List.length_append, List.length_drop]
  omega

/-- A window is the window of its beginning and that of its end. -/
theorem window_add (hstart : start < cells.length) (hlen : len + k ≤ cells.length) :
    window cells start (len + k) =
      window cells start len ++ window cells (wrap cells.length (start + len)) k := by
  have hturn : wrap cells.length (start + len) < cells.length := wrap_lt (by omega)
  have hfirst := length_window len (Nat.le_of_lt hstart) (by omega)
  apply List.ext_getElem?
  intro t
  rw [getElem?_window hstart hlen]
  by_cases ht : t < len
  · rw [List.getElem?_append_left (by omega), getElem?_window hstart (by omega), if_pos ht,
      if_pos (by omega)]
  · rw [List.getElem?_append_right (by omega), hfirst, getElem?_window hturn (by omega)]
    have hsame : wrap cells.length (wrap cells.length (start + len) + (t - len)) =
        wrap cells.length (start + t) ∨ ¬ t < len + k := by
      unfold wrap
      split <;> split <;> split <;> omega
    rcases hsame with hsame | hbeyond
    · rw [hsame]
      exact if_congr (by omega) rfl rfl
    · rw [if_neg hbeyond, if_neg (by omega)]

/-- A chunk put behind a window leaves the window as it was. -/
theorem window_overwrite (hstart : start < cells.length)
    (hroom : len + chunk.length ≤ cells.length)
    (hfit : wrap cells.length (start + len) + chunk.length ≤ cells.length) :
    window (overwrite cells (wrap cells.length (start + len)) chunk) start len =
      window cells start len := by
  have hlength := length_overwrite hfit
  apply List.ext_getElem?
  intro t
  rw [getElem?_window (by omega) (by omega), getElem?_window hstart (by omega)]
  refine if_ctx_congr Iff.rfl (fun ht => ?_) fun _ => rfl
  rw [hlength, getElem?_overwrite hfit, if_neg]
  unfold wrap
  split <;> split <;> omega

/-- The cells just written hold the chunk. -/
theorem window_overwritten (h : i + chunk.length ≤ cells.length) :
    window (overwrite cells i chunk) i chunk.length = chunk := by
  have hi : (cells.take i).length = i := by rw [List.length_take]; omega
  rw [window_contiguous (by rw [length_overwrite h]; exact h), overwrite, List.append_assoc,
    List.drop_append_of_le_length (by omega), List.drop_eq_nil_of_le (by omega), List.nil_append,
    List.take_left]

/-- **A chunk put behind a window makes it longer.** -/
theorem window_push (hstart : start < cells.length) (hroom : len + chunk.length ≤ cells.length)
    (hfit : wrap cells.length (start + len) + chunk.length ≤ cells.length) :
    window (overwrite cells (wrap cells.length (start + len)) chunk) start (len + chunk.length) =
      window cells start len ++ chunk := by
  have hlength := length_overwrite hfit
  rw [window_add (by omega) (by omega), window_overwrite hstart hroom hfit, hlength,
    window_overwritten hfit]

end Ring
