import Mathlib.Data.List.Basic

/-!
# Library — the fields of a line

`fields sep l` are the parts of `l` between runs of separators.  A run at either end leaves an empty
part there.  `fields_word_cons` and `fields_word` compute the fields of a line that was put together
from words with single separators between them.
-/

namespace Words

universe u

variable {α : Type u} (sep : α → Bool)

/-- The parts of a list between its separators.  A run of separators counts as one. -/
def fields : List α → List (List α)
  | [] => [[]]
  | a :: as =>
      if sep a then if as.head?.any sep then fields as else [] :: fields as
      else match fields as with
        | [] => [[a]]
        | w :: ws => (a :: w) :: ws

variable {sep}

/-- A list without a separator is one field. -/
theorem fields_word {w : List α} (h : ∀ a ∈ w, sep a = false) : fields sep w = [w] := by
  induction w with
  | nil => rfl
  | cons a w ih =>
      rw [fields, h a List.mem_cons_self, if_neg (by decide),
        ih fun b hb => h b (List.mem_cons_of_mem _ hb)]

/-- A word, a separator, and more. -/
theorem fields_word_cons {w : List α} {a b : α} {l : List α} (h : ∀ c ∈ w, sep c = false)
    (ha : sep a = true) (hb : sep b = false) :
    fields sep (w ++ a :: b :: l) = w :: fields sep (b :: l) := by
  induction w with
  | nil =>
      rw [List.nil_append, fields, if_pos ha, if_neg (by simp [hb])]
  | cons c w ih =>
      rw [List.cons_append, fields, h c List.mem_cons_self, if_neg (by decide),
        ih fun d hd => h d (List.mem_cons_of_mem _ hd)]

end Words
