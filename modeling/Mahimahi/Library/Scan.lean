import Mathlib.Data.List.Count
import Mathlib.Data.List.Infix

/-!
# Library — a scan that erases from a list

A scan goes once over a list and carries a value.  At each element the value decides whether the
element is erased (`erases`), and the element what the value becomes (`next`).

* `survivors_eq_filter_iff`: what is left is what a filter keeps exactly when the two agree at every
  place of the list.
* `foldl_mark`: a value that only marked elements change is that of the last of them.
-/

namespace Scan

universe u v

variable {α : Type u} {σ : Type v} (erases : σ → α → Bool) (next : σ → α → σ)

/-- What is left of a list when a scan erases some of its items; the state changes with every item.
-/
def survivors : σ → List α → List α
  | _, [] => []
  | s, a :: as =>
      if erases s a then survivors (next s a) as else a :: survivors (next s a) as

/-- A scan keeps the order of what it leaves. -/
theorem survivors_sublist (as : List α) : ∀ s, (survivors erases next s as).Sublist as := by
  induction as with
  | nil => exact fun _ => .refl _
  | cons a as ih =>
      intro s
      unfold survivors
      split
      · exact (ih _).cons a
      · exact (ih _).cons_cons a

variable {erases next}

/-- Equal elements fare alike in a filter, so no other element can make up for one that is erased
wrongly. -/
theorem survivors_eq_filter_iff [DecidableEq α] {keep : α → Bool} {as : List α} : ∀ {s : σ},
    survivors erases next s as = as.filter keep ↔
      ∀ before a after, as = before ++ a :: after →
        erases (before.foldl next s) a = !keep a := by
  induction as with
  | nil =>
      refine fun {s} => iff_of_true rfl fun before a after h => ?_
      simp at h
  | cons a as ih =>
      intro s
      have hsplit : (∀ before b after, a :: as = before ++ b :: after →
            erases (before.foldl next s) b = !keep b) ↔
          erases s a = (!keep a) ∧ ∀ before b after, as = before ++ b :: after →
            erases (before.foldl next (next s a)) b = !keep b := by
        constructor
        · intro h
          exact ⟨h [] a as rfl, fun before b after hb => h (a :: before) b after (by rw [hb]; rfl)⟩
        · rintro ⟨ha, h⟩ before b after hb
          cases before with
          | nil => cases hb; exact ha
          | cons c before => cases hb; exact h before b after rfl
      rw [hsplit, ← ih, survivors, List.filter_cons]
      cases hkeep : keep a with
      | true =>
          cases herase : erases s a with
          | false => simp
          | true =>
              -- the filter keeps every `a` there is, and one is gone
              refine iff_of_false (fun h => ?_) (by simp)
              have hcount := congrArg (List.count a) h
              have hle := (survivors_sublist erases next as (next s a)).count_le a
              rw [if_pos rfl, if_pos rfl, List.count_cons_self,
                List.count_filter (by exact hkeep)] at hcount
              omega
      | false =>
          cases herase : erases s a with
          | true => simp
          | false =>
              refine iff_of_false (fun h => ?_) (by simp)
              have hmem : a ∈ as.filter keep := by
                rw [if_neg (by decide), if_neg (by decide)] at h
                exact h ▸ List.mem_cons_self
              rw [List.mem_filter, hkeep] at hmem
              exact absurd hmem.2 (by decide)

/-- Only marked elements change the value. -/
theorem foldl_mark {mark : α → Bool} {value : σ → α → σ} (s : σ) (as : List α) :
    (∀ a ∈ as, mark a = false) ∧
        as.foldl (fun s a => if mark a then value s a else s) s = s ∨
      ∃ before a after s', as = before ++ a :: after ∧ mark a = true ∧
        (∀ b ∈ after, mark b = false) ∧
        as.foldl (fun s a => if mark a then value s a else s) s = value s' a := by
  induction as using List.reverseRecOn with
  | nil => exact .inl ⟨by simp, rfl⟩
  | append_singleton as a ih =>
      rw [List.foldl_append]
      cases hmark : mark a with
      | true =>
          refine .inr ⟨as, a, [], as.foldl (fun s a => if mark a then value s a else s) s, rfl, hmark,
            by simp, ?_⟩
          rw [List.foldl_cons, List.foldl_nil, if_pos hmark]
      | false =>
          have hlast : ∀ s : σ, List.foldl (fun s a => if mark a then value s a else s) s [a] = s :=
            fun s => by simp [hmark]
          rw [hlast]
          rcases ih with ⟨hnone, hs⟩ | ⟨before, b, after, s', rfl, hb, hafter, hs⟩
          · refine .inl ⟨fun c hc => ?_, hs⟩
            rcases List.mem_append.mp hc with hc | hc
            · exact hnone c hc
            · exact List.mem_singleton.mp hc ▸ hmark
          · refine .inr ⟨before, b, after ++ [a], s', by simp, hb, fun c hc => ?_, hs⟩
            rcases List.mem_append.mp hc with hc | hc
            · exact hafter c hc
            · exact List.mem_singleton.mp hc ▸ hmark

end Scan
