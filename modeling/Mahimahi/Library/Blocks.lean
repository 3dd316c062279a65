import Mathlib.Data.List.Nodup

/-!
# Library — lists made of blocks

`l.flatMap f` puts the blocks `f a` end to end.  Where each block carries one key and no two blocks
carry the same, what holds of two elements of one key holds in the whole list if it holds in every
block (`pairwise_flatMap_of_keys`), and elements of one key are next to each other
(`grouped_flatMap`).

`pair_sublist_append` and `triple_sublist_append` place elements in order across a list that is cut
in two.
-/

namespace Blocks

universe u v w

variable {α : Type u} {β : Type v} {κ : Type w} {f : α → List β} (key : β → κ) {tag : α → κ}

/-- Two elements of one key stand in the relation `R`. -/
theorem pairwise_flatMap_of_keys {R : β → β → Prop} {l : List α}
    (hkey : ∀ a ∈ l, ∀ x ∈ f a, key x = tag a) (hn : (l.map tag).Nodup)
    (hblock : ∀ a ∈ l, (f a).Pairwise fun x y => key x = key y → R x y) :
    (l.flatMap f).Pairwise fun x y => key x = key y → R x y := by
  refine List.pairwise_flatMap.mpr ⟨hblock, ?_⟩
  have htags : l.Pairwise fun a b => tag a ≠ tag b := List.pairwise_map.mp hn
  refine List.Pairwise.imp_of_mem (fun {a b} ha hb hne x hx y hy hxy => ?_) htags
  exact absurd ((hkey a ha x hx).symm.trans (hxy.trans (hkey b hb y hy))) hne

/-- What lies between two elements of one key has that key. -/
theorem grouped_flatMap {l : List α} (hkey : ∀ a ∈ l, ∀ x ∈ f a, key x = tag a)
    (hn : (l.map tag).Nodup) {x y z : β} (h : [x, y, z].Sublist (l.flatMap f))
    (hxz : key x = key z) : key y = key x := by
  induction l with
  | nil => cases h
  | cons a l ih =>
      have hnotin : ∀ x ∈ f a, ∀ z ∈ l.flatMap f, key x ≠ key z := by
        intro x hx z hz heq
        obtain ⟨b, hb, hz⟩ := List.mem_flatMap.mp hz
        refine (List.nodup_cons.mp hn).1 (List.mem_map.mpr ⟨b, hb, ?_⟩)
        rw [← hkey b (by simp [hb]) z hz, ← heq, hkey a (by simp) x hx]
      obtain ⟨l₁, l₂, hsplit, h₁, h₂⟩ := List.sublist_append_iff.mp (List.flatMap_cons ▸ h)
      match l₁, hsplit with
      | [], hsplit =>
          cases hsplit
          exact ih (fun b hb => hkey b (by simp [hb])) (List.nodup_cons.mp hn).2 h₂
      | [_], hsplit =>
          cases hsplit
          exact absurd hxz (hnotin x (h₁.subset (by simp)) z (h₂.subset (by simp)))
      | [_, _], hsplit =>
          cases hsplit
          exact absurd hxz (hnotin x (h₁.subset (by simp)) z (h₂.subset (by simp)))
      | [_, _, _], hsplit =>
          cases hsplit
          rw [hkey a (by simp) x (h₁.subset (by simp)), hkey a (by simp) y (h₁.subset (by simp))]
      | _ :: _ :: _ :: _ :: _, hsplit => simp at hsplit

/-- A member of each of two lists, in the order of the lists. -/
theorem pair_sublist_append {l₁ l₂ : List β} {x y : β} (hx : x ∈ l₁) (hy : y ∈ l₂) :
    [x, y].Sublist (l₁ ++ l₂) :=
  (List.singleton_sublist.mpr hx).append (List.singleton_sublist.mpr hy)

/-- An item between a member of what comes before it and one of what comes after it. -/
theorem triple_sublist_append {l₁ l₂ : List β} {x y z : β} (hx : x ∈ l₁) (hz : z ∈ l₂) :
    [x, y, z].Sublist (l₁ ++ y :: l₂) :=
  (List.singleton_sublist.mpr hx).append ((List.singleton_sublist.mpr hz).cons_cons y)

end Blocks
