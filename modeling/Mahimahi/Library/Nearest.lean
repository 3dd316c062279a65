import Mathlib.Data.List.Infix

/-!
# Library — the nearest of a list

`commonLength a b` is the length of the longest common prefix of two lists: a prefix of `a` is one
of `b` when it is no longer than that (`prefix_iff`).

A pass over a list keeps the element with the best score so far, and the earlier of two equal ones
(`keepBetter`).  From a score of 0 on, it ends with the best of the elements that score at all, or
none does (`foldl_keepBetter`).  Where the score is what an element has in common with a target, no
element shares a longer prefix with the target than the one kept (`nearest`).
-/

namespace Nearest

universe u v

section Prefixes

variable {α : Type u} [DecidableEq α]

/-- The length of the longest common prefix. -/
def commonLength : List α → List α → Nat
  | a :: as, b :: bs => if a = b then commonLength as bs + 1 else 0
  | _, _ => 0

/-- A common prefix is no longer than either list. -/
theorem commonLength_le : ∀ a b : List α, commonLength a b ≤ min a.length b.length
  | [], _ => Nat.zero_le _
  | _ :: _, [] => Nat.zero_le _
  | a :: as, b :: bs => by
      have ih := commonLength_le as bs
      rw [commonLength, List.length_cons, List.length_cons]
      split <;> omega

/-- Where both lists have a next element, the common prefix goes on exactly when it is the same. -/
theorem lt_commonLength_iff {i : Nat} : ∀ {a b : List α}, i ≤ commonLength a b →
    i < min a.length b.length → (i < commonLength a b ↔ a[i]? = b[i]?) := by
  induction i with
  | zero =>
      intro a b _ hlt
      match a, b, hlt with
      | a :: as, b :: bs, _ =>
          by_cases hab : a = b <;> simp [commonLength, hab]
  | succ i ih =>
      intro a b hle hlt
      match a, b, hlt with
      | a :: as, b :: bs, hlt =>
          rw [commonLength] at hle ⊢
          split at hle
          next hab =>
            rw [if_pos hab, Nat.add_lt_add_iff_right, List.getElem?_cons_succ,
              List.getElem?_cons_succ]
            refine ih (Nat.le_of_succ_le_succ hle) ?_
            rw [List.length_cons, List.length_cons] at hlt
            omega
          · omega

/-- Of the prefixes of one list, those up to the common length are prefixes of the other. -/
theorem prefix_iff {p : List α} : ∀ {a b : List α}, p <+: a →
    (p <+: b ↔ p.length ≤ commonLength a b) := by
  induction p with
  | nil => simp
  | cons x p ih =>
      intro a b hp
      obtain ⟨as, rfl, has⟩ : ∃ as, a = x :: as ∧ p <+: as := by
        obtain ⟨t, rfl⟩ := hp
        exact ⟨p ++ t, rfl, List.prefix_append p t⟩
      cases b with
      | nil => simp [commonLength]
      | cons b bs =>
          rw [List.cons_prefix_cons, commonLength, List.length_cons]
          split
          next hab => rw [Nat.add_le_add_iff_right, ← ih has, and_iff_right hab]
          next hab => exact iff_of_false (fun h => hab h.1) (by omega)

end Prefixes

section Best

variable {α : Type u} (score : α → Nat)

/-- The best score and what has it, after one more element. -/
def keepBetter (best : Nat × α) (a : α) : Nat × α :=
  if score a > best.1 then (score a, a) else best

variable {score}

/-- No element is better than the one kept, and that is one of them or what there was before. -/
theorem foldl_keepBetter (l : List α) : ∀ best : Nat × α,
    best.1 ≤ (l.foldl (keepBetter score) best).1 ∧
      (∀ a ∈ l, score a ≤ (l.foldl (keepBetter score) best).1) ∧
      (l.foldl (keepBetter score) best = best ∨
        ∃ a ∈ l, l.foldl (keepBetter score) best = (score a, a)) := by
  induction l with
  | nil => exact fun best => ⟨Nat.le_refl _, by simp, .inl rfl⟩
  | cons a l ih =>
      intro best
      obtain ⟨hbest, hall, hfrom⟩ := ih (keepBetter score best a)
      have hstep : best.1 ≤ (keepBetter score best a).1 ∧ score a ≤ (keepBetter score best a).1 := by
        unfold keepBetter
        split <;> omega
      rw [List.foldl_cons]
      refine ⟨hstep.1.trans hbest, List.forall_mem_cons.mpr ⟨hstep.2.trans hbest, hall⟩, ?_⟩
      rcases hfrom with hsame | ⟨b, hb, hsame⟩
      · rw [hsame]
        unfold keepBetter
        split
        · exact .inr ⟨a, List.mem_cons_self, rfl⟩
        · exact .inl rfl
      · exact .inr ⟨b, List.mem_cons_of_mem _ hb, hsame⟩

end Best

variable {α : Type u} {β : Type v} [DecidableEq β] {eligible : α → Prop} [DecidablePred eligible]
  {line : α → List β} {target : List β}

variable (eligible line target) in
/-- What an element has in common with the target, and 0 when it does not count. -/
def nearness (a : α) : Nat := if eligible a then commonLength target (line a) else 0

/-- **What the pass finds**, where everything that counts has something in common with the
target. -/
theorem nearest {l : List α} {a₀ : α} (hsome : ∀ a, eligible a → 0 < commonLength target (line a)) :
    let best := l.foldl (keepBetter (nearness eligible line target)) (0, a₀)
    (best.1 = 0 ↔ ∀ a ∈ l, ¬ eligible a) ∧
      (0 < best.1 → best.2 ∈ l ∧ eligible best.2 ∧
        ∀ a ∈ l, eligible a → ∀ p, p <+: target → p <+: line a → p <+: line best.2) := by
  intro best
  obtain ⟨-, hall, hfrom⟩ := @foldl_keepBetter _ (nearness eligible line target) l (0, a₀)
  have hscore : ∀ {a}, eligible a → nearness eligible line target a =
      commonLength target (line a) := fun h => if_pos h
  have hkept : 0 < best.1 → best.2 ∈ l ∧ eligible best.2 ∧
      best.1 = commonLength target (line best.2) := by
    intro hpos
    rcases hfrom with hsame | ⟨a, ha, hsame⟩
    · exact absurd (congrArg Prod.fst hsame) (Nat.ne_of_gt hpos)
    · have hone : best.1 = nearness eligible line target a := congrArg Prod.fst hsame
      have htwo : best.2 = a := congrArg Prod.snd hsame
      have helig : eligible a := by
        by_contra hnot
        rw [hone, nearness, if_neg hnot] at hpos
        exact Nat.lt_irrefl 0 hpos
      rw [htwo]
      exact ⟨ha, helig, hone.trans (hscore helig)⟩
  refine ⟨⟨fun hzero a ha helig => ?_, fun hnone => ?_⟩, fun hpos => ?_⟩
  · have hle := hall a ha
    rw [hscore helig] at hle
    exact Nat.lt_irrefl 0 ((hsome a helig).trans_le (hle.trans hzero.le))
  · by_contra hne
    obtain ⟨hmem, helig, -⟩ := hkept (Nat.pos_of_ne_zero hne)
    exact hnone _ hmem helig
  · obtain ⟨hmem, helig, heq⟩ := hkept hpos
    refine ⟨hmem, helig, fun a ha helig' p hp hpa => ?_⟩
    have hle := hall a ha
    rw [hscore helig'] at hle
    exact (prefix_iff hp).mpr (((prefix_iff hp).mp hpa).trans (hle.trans heq.le))

end Nearest
