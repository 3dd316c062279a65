import Mathlib.Data.List.Infix

/-!
# Library — searching a list

`find needle l` is the first place in `l` where `needle` stands (`find_eq_some_iff`).  A list that
grows at its end keeps it (`find_append`), and what it adds is found across its old end or behind it
(`find_append_none`).  A needle of one element, or of two different ones, is found behind a list
that it does not stand in (`find_singleton_append`, `find_pair`).  A foreign element cuts the list in
two that are searched one after the other (`find_append_cons`).
-/

namespace Search

universe u

variable {α : Type u} [DecidableEq α]

/-- The index of the first occurrence of `needle`. -/
def find (needle : List α) : List α → Option Nat
  | [] => if needle.isEmpty then some 0 else none
  | a :: as =>
      if needle.isPrefixOf (a :: as) then some 0 else (find needle as).map (· + 1)

variable {needle l m : List α} {i : Nat}

/-- What begins a list begins every continuation of it. -/
theorem isPrefixOf_append (h : needle.isPrefixOf l = true) : needle.isPrefixOf (l ++ m) = true :=
  List.isPrefixOf_iff_prefix.mpr
    ((List.isPrefixOf_iff_prefix.mp h).trans (List.prefix_append l m))

/-- What begins a continuation of a list begins the list, if the list is long enough. -/
theorem isPrefixOf_of_append (h : needle.isPrefixOf (l ++ m) = true)
    (hle : needle.length ≤ l.length) : needle.isPrefixOf l = true :=
  List.isPrefixOf_iff_prefix.mpr (List.prefix_of_prefix_length_le
    (List.isPrefixOf_iff_prefix.mp h) (List.prefix_append l m) hle)

/-- An occurrence is inside the list. -/
theorem find_le (h : find needle l = some i) : i + needle.length ≤ l.length := by
  induction l generalizing i with
  | nil =>
      unfold find at h
      split at h
      next hempty => cases h; simp [List.isEmpty_iff.mp hempty]
      · cases h
  | cons a as ih =>
      unfold find at h
      split at h
      next hpre =>
        cases h
        have := (List.isPrefixOf_iff_prefix.mp hpre).length_le
        omega
      · obtain ⟨j, hj, rfl⟩ := Option.map_eq_some_iff.mp h
        have := ih hj
        rw [List.length_cons]
        omega

/-- An occurrence stays the first one when the list is continued. -/
theorem find_append (h : find needle l = some i) : find needle (l ++ m) = some i := by
  induction l generalizing i with
  | nil =>
      unfold find at h
      split at h
      next hempty =>
        cases h
        rw [List.isEmpty_iff.mp hempty]
        cases m <;> rfl
      · cases h
  | cons a as ih =>
      have hle := find_le h
      unfold find at h
      rw [List.cons_append, find, ← List.cons_append]
      split at h
      next hpre => cases h; rw [if_pos (isPrefixOf_append hpre)]
      next hpre =>
        obtain ⟨j, hj, rfl⟩ := Option.map_eq_some_iff.mp h
        rw [if_neg fun h' => hpre (isPrefixOf_of_append h' (by omega)), ih hj]
        rfl

/-- An occurrence that comes with a continuation reaches into it. -/
theorem find_append_none (h : find needle l = none) (h' : find needle (l ++ m) = some i) :
    l.length < i + needle.length := by
  induction l generalizing i with
  | nil =>
      unfold find at h
      split at h
      · cases h
      next hempty =>
        have : needle ≠ [] := fun hnil => hempty (List.isEmpty_iff.mpr hnil)
        have := List.length_pos_iff.mpr this
        rw [List.length_nil]
        omega
  | cons a as ih =>
      unfold find at h
      rw [List.cons_append, find, ← List.cons_append] at h'
      split at h
      · cases h
      next hpre =>
        split at h'
        next hpre' =>
          cases h'
          by_contra hle
          exact hpre (isPrefixOf_of_append hpre' (by omega))
        · obtain ⟨j, hj, rfl⟩ := Option.map_eq_some_iff.mp h'
          have := ih (Option.map_eq_none_iff.mp h) hj
          rw [List.length_cons]
          omega

/-! ### What is found -/

/-- The search fails when there is no occurrence at all. -/
theorem find_eq_none : find needle l = none ↔ ¬ needle <:+: l := by
  induction l with
  | nil =>
      unfold find
      rw [List.infix_nil]
      cases needle <;> simp
  | cons a as ih =>
      unfold find
      rw [List.infix_cons_iff, ← List.isPrefixOf_iff_prefix]
      split
      next hpre => simp [hpre]
      next hpre => simp [hpre, ih]

/-- The search finds the first occurrence. -/
theorem find_eq_some_iff : find needle l = some i ↔
    i ≤ l.length ∧ needle <+: l.drop i ∧ ∀ j < i, ¬ needle <+: l.drop j := by
  induction l generalizing i with
  | nil =>
      unfold find
      cases needle with
      | nil => cases i <;> simp
      | cons a as => simp
  | cons a as ih =>
      unfold find
      split
      next hpre =>
        have hpre' := List.isPrefixOf_iff_prefix.mp hpre
        constructor
        · intro h
          cases h
          exact ⟨Nat.zero_le _, hpre', fun j hj => absurd hj (Nat.not_lt_zero j)⟩
        · rintro ⟨-, -, hfirst⟩
          cases i with
          | zero => rfl
          | succ i => exact absurd hpre' (hfirst 0 (Nat.succ_pos i))
      next hpre =>
        have hpre' : ¬ needle <+: a :: as := fun h =>
          hpre (List.isPrefixOf_iff_prefix.mpr h)
        cases i with
        | zero =>
            refine iff_of_false (fun h => ?_) fun h => hpre' h.2.1
            obtain ⟨j, -, hj⟩ := Option.map_eq_some_iff.mp h
            exact Nat.succ_ne_zero j hj
        | succ i =>
            have hmap : (find needle as).map (· + 1) = some (i + 1) ↔ find needle as = some i := by
              simp
            rw [hmap, ih, List.length_cons, Nat.add_le_add_iff_right, List.drop_succ_cons]
            refine and_congr_right fun _ => and_congr_right fun _ => ?_
            constructor
            · intro hfirst j hj
              cases j with
              | zero => exact hpre'
              | succ j => exact hfirst j (Nat.lt_of_succ_lt_succ hj)
            · exact fun hfirst j hj => hfirst (j + 1) (Nat.succ_lt_succ hj)

theorem isPrefix_of_find (h : find needle l = some i) : needle <+: l.drop i :=
  (find_eq_some_iff.mp h).2.1

theorem infix_of_find (h : find needle l = some i) : needle <:+: l :=
  (isPrefix_of_find h).isInfix.trans (List.drop_suffix i l).isInfix

/-- Nothing is found in front of the first place. -/
theorem not_infix_take (hne : needle ≠ []) (h : find needle l = some i) :
    ¬ needle <:+: l.take i := by
  rw [← find_eq_none]
  cases hj : find needle (l.take i) with
  | none => rfl
  | some j =>
      have hlong := find_append (m := l.drop i) hj
      rw [List.take_append_drop, h, Option.some.injEq] at hlong
      have hle := find_le hj
      have hpos := List.length_pos_iff.mpr hne
      rw [List.length_take] at hle
      omega

theorem find_singleton_none {a : α} : find [a] l = none ↔ a ∉ l := by
  rw [find_eq_none, not_iff_not]
  exact List.singleton_infix_iff a l

/-- A list without `a` moves the place of `a` back. -/
theorem find_singleton_append {a : α} (h : a ∉ l) :
    find [a] (l ++ m) = (find [a] m).map (· + l.length) := by
  induction l with
  | nil => simp
  | cons b l ih =>
      obtain ⟨hb, hl⟩ := List.ne_and_not_mem_of_not_mem_cons h
      have hpre : ¬ [a].isPrefixOf (b :: (l ++ m)) = true := by simpa using hb
      rw [List.cons_append, find, if_neg hpre, ih hl, Option.map_map]
      rfl

/-- A single item is found behind a part that does not have it. -/
theorem find_singleton {a : α} (h : a ∉ l) : find [a] (l ++ a :: m) = some l.length := by
  rw [find_singleton_append h, find, if_pos (by simp), Option.map_some, Nat.zero_add]

/-- A list is cut in one way at the first `a`. -/
theorem append_cons_inj {a : α} {l' m' : List α} (h : a ∉ l) (h' : a ∉ l') :
    l ++ a :: m = l' ++ a :: m' ↔ l = l' ∧ m = m' := by
  refine ⟨fun he => ?_, fun he => by rw [he.1, he.2]⟩
  have hfind : find [a] (l ++ a :: m) = some l'.length := he ▸ find_singleton h'
  rw [find_singleton h, Option.some.injEq] at hfind
  obtain ⟨hl, hm⟩ := List.append_inj he hfind
  exact ⟨hl, (List.cons.inj hm).2⟩

/-- A pair of different items is found behind a part that does not have it. -/
theorem find_pair {a b : α} (hab : a ≠ b) (h : ¬ [a, b] <:+: l) :
    find [a, b] (l ++ a :: b :: m) = some l.length := by
  rw [find_eq_some_iff]
  refine ⟨by simp, by simp, fun j hj hpre => ?_⟩
  rw [List.drop_append_of_le_length hj.le] at hpre
  cases htail : l.drop j with
  | nil =>
      have hlength := congrArg List.length htail
      rw [List.length_drop, List.length_nil] at hlength
      omega
  | cons x xs =>
      rw [htail] at hpre
      cases xs with
      | nil =>
          -- the pair would stand across the end of `l`, whose next element is `a`
          simp only [List.cons_append, List.nil_append, List.cons_prefix_cons] at hpre
          exact hab hpre.2.1.symm
      | cons y ys =>
          simp only [List.cons_append, List.cons_prefix_cons] at hpre
          refine h (List.IsInfix.trans ⟨[], ys, ?_⟩ (List.drop_suffix j l).isInfix)
          rw [htail, ← hpre.1, ← hpre.2.1]
          rfl

omit [DecidableEq α] in
/-- What stands in two lists with a foreign element between them stands in one of them. -/
theorem infix_of_append_cons {a : α} (ha : a ∉ needle) (h : needle <:+: l ++ a :: m) :
    needle <:+: l ∨ needle <:+: m := by
  rw [List.infix_append_iff] at h
  rcases h with h | h | ⟨l₁, l₂, rfl, h₁, h₂⟩
  · exact .inl h
  · rcases List.infix_cons_iff.mp h with h | h
    · cases needle with
      | nil => exact .inr (List.nil_infix)
      | cons b bs => exact absurd ((List.cons_prefix_cons.mp h).1 ▸ List.mem_cons_self) ha
    · exact .inr h
  · cases l₂ with
    | nil => exact .inl (by rw [List.append_nil]; exact h₁.isInfix)
    | cons b bs =>
        refine absurd ?_ ha
        rw [← (List.cons_prefix_cons.mp h₂).1]
        exact List.mem_append_right _ List.mem_cons_self

/-- A part at which `needle` does not begin anywhere. -/
theorem find_append_of_before (h : ∀ j < l.length, ¬ needle <+: (l ++ m).drop j) :
    find needle (l ++ m) = (find needle m).map (· + l.length) := by
  induction l with
  | nil => simp
  | cons a l ih =>
      have hpre : ¬ needle.isPrefixOf (a :: (l ++ m)) = true := fun hpre =>
        h 0 (Nat.succ_pos _) (List.isPrefixOf_iff_prefix.mp hpre)
      rw [List.cons_append, find, if_neg hpre, ih fun j hj => h (j + 1) (Nat.succ_lt_succ hj),
        Option.map_map]
      rfl

omit [DecidableEq α] in
/-- A prefix without `a` ends before the first `a`. -/
theorem prefix_append_cons_iff {a : α} (ha : a ∉ needle) : needle <+: l ++ a :: m ↔ needle <+: l := by
  refine ⟨fun h => ?_, fun h => h.trans (List.prefix_append l _)⟩
  have hmark : l ++ [a] <+: l ++ a :: m := by simp
  rcases List.prefix_or_prefix_of_prefix h hmark with h' | h'
  · rcases List.prefix_concat_iff.mp h' with rfl | h'
    · exact absurd (List.mem_append_right _ List.mem_cons_self) ha
    · exact h'
  · exact absurd (h'.subset (List.mem_append_right _ List.mem_cons_self)) ha

/-- Across a foreign element nothing is found. -/
theorem find_append_cons {a : α} (ha : a ∉ needle) (hne : needle ≠ []) :
    find needle (l ++ a :: m) =
      (find needle l).or ((find needle m).map (· + (l.length + 1))) := by
  induction l with
  | nil =>
      have hpre : ¬ needle.isPrefixOf (a :: m) = true := fun h => by
        have := (prefix_append_cons_iff (l := []) ha).mp (List.isPrefixOf_iff_prefix.mp h)
        exact hne (List.prefix_nil.mp this)
      have hnil : find needle ([] : List α) = none := by
        rw [find, if_neg fun h => hne (List.isEmpty_iff.mp h)]
      rw [List.nil_append, hnil, find, if_neg hpre]
      rfl
  | cons x l ih =>
      have hiff : needle.isPrefixOf (x :: (l ++ a :: m)) = true ↔
          needle.isPrefixOf (x :: l) = true := by
        rw [List.isPrefixOf_iff_prefix, List.isPrefixOf_iff_prefix, ← List.cons_append]
        exact prefix_append_cons_iff ha
      rw [List.cons_append, find, find, ih]
      by_cases hpre : needle.isPrefixOf (x :: l) = true
      · rw [if_pos (hiff.mpr hpre), if_pos hpre]
        rfl
      · rw [if_neg fun h => hpre (hiff.mp h), if_neg hpre]
        cases find needle l with
        | some i => rfl
        | none =>
            simp only [Option.none_or, Option.map_map, Option.map_none]
            rfl

end Search
