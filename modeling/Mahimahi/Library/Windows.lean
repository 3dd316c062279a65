import Mathlib.Data.List.Basic

/-!
# Library — windows by age and by count

A queue whose entries grow old from the front, and which is to keep those that are not old, and at
least `keep` of them.  `recent old keep l` says what is to be kept of `l`; `expire old keep l` is the
loop that takes old entries off the front while there are more than `keep`.

* `expire_drop`: the loop keeps what is to be kept, also when part of what is to go has been dropped
  before.
-/

namespace Windows

universe u

variable {α : Type u} {old : α → Bool} {keep j : Nat} {l : List α}

/-- The entries that are not old; or, where these are fewer than `keep`, the last `keep`. -/
def recent (old : α → Bool) (keep : Nat) (l : List α) : List α :=
  let young := l.filter (!old ·)
  if young.length < keep then l.drop (l.length - keep) else young

/-- Items are dropped from the front as long as they are old and more than `keep` are left. -/
def expire (old : α → Bool) (keep : Nat) : List α → List α
  | [] => []
  | a :: l => if keep < (a :: l).length ∧ old a = true then expire old keep l else a :: l

/-- An entry that comes before an old one is old. -/
def Aging (old : α → Bool) (l : List α) : Prop := l.Pairwise fun a b => old b = true → old a = true

/-- How many entries are to go. -/
def excess (old : α → Bool) (keep : Nat) (l : List α) : Nat :=
  min (l.countP old) (l.length - keep)

/-- If the first item is not old, none is. -/
theorem Aging.countP_eq_zero {a : α} (h : Aging old (a :: l)) (ha : old a = false) :
    (a :: l).countP old = 0 := by
  rw [List.countP_eq_zero]
  intro b hb hold
  rcases List.mem_cons.mp hb with rfl | hb
  · rw [ha] at hold; cases hold
  · have := (List.pairwise_cons.mp h).1 b hb hold
    rw [ha] at this; cases this

/-- The items that are not old are the last ones. -/
theorem Aging.filter_eq_drop (h : Aging old l) : l.filter (!old ·) = l.drop (l.countP old) := by
  induction l with
  | nil => rfl
  | cons a l ih =>
      cases ha : old a with
      | true => simpa [ha] using ih (List.pairwise_cons.mp h).2
      | false =>
          rw [h.countP_eq_zero ha, List.drop_zero, List.filter_eq_self]
          intro b hb
          have := List.countP_eq_zero.mp (h.countP_eq_zero ha) b hb
          simpa using this

theorem Aging.drop (h : Aging old l) (j : Nat) : Aging old (l.drop j) :=
  List.Pairwise.sublist (List.drop_sublist j l) h

/-- Dropping old items leaves that many fewer of them. -/
theorem Aging.countP_drop (h : Aging old l) (hj : j ≤ l.countP old) :
    (l.drop j).countP old = l.countP old - j := by
  induction l generalizing j with
  | nil => simp
  | cons a l ih =>
      cases j with
      | zero => rfl
      | succ j =>
          cases ha : old a with
          | true =>
              have hcount : (a :: l).countP old = l.countP old + 1 := by simp [ha]
              rw [List.drop_succ_cons, ih (List.pairwise_cons.mp h).2 (by omega)]
              omega
          | false =>
              rw [h.countP_eq_zero ha] at hj
              omega

/-- What is recent is what is left when the excess has been dropped. -/
theorem Aging.recent_eq_drop (h : Aging old l) : recent old keep l = l.drop (excess old keep l) := by
  have hlen := List.countP_le_length (p := old) (l := l)
  unfold recent excess
  rw [h.filter_eq_drop]
  dsimp only
  rw [List.length_drop]
  split
  · rw [Nat.min_eq_right (by omega)]
  · rw [Nat.min_eq_left (by omega)]

/-- The loop drops exactly the excess. -/
theorem Aging.expire_eq_drop (h : Aging old l) : expire old keep l = l.drop (excess old keep l) := by
  induction l with
  | nil => rfl
  | cons a l ih =>
      rw [expire]
      split
      · rename_i hgo
        have hcount : (a :: l).countP old = l.countP old + 1 := by simp [hgo.2]
        have hexcess : excess old keep (a :: l) = excess old keep l + 1 := by
          have := hgo.1
          unfold excess
          rw [hcount]
          simp only [List.length_cons] at this ⊢
          omega
        rw [ih (List.pairwise_cons.mp h).2, hexcess, List.drop_succ_cons]
      · rename_i hstay
        have hzero : excess old keep (a :: l) = 0 := by
          unfold excess
          by_cases hkeep : keep < (a :: l).length
          · have ha : old a = false := Bool.eq_false_iff.mpr fun ha => hstay ⟨hkeep, ha⟩
            rw [h.countP_eq_zero ha, Nat.zero_min]
          · omega
        rw [hzero, List.drop_zero]

/-- **The loop keeps what is to be kept**, also when part of what is to go has been dropped before. -/
theorem expire_drop (h : Aging old l) (hj : j ≤ excess old keep l) :
    expire old keep (l.drop j) = recent old keep l := by
  have hcount : j ≤ l.countP old := Nat.le_trans hj (Nat.min_le_left _ _)
  have hexcess : excess old keep (l.drop j) = excess old keep l - j := by
    unfold excess at hj ⊢
    rw [h.countP_drop hcount, List.length_drop]
    omega
  rw [(h.drop j).expire_eq_drop, h.recent_eq_drop, hexcess, List.drop_drop, Nat.add_sub_cancel' hj]

/-- Where everything is old, the loop leaves no more than `keep`. -/
theorem length_expire_le (h : ∀ a ∈ l, old a = true) : (expire old keep l).length ≤ keep := by
  induction l with
  | nil => simp [expire]
  | cons a l ih =>
      rw [expire]
      split
      · exact ih fun b hb => h b (List.mem_cons_of_mem _ hb)
      · rename_i hstay
        exact Nat.le_of_not_lt fun hlt => hstay ⟨hlt, h a List.mem_cons_self⟩

end Windows
