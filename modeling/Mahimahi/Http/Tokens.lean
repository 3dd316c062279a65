import Mahimahi.Http.Header

/-!
# Http — what `split` finds

`split` with a separator of one byte, on strings put together from words that do not contain it.

* `split_word`, `split_word_cons`: the first word, and the tokens of the rest.
* `split_two`: a string with a separator has a second token.
* `split_last`: the last word is the last token.
* `indicesFrom_zero`: the loop of the source finds the places that `split` cuts at.
* `split_joins`: no index underflows, nothing is read out of range, and the tokens, joined with the
  separator, are the string.
-/

open Fallible MachineInt

namespace Mahimahi

open Search

variable {c : UInt8} {w t : Bytes}

/-! ### Where the separators are -/

theorem indicesOf_cons (c x : UInt8) (l : Bytes) :
    indicesOf (x :: l) [c] = (if c = x then [0] else []) ++ (indicesOf l [c]).map (· + 1) := by
  unfold indicesOf
  rw [List.length_cons, List.range_succ_eq_map, List.filter_cons, List.filter_map]
  have hrest : (fun i => [c].isPrefixOf ((x :: l).drop i)) ∘ Nat.succ =
      fun i => [c].isPrefixOf (l.drop i) := rfl
  rw [hrest]
  by_cases hx : c = x
  · simp [hx]
  · simp [hx]

theorem indicesOf_word (h : c ∉ w) : indicesOf w [c] = [] := by
  induction w with
  | nil => rfl
  | cons x w ih =>
      obtain ⟨hx, hw⟩ := List.ne_and_not_mem_of_not_mem_cons h
      rw [indicesOf_cons, if_neg hx, ih hw]
      rfl

theorem indicesOf_word_cons (h : c ∉ w) : indicesOf (w ++ c :: t) [c] =
    w.length :: (indicesOf t [c]).map (· + (w.length + 1)) := by
  induction w with
  | nil =>
      rw [List.nil_append, indicesOf_cons, if_pos rfl]
      rfl
  | cons x w ih =>
      obtain ⟨hx, hw⟩ := List.ne_and_not_mem_of_not_mem_cons h
      rw [List.cons_append, indicesOf_cons, if_neg hx, ih hw, List.nil_append, List.map_cons,
        List.map_map]
      rfl

theorem indicesOf_lt {s : Bytes} {i : Nat} (h : i ∈ indicesOf s [c]) : i + 1 ≤ s.length := by
  have hpre := List.isPrefixOf_iff_prefix.mp (List.mem_filter.mp h).2
  have hlength := hpre.length_le
  rw [List.length_singleton, List.length_drop] at hlength
  omega

/-- A separator in front of a last word is the last one. -/
theorem indicesOf_last (t : Bytes) (h : c ∉ w) :
    ∃ front, indicesOf (t ++ c :: w) [c] = front ++ [t.length] := by
  induction t with
  | nil =>
      refine ⟨[], ?_⟩
      rw [List.nil_append, indicesOf_cons, if_pos rfl, indicesOf_word h]
      rfl
  | cons x t ih =>
      obtain ⟨front, hfront⟩ := ih
      refine ⟨(if c = x then [0] else []) ++ front.map (· + 1), ?_⟩
      rw [List.cons_append, indicesOf_cons, hfront, List.map_append, List.append_assoc]
      rfl

/-! ### The tokens -/

theorem substr_ok {str : Bytes} {pos : Nat} (n : Nat) (h : pos ≤ str.length) :
    substr str pos n = .ok ((str.drop pos).take n) := if_neg (Nat.not_lt.mpr h)

theorem split_nil {s : Bytes} (h : indicesOf s [c] = []) : split s [c] = .ok [s] := by
  rw [split, h]

/-- The tokens of a string with separators at `first :: rest`. -/
theorem split_cons {s : Bytes} {first : Nat} {rest : List Nat}
    (h : indicesOf s [c] = first :: rest) :
    split s [c] = .ok (s.take first ::
      ((first :: rest).zip rest).map (fun i => (s.drop (i.1 + 1)).take (toU64 (i.2 - i.1 - 1))) ++
      [s.drop ((first :: rest).getLast (List.cons_ne_nil _ _) + 1)]) := by
  have hlt : ∀ i ∈ first :: rest, i + 1 ≤ s.length := fun i hi => indicesOf_lt (c := c) (h ▸ hi)
  have hinner : ((first :: rest).zip rest).mapM (fun i =>
      substr s (i.1 + [c].length) (toU64 (i.2 - i.1 - [c].length))) =
      .ok (((first :: rest).zip rest).map fun i =>
        (s.drop (i.1 + 1)).take (toU64 (i.2 - i.1 - 1))) :=
    mapM_ok fun i hi => substr_ok _ (hlt _ (List.of_mem_zip hi).1)
  have hlast : substr s ((first :: rest).getLast (List.cons_ne_nil _ _) + [c].length) s.length =
      .ok (s.drop ((first :: rest).getLast (List.cons_ne_nil _ _) + 1)) := by
    refine (substr_ok _ (hlt _ (List.getLast_mem _))).trans (congrArg Except.ok ?_)
    exact List.take_of_length_le (by rw [List.length_drop]; exact Nat.sub_le _ _)
  unfold split
  rw [h]
  dsimp only
  rw [hinner, ok_bind, hlast]
  rfl

theorem split_word (h : c ∉ w) : split w [c] = .ok [w] := split_nil (indicesOf_word h)

theorem toU64_natCast {n : Nat} (h : n < 2 ^ 64) : toU64 (n : Int) = n := by
  rw [toU64, Int.emod_eq_of_lt (by omega) (by omega), Int.toNat_natCast]

/-- The first word is the first token.  The next one is cut out with its length, in 64 bits. -/
theorem split_word_cons (h : c ∉ w) (hlength : ∀ i ∈ (indicesOf t [c]).head?, i < 2 ^ 64) :
    split (w ++ c :: t) [c] = (split t [c]).map (w :: ·) := by
  have hindices := indicesOf_word_cons (t := t) h
  have hdrop : ∀ n, (w ++ c :: t).drop (n + (w.length + 1)) = t.drop n := fun n => by
    rw [Nat.add_comm, ← List.drop_drop, List.drop_append, List.drop_of_length_le (Nat.le_succ _),
      Nat.add_sub_cancel_left]
    rfl
  cases hrest : indicesOf t [c] with
  | nil =>
      rw [hrest, List.map_nil] at hindices
      rw [split_nil hrest, split_cons hindices, List.take_left]
      refine congrArg (fun last => Except.ok (w :: [last])) ?_
      exact (congrArg ((w ++ c :: t).drop ·) (Nat.zero_add _).symm).trans (hdrop 0)
  | cons i is =>
      have hi : i < 2 ^ 64 := hlength i (by rw [hrest]; rfl)
      rw [hrest] at hindices
      have hfirst : ((w ++ c :: t).drop (w.length + 1)).take
          (toU64 (((i + (w.length + 1) : Nat) : Int) - w.length - 1)) = t.take i := by
        have hword : ((i + (w.length + 1) : Nat) : Int) - w.length - 1 = i := by omega
        rw [hword, toU64_natCast hi, ← Nat.zero_add (w.length + 1), hdrop]
        rfl
      have hinner : ((i :: is).zip is).map (fun p => ((w ++ c :: t).drop
            (p.1 + (w.length + 1) + 1)).take (toU64 (((p.2 + (w.length + 1) : Nat) : Int) -
              (p.1 + (w.length + 1) : Nat) - 1))) =
          ((i :: is).zip is).map fun p => (t.drop (p.1 + 1)).take (toU64 (p.2 - p.1 - 1)) := by
        refine List.map_congr_left fun p _ => ?_
        have hlen : ((p.2 + (w.length + 1) : Nat) : Int) - (p.1 + (w.length + 1) : Nat) - 1 =
            p.2 - p.1 - 1 := by omega
        rw [hlen, Nat.add_right_comm, hdrop]
      rw [split_cons hrest, split_cons hindices, List.take_left, List.map_cons, List.zip_cons_cons,
        List.map_cons, hfirst, ← List.map_cons (f := (· + (w.length + 1))), List.zip_map,
        List.map_map]
      refine congrArg (fun tokens => Except.ok (w :: t.take i :: tokens)) ?_
      have hlast : (w.length :: (i :: is).map (· + (w.length + 1))).getLast (List.cons_ne_nil _ _) =
          (i :: is).getLast (List.cons_ne_nil _ _) + (w.length + 1) := by
        rw [List.getLast_cons (by simp), List.getLast_map]
      refine congrArg₂ (· ++ [·]) hinner ?_
      rw [hlast, Nat.add_right_comm, hdrop]

/-- A string with a separator has a second token. -/
theorem split_two (h : c ∉ w) : ∃ x xs, split (w ++ c :: t) [c] = .ok (w :: x :: xs) := by
  rw [split_cons (indicesOf_word_cons (t := t) h), List.take_left]
  generalize List.map _ (List.zip _ _) = inner
  cases inner with
  | nil => exact ⟨_, [], rfl⟩
  | cons x xs => exact ⟨x, _, rfl⟩

/-- The last word is the last token. -/
theorem split_last (t : Bytes) (h : c ∉ w) : ∃ xs, split (t ++ c :: w) [c] = .ok (xs ++ [w]) := by
  obtain ⟨front, hfront⟩ := indicesOf_last t h
  have hdrop : (t ++ c :: w).drop (t.length + 1) = w := by
    rw [List.drop_append, List.drop_of_length_le (Nat.le_succ _), Nat.add_sub_cancel_left]
    rfl
  cases front with
  | nil =>
      rw [split_cons hfront, List.getLast_singleton, hdrop]
      exact ⟨_, rfl⟩
  | cons i is =>
      have hlast : (i :: (is ++ [t.length])).getLast (List.cons_ne_nil _ _) = t.length := by
        simp
      have hindices : indicesOf (t ++ c :: w) [c] = i :: (is ++ [t.length]) := hfront
      rw [split_cons hindices, hlast, hdrop]
      exact ⟨_, rfl⟩

/-! ### The loop -/

/-- `str.find( separator, pos )` -/
def findFrom (separator str : Bytes) (pos : Nat) : Option Nat :=
  if str.length < pos then none else (find separator (str.drop pos)).map (· + pos)

theorem findFrom_bounds {separator str : Bytes} {pos i : Nat}
    (h : findFrom separator str pos = some i) : pos ≤ i ∧ i ≤ str.length := by
  unfold findFrom at h
  split at h
  · cases h
  · obtain ⟨j, hj, rfl⟩ := Option.map_eq_some_iff.mp h
    have hle := find_le hj
    rw [List.length_drop] at hle
    omega

/-- The loop that pushes the places of the separator to `indices`, from `next_token` on. -/
def indicesFrom (str separator : Bytes) (nextToken : Nat) : List Nat :=
  match h : findFrom separator str nextToken with
  | none => []
  | some i => i :: indicesFrom str separator (i + 1)
termination_by str.length + 1 - nextToken
decreasing_by
  have := findFrom_bounds h
  omega

/-- The loop goes once over the places from `next_token` on. -/
theorem indicesFrom_eq (str separator : Bytes) (nextToken : Nat) :
    indicesFrom str separator nextToken =
      (List.range' nextToken (str.length + 1 - nextToken)).filter
        fun i => separator.isPrefixOf (str.drop i) := by
  -- no place in front of the first one found has the separator
  have hnot : ∀ {l : List Nat}, (∀ i ∈ l, ¬ separator <+: str.drop i) →
      l.filter (fun i => separator.isPrefixOf (str.drop i)) = [] := fun h =>
    List.filter_eq_nil_iff.mpr fun i hi hpre => h i hi (List.isPrefixOf_iff_prefix.mp hpre)
  induction nextToken using indicesFrom.induct str separator with
  | case1 pos h =>
      rw [indicesFrom, h]
      refine (hnot fun i hi hpre => ?_).symm
      obtain ⟨hpos, hlt⟩ := List.mem_range'_1.mp hi
      rw [findFrom, if_neg (by omega), Option.map_eq_none_iff, find_eq_none] at h
      refine h (hpre.isInfix.trans ?_)
      rw [← Nat.add_sub_cancel' hpos, ← List.drop_drop]
      exact (List.drop_suffix _ _).isInfix
  | case2 pos i h ih =>
      obtain ⟨hpos, hle⟩ := findFrom_bounds h
      have hfound := h
      rw [findFrom, if_neg (by omega)] at hfound
      obtain ⟨j, hj, rfl⟩ := Option.map_eq_some_iff.mp hfound
      obtain ⟨-, hpre, hfirst⟩ := find_eq_some_iff.mp hj
      rw [List.drop_drop, Nat.add_comm] at hpre
      have hrange : List.range' pos (str.length + 1 - pos) =
          List.range' pos j ++ (j + pos) :: List.range' (j + pos + 1) (str.length - (j + pos)) := by
        have hhead : (j + pos) :: List.range' (j + pos + 1) (str.length - (j + pos)) =
            List.range' (j + pos) (str.length - (j + pos) + 1) := List.range'_succ.symm
        rw [hhead, Nat.add_comm j pos, List.range'_append_1]
        congr 1
        omega
      have hbefore := hnot (l := List.range' pos j) fun k hk hpre' => by
        obtain ⟨hk, hlt⟩ := List.mem_range'_1.mp hk
        refine hfirst (k - pos) (by omega) ?_
        rwa [List.drop_drop, Nat.add_sub_cancel' hk]
      have hhere : separator.isPrefixOf (str.drop (j + pos)) = true :=
        List.isPrefixOf_iff_prefix.mpr hpre
      rw [Nat.add_sub_add_right] at ih
      rw [indicesFrom, h, hrange, List.filter_append, hbefore, List.filter_cons, if_pos hhere]
      exact congrArg ((j + pos) :: ·) ih

theorem indicesFrom_zero (str separator : Bytes) :
    indicesFrom str separator 0 = indicesOf str separator := by
  rw [indicesFrom_eq, indicesOf, List.range_eq_range']
  rfl

/-! ### Tokens and the string -/

theorem indicesOf_apart (s : Bytes) (c : UInt8) :
    (indicesOf s [c]).Pairwise fun i j => i + [c].length ≤ j :=
  List.pairwise_lt_range.filter _

/-- A string is a word, or a word with the separator and another string behind it. -/
theorem words_induction {P : Bytes → Prop} (c : UInt8) (hword : ∀ w, c ∉ w → P w)
    (hcons : ∀ w t, c ∉ w → P t → P (w ++ c :: t)) (s : Bytes) : P s := by
  induction hn : s.length using Nat.strongRecOn generalizing s with
  | ind n ih =>
      by_cases hc : c ∈ s
      · obtain ⟨w, t, rfl, hw⟩ := List.eq_append_cons_of_mem hc
        rw [List.length_append, List.length_cons] at hn
        exact hcons w t hw (ih t.length (by omega) t rfl)
      · exact hword s hc

/-- The tokens are those of `List.splitOn`. -/
theorem split_eq_splitOn {s : Bytes} (c : UInt8) (h : s.length < 2 ^ 64) :
    split s [c] = .ok (s.splitOn c) := by
  induction s using words_induction c with
  | hword w hw => rw [split_word hw, List.splitOn_eq_singleton hw]
  | hcons w t hw ih =>
      rw [List.length_append, List.length_cons] at h
      have hfirst : ∀ i ∈ (indicesOf t [c]).head?, i < 2 ^ 64 := fun i hi => by
        have := indicesOf_lt (List.mem_of_mem_head? hi)
        omega
      rw [split_word_cons hw hfirst, ih (by omega), List.splitOn_append_cons_self_of_not_mem hw]
      rfl

theorem not_mem_splitOn (c : UInt8) (s : Bytes) : ∀ token ∈ s.splitOn c, c ∉ token := by
  induction s using words_induction c with
  | hword w hw =>
      rw [List.splitOn_eq_singleton hw]
      exact List.forall_mem_singleton.mpr hw
  | hcons w t hw ih =>
      rw [List.splitOn_append_cons_self_of_not_mem hw]
      exact List.forall_mem_cons.mpr ⟨hw, ih⟩

/-- **`split` cuts a string at its separators**, which are where the loop of the source finds them.
A `std::string` has fewer than 2 ^ 64 bytes. -/
theorem split_joins (s : Bytes) (c : UInt8) (h : s.length < 2 ^ 64) :
    indicesFrom s [c] 0 = indicesOf s [c] ∧
    (indicesOf s [c]).Pairwise (fun i j => i + [c].length ≤ j) ∧
    (∀ i ∈ indicesOf s [c], i + [c].length ≤ s.length) ∧
    ∃ tokens, split s [c] = .ok tokens ∧ (∀ token ∈ tokens, c ∉ token) ∧
      [c].intercalate tokens = s :=
  ⟨indicesFrom_zero s [c], indicesOf_apart s c, fun _ => indicesOf_lt, s.splitOn c, split_eq_splitOn c h,
    not_mem_splitOn c s, List.intercalate_splitOn c⟩

/-- `,a,,b,` -/
theorem split_joins_commas :
    indicesFrom [44, 97, 44, 44, 98, 44] [44] 0 = indicesOf [44, 97, 44, 44, 98, 44] [44] ∧
    (indicesOf [44, 97, 44, 44, 98, 44] [44]).Pairwise (fun i j => i + [(44 : UInt8)].length ≤ j) ∧
    (∀ i ∈ indicesOf [44, 97, 44, 44, 98, 44] [44],
      i + [(44 : UInt8)].length ≤ [44, 97, 44, 44, 98, 44].length) ∧
    ∃ tokens, split [44, 97, 44, 44, 98, 44] [44] = .ok tokens ∧ (∀ token ∈ tokens, 44 ∉ token) ∧
      [44].intercalate tokens = [44, 97, 44, 44, 98, 44] :=
  split_joins [44, 97, 44, 44, 98, 44] 44 (by decide)

end Mahimahi
