import Mathlib.Data.List.TakeWhile
import Mathlib.Tactic.Linarith

/-!
# Util — integers in text

`myatoi` reads a whole string as an integer with `strtol`, and throws otherwise.

* `myatoi_ok_iff`: in base 10 it accepts blanks, a sign and digits, when the value fits a `long`.
* `myatoi_hex`, `myatoi_hex_refused`: in base 16 it reads digits as their value, and throws when
  anything else is behind them.
-/

namespace Mahimahi

abbrev Bytes := List UInt8

namespace Ezio

/-- `isspace` in the C locale -/
def isspace (b : UInt8) : Bool := b == 32 || (9 ≤ b && b ≤ 13)

/-- The value of a digit, in either case. -/
def digitValue (b : UInt8) : Nat :=
  if 48 ≤ b ∧ b ≤ 57 then b.toNat - 48
  else if 97 ≤ b ∧ b ≤ 122 then b.toNat - 87
  else if 65 ≤ b ∧ b ≤ 90 then b.toNat - 55
  else 36

def isDigit (base : Nat) (b : UInt8) : Bool := digitValue b < base

def ofDigits (base : Nat) (digits : Bytes) : Nat :=
  digits.foldl (fun n b => base * n + digitValue b) 0

/-- The optional sign: whether it is a minus, and what follows it. -/
def sign : Bytes → Bool × Bytes
  | 45 :: s => (true, s)
  | 43 :: s => (false, s)
  | s => (false, s)

/-- In base 16, the `0x` in front of a digit. -/
def dropPrefix (base : Nat) : Bytes → Bytes
  | 48 :: x :: b :: s =>
      if base = 16 ∧ (x = 120 ∨ x = 88) ∧ isDigit 16 b then b :: s else 48 :: x :: b :: s
  | s => s

structure Strtol where
  value : Int
  /-- from `end` on -/
  rest : Bytes
  /-- `errno` is `ERANGE` -/
  range : Bool
  deriving DecidableEq, Repr

/-- `strtol`: blanks, a sign, digits. -/
def strtol (base : Nat) (s : Bytes) : Strtol :=
  let (negative, t) := sign (s.dropWhile isspace)
  let t := dropPrefix base t
  let digits := t.takeWhile (isDigit base)
  let rest := t.dropWhile (isDigit base)
  if digits.isEmpty then { value := 0, rest := s, range := false }
  else
    let value : Int := if negative then -(ofDigits base digits : Int) else ofDigits base digits
    if value < -2 ^ 63 then { value := -2 ^ 63, rest, range := true }
    else if 2 ^ 63 ≤ value then { value := 2 ^ 63 - 1, rest, range := true }
    else { value, rest, range := false }

/-- What `myatoi` throws: all of these are `runtime_error`s. -/
inductive IntegerError where
  | empty
  | range
  | invalid
  deriving DecidableEq, Repr

def myatoi (base : Nat) (str : Bytes) : Except IntegerError Int :=
  if str.isEmpty then .error .empty
  else
    let r := strtol base str
    if r.range then .error .range
    else if r.rest ≠ [] then .error .invalid
    else .ok r.value

/-! ### What base 10 accepts -/

/-- Blanks, at most one sign, and digits. -/
structure Decimal where
  blanks : Bytes
  negative : Bool
  /-- whether a sign that is not a minus is written -/
  plus : Bool
  digits : Bytes
  blanks_space : ∀ b ∈ blanks, isspace b = true
  digits_digit : ∀ b ∈ digits, isDigit 10 b = true
  digits_ne : digits ≠ []

namespace Decimal

def signText (d : Decimal) : Bytes := if d.negative then [45] else if d.plus then [43] else []

def text (d : Decimal) : Bytes := d.blanks ++ d.signText ++ d.digits

def value (d : Decimal) : Int :=
  if d.negative then -(ofDigits 10 d.digits : Int) else ofDigits 10 d.digits

end Decimal

/-- `s` is an integer written in decimal, of value `v`. -/
def IsInteger (s : Bytes) (v : Int) : Prop := ∃ d : Decimal, d.text = s ∧ d.value = v

theorem isDigit_ten {b : UInt8} : isDigit 10 b = true ↔ 48 ≤ b.toNat ∧ b.toNat ≤ 57 := by
  unfold isDigit digitValue
  simp only [UInt8.le_iff_toNat_le, decide_eq_true_eq]
  have h₁ : (48 : UInt8).toNat = 48 := rfl
  have h₂ : (57 : UInt8).toNat = 57 := rfl
  have h₃ : (97 : UInt8).toNat = 97 := rfl
  have h₄ : (122 : UInt8).toNat = 122 := rfl
  have h₅ : (65 : UInt8).toNat = 65 := rfl
  have h₆ : (90 : UInt8).toNat = 90 := rfl
  rw [h₁, h₂, h₃, h₄, h₅, h₆]
  repeat' split
  all_goals omega

theorem not_isspace_of_toNat {b : UInt8} (h : 33 ≤ b.toNat) : isspace b = false := by
  have h₁ : (b == 32) = false := by
    rw [beq_eq_false_iff_ne]
    rintro rfl
    exact absurd h (by decide)
  have h₂ : decide (b ≤ 13) = false := by
    rw [decide_eq_false_iff_not, UInt8.le_iff_toNat_le]
    have : (13 : UInt8).toNat = 13 := rfl
    omega
  rw [isspace, h₁, h₂, Bool.and_false, Bool.or_false]

theorem digit_ne_sign {b : UInt8} (h : isDigit 10 b = true) : b ≠ 45 ∧ b ≠ 43 := by
  rw [isDigit_ten] at h
  constructor <;> (rintro rfl; revert h; decide)

theorem dropPrefix_ten (s : Bytes) : dropPrefix 10 s = s := by
  unfold dropPrefix
  split
  · rw [if_neg (by simp)]
  · rfl

theorem sign_digits {s : Bytes} (h : ∀ b ∈ s, isDigit 10 b = true) : sign s = (false, s) := by
  cases s with
  | nil => rfl
  | cons b s =>
      have hb := digit_ne_sign (h b List.mem_cons_self)
      unfold sign
      split
      next heq => cases heq; exact absurd rfl hb.1
      next heq => cases heq; exact absurd rfl hb.2
      · rfl

theorem Decimal.dropWhile_text (d : Decimal) :
    d.text.dropWhile isspace = d.signText ++ d.digits := by
  have hhead : ∀ {b : UInt8} {s : Bytes}, 33 ≤ b.toNat → (b :: s).dropWhile isspace = b :: s :=
    fun hb => List.dropWhile_cons_of_neg (by simp [not_isspace_of_toNat hb])
  rw [Decimal.text, List.append_assoc, List.dropWhile_append_of_pos d.blanks_space]
  unfold Decimal.signText
  split
  · exact hhead (by decide)
  · split
    · exact hhead (by decide)
    · obtain ⟨b, s, hs⟩ := List.exists_cons_of_ne_nil d.digits_ne
      have hb := isDigit_ten.mp (d.digits_digit b (hs ▸ List.mem_cons_self))
      rw [List.nil_append, hs]
      exact hhead (by omega)

theorem Decimal.sign_text (d : Decimal) : sign (d.signText ++ d.digits) = (d.negative, d.digits) := by
  unfold Decimal.signText
  cases d.negative with
  | true => rfl
  | false =>
      cases d.plus with
      | true => rfl
      | false => exact sign_digits d.digits_digit

theorem strtol_text (d : Decimal) : strtol 10 d.text =
    if d.value < -2 ^ 63 then { value := -2 ^ 63, rest := [], range := true }
    else if 2 ^ 63 ≤ d.value then { value := 2 ^ 63 - 1, rest := [], range := true }
    else { value := d.value, rest := [], range := false } := by
  have hne : d.digits.isEmpty = false := by simpa using d.digits_ne
  unfold strtol
  rw [d.dropWhile_text, d.sign_text]
  dsimp only
  rw [dropPrefix_ten, List.takeWhile_eq_self_iff.mpr d.digits_digit,
    List.dropWhile_eq_nil_iff.mpr d.digits_digit, hne]
  rfl

theorem of_sign {t u : Bytes} {negative : Bool} (h : sign t = (negative, u)) :
    ∃ plus : Bool, t = (if negative then [45] else if plus then [43] else []) ++ u := by
  unfold sign at h
  split at h
  · cases h
    exact ⟨false, rfl⟩
  · cases h
    exact ⟨true, rfl⟩
  · cases h
    exact ⟨false, rfl⟩

/-- A conversion that used up a string that is not empty read a decimal integer. -/
theorem isInteger_of_strtol {s : Bytes} {v : Int} (hne : s ≠ [])
    (h : strtol 10 s = { value := v, rest := [], range := false }) :
    IsInteger s v ∧ -2 ^ 63 ≤ v ∧ v < 2 ^ 63 := by
  obtain ⟨⟨negative, t⟩, ht⟩ : ∃ r, sign (s.dropWhile isspace) = r := ⟨_, rfl⟩
  obtain ⟨plus, hplus⟩ := of_sign ht
  unfold strtol at h
  rw [ht] at h
  dsimp only at h
  rw [dropPrefix_ten] at h
  by_cases hdigits : (t.takeWhile (isDigit 10)).isEmpty = true
  · rw [if_pos hdigits] at h
    exact absurd (congrArg Strtol.rest h) hne
  · rw [if_neg hdigits] at h
    have hrange : ∀ {x : Int} {rest : Bytes},
        (if x < -2 ^ 63 then { value := -2 ^ 63, rest, range := true }
          else if 2 ^ 63 ≤ x then { value := 2 ^ 63 - 1, rest, range := true }
          else { value := x, rest, range := false } : Strtol) =
          { value := v, rest := [], range := false } →
        x = v ∧ rest = [] ∧ -2 ^ 63 ≤ x ∧ x < 2 ^ 63 := by
      intro x rest hx
      split at hx
      · cases hx
      · split at hx
        · cases hx
        · cases hx
          exact ⟨rfl, rfl, by omega, by omega⟩
    obtain ⟨hvalue, hrest, hlow, hhigh⟩ := hrange h
    have hall : t.takeWhile (isDigit 10) = t := by
      have := List.takeWhile_append_dropWhile (p := isDigit 10) (l := t)
      rwa [hrest, List.append_nil] at this
    rw [hall] at hvalue hdigits hlow hhigh
    refine ⟨⟨⟨s.takeWhile isspace, negative, plus, t, fun b hb => List.mem_takeWhile_imp hb,
      List.takeWhile_eq_self_iff.mp hall, by simpa using hdigits⟩, ?_, hvalue⟩,
      hvalue ▸ hlow, hvalue ▸ hhigh⟩
    rw [Decimal.text, List.append_assoc]
    exact (congrArg (s.takeWhile isspace ++ ·) hplus.symm).trans List.takeWhile_append_dropWhile

/-- **What `myatoi` accepts**: an integer in decimal that fits a `long`. -/
theorem myatoi_ok_iff {s : Bytes} {v : Int} :
    myatoi 10 s = .ok v ↔ IsInteger s v ∧ -2 ^ 63 ≤ v ∧ v < 2 ^ 63 := by
  constructor
  · intro h
    have hne : s ≠ [] := by
      rintro rfl
      cases h
    unfold myatoi at h
    rw [if_neg (by simpa using hne)] at h
    dsimp only at h
    split at h
    · cases h
    next hrange =>
      split at h
      · cases h
      next hrest =>
        cases h
        refine isInteger_of_strtol hne ?_
        have hrest' : (strtol 10 s).rest = [] := not_not.mp hrest
        have hrange' : (strtol 10 s).range = false := by simpa using hrange
        rw [← hrest', ← hrange']
  · rintro ⟨⟨d, rfl, rfl⟩, hlow, hhigh⟩
    have hempty : d.text.isEmpty = false := by
      simp [Decimal.text, d.digits_ne]
    have hread : strtol 10 d.text = { value := d.value, rest := [], range := false } := by
      rw [strtol_text, if_neg (Int.not_lt.mpr hlow), if_neg (Int.not_le.mpr hhigh)]
    rw [myatoi, hempty, hread]
    rfl

/-! ### Digits in base 16 -/

theorem isDigit_sixteen {b : UInt8} (h : isDigit 16 b = true) :
    33 ≤ b.toNat ∧ b ≠ 45 ∧ b ≠ 43 ∧ b ≠ 59 ∧ b ≠ 120 ∧ b ≠ 88 := by
  refine ⟨?_, ?_, ?_, ?_, ?_, ?_⟩
  · unfold isDigit digitValue at h
    simp only [UInt8.le_iff_toNat_le, decide_eq_true_eq] at h
    have h₁ : (48 : UInt8).toNat = 48 := rfl
    have h₂ : (97 : UInt8).toNat = 97 := rfl
    have h₃ : (65 : UInt8).toNat = 65 := rfl
    rw [h₁, h₂, h₃] at h
    repeat' split at h
    all_goals omega
  all_goals (rintro rfl; revert h; decide)

/-- A digit is not taken for a blank. -/
theorem dropWhile_digit {c : UInt8} {t : Bytes} (h : isDigit 16 c = true) :
    (c :: t).dropWhile isspace = c :: t :=
  List.dropWhile_cons_of_neg (by simp [not_isspace_of_toNat (isDigit_sixteen h).1])

/-- Nor for a sign. -/
theorem sign_digit {c : UInt8} {t : Bytes} (h : isDigit 16 c = true) :
    sign (c :: t) = (false, c :: t) := by
  unfold sign
  split
  next heq => cases heq; exact absurd rfl (isDigit_sixteen h).2.1
  next heq => cases heq; exact absurd rfl (isDigit_sixteen h).2.2.1
  · rfl

theorem dropPrefix_second {s : Bytes} (h : ∀ x ∈ s.tail.head?, x ≠ 120 ∧ x ≠ 88) :
    dropPrefix 16 s = s := by
  unfold dropPrefix
  split
  next x b s =>
    obtain ⟨hlower, hupper⟩ := h x rfl
    rw [if_neg fun hx => hx.2.1.elim hlower hupper]
  · rfl

/-- Digits in base 16 are read as their value. -/
theorem myatoi_hex {s : Bytes} (hne : s ≠ []) (h : ∀ b ∈ s, isDigit 16 b = true)
    (hfits : ofDigits 16 s < 2 ^ 63) : myatoi 16 s = .ok (ofDigits 16 s) := by
  obtain ⟨c, t, rfl⟩ := List.exists_cons_of_ne_nil hne
  have hc := h c List.mem_cons_self
  have hsecond : ∀ x ∈ (c :: t).tail.head?, x ≠ 120 ∧ x ≠ 88 := fun x hx =>
    (isDigit_sixteen (h x (List.mem_cons_of_mem _ (List.mem_of_mem_head? hx)))).2.2.2.2
  have hread : strtol 16 (c :: t) =
      { value := ofDigits 16 (c :: t), rest := [], range := false } := by
    unfold strtol
    rw [dropWhile_digit hc, sign_digit hc]
    dsimp only
    rw [dropPrefix_second hsecond, List.takeWhile_eq_self_iff.mpr h,
      List.dropWhile_eq_nil_iff.mpr h, List.isEmpty_cons]
    simp only [Bool.false_eq_true, if_false]
    rw [if_neg (by omega), if_neg (by omega)]
  rw [myatoi, List.isEmpty_cons, hread]
  rfl

/-- Digits with anything else behind them are refused. -/
theorem myatoi_hex_refused {s t : Bytes} {b : UInt8} (hne : s ≠ [])
    (h : ∀ c ∈ s, isDigit 16 c = true) (hb : isDigit 16 b = false) (hx : b ≠ 120 ∧ b ≠ 88) :
    ∃ e, myatoi 16 (s ++ b :: t) = .error e := by
  obtain ⟨c, u, rfl⟩ := List.exists_cons_of_ne_nil hne
  have hc := h c List.mem_cons_self
  have hsecond : ∀ x ∈ (c :: u ++ b :: t).tail.head?, x ≠ 120 ∧ x ≠ 88 := by
    intro x hhead
    cases u with
    | nil =>
        cases hhead
        exact hx
    | cons y u =>
        cases hhead
        exact (isDigit_sixteen (h x (by simp))).2.2.2.2
  have hdigits : (c :: u ++ b :: t).takeWhile (isDigit 16) = c :: u := by
    rw [List.takeWhile_append_of_pos h, List.takeWhile_cons_of_neg (by simp [hb]), List.append_nil]
  have hrest : (c :: u ++ b :: t).dropWhile (isDigit 16) = b :: t := by
    rw [List.dropWhile_append_of_pos h, List.dropWhile_cons_of_neg (by simp [hb])]
  have hread : (strtol 16 (c :: u ++ b :: t)).rest = b :: t := by
    unfold strtol
    rw [List.cons_append, dropWhile_digit hc, sign_digit hc, ← List.cons_append]
    dsimp only
    rw [dropPrefix_second hsecond, hdigits, hrest, if_neg (by simp)]
    repeat' split
    all_goals rfl
  unfold myatoi
  rw [if_neg (by simp)]
  dsimp only
  split
  · exact ⟨.range, rfl⟩
  · rw [hread, if_pos (List.cons_ne_nil _ _)]
    exact ⟨.invalid, rfl⟩

end Ezio

end Mahimahi
