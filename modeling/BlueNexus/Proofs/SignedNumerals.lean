import BlueNexus.Numeral
import Mathlib.Algebra.Group.Nat.Defs
import Mathlib.Data.List.Infix

/-!
# Integers as signed digits

No part of a run of digits is worth more than the whole run. A run that is not empty is read as the
integer that it is worth, unless this is beyond 64 bits. An integer is written as an optional sign
and digits. Reading gives back what was written, as far as 64 bits hold it, and does not look at
what follows the digits (`leading?_signed`, `leading?_decimal_append`).
-/

namespace BlueNexus.Numeral

section Digits

variable {a b digits : Text} {v : Int64}

theorem digitsValue_append (a b : Text) :
    digitsValue (a ++ b) = 10 ^ b.length * digitsValue a + digitsValue b := by
  rw [digitsValue, Nat.ofDigitChars_append]
  exact Nat.ofDigitChars_eq_ofDigitChars_zero

theorem digitsValue_mono (h : a <+: b) : digitsValue a ≤ digitsValue b := by
  obtain ⟨r, rfl⟩ := h
  have hpow : 0 < 10 ^ r.length := Nat.pow_pos (by decide)
  rw [digitsValue_append]
  exact (Nat.le_mul_of_pos_left _ hpow).trans (Nat.le_add_right _ _)

theorem digitsValue_le_of_infix (h : a <:+: b) : digitsValue a ≤ digitsValue b := by
  obtain ⟨s, hs, hb⟩ := List.infix_iff_prefix_suffix.1 h
  obtain ⟨r, rfl⟩ := hb
  refine (digitsValue_mono hs).trans ?_
  rw [digitsValue_append]
  exact Nat.le_add_left _ _

theorem max_lt_of_signed?_eq_none (hne : digits ≠ []) (h : signed? false digits = none) :
    Int64.maxValue.toInt < digitsValue digits := by
  simp only [signed?, if_neg hne, int64?, Bool.false_eq_true, if_false] at h
  by_contra hle
  have hmin : Int64.minValue.toInt ≤ 0 := by decide
  rw [if_pos ⟨by omega, by omega⟩] at h
  cases h

theorem signed?_of_le (hne : digits ≠ []) (h : digitsValue digits ≤ Int64.maxValue.toInt) :
    signed? false digits = some (.ofInt (digitsValue digits)) := by
  have hmin : Int64.minValue.toInt ≤ 0 := by decide
  rw [signed?, if_neg hne, if_neg Bool.false_ne_true, int64?, if_pos ⟨by omega, h⟩]

theorem signed?_eq_some_iff (hne : digits ≠ []) :
    signed? false digits = some v ↔ v.toInt = digitsValue digits := by
  simp only [signed?, if_neg hne, int64?, Bool.false_eq_true, if_false]
  constructor
  · intro h
    split at h
    · next hin =>
      cases h
      rw [Int64.toInt_minValue, Int64.toInt_maxValue] at hin
      exact Int64.toInt_ofInt_of_le hin.1 (by omega)
    · cases h
  · intro hv
    rw [← hv, if_pos ⟨v.minValue_le_toInt, v.toInt_le⟩, Int64.ofInt_toInt]

end Digits

/-- A text of digits, of which there is at least one. -/
structure IsDigits (t : Text) : Prop where
  ne_nil : t ≠ []
  all : ∀ c ∈ t, c.isDigit = true

/-- What may stand in front of digits. -/
inductive Sign where
  | none
  | plus
  | minus
deriving DecidableEq

namespace Sign

def text : Sign → Text
  | .none => []
  | .plus => ['+']
  | .minus => ['-']

def negative : Sign → Bool
  | .minus => true
  | _ => false

/-- The number of this sign and the given magnitude. -/
def apply {α : Type} [Neg α] (s : Sign) (a : α) : α := if s.negative then -a else a

/-- The sign with which an integer is written. -/
def ofInt (v : Int) : Sign := if v < 0 then .minus else .none

theorem apply_cases (s : Sign) (m : Nat) :
    s.negative = false ∧ s.apply (m : Int) = m ∨ s.negative = true ∧ s.apply (m : Int) = -m := by
  cases s with
  | none | plus => exact .inl ⟨rfl, rfl⟩
  | minus => exact .inr ⟨rfl, rfl⟩

@[simp] theorem apply_natAbs (v : Int) : (ofInt v).apply (v.natAbs : Int) = v := by
  by_cases hv : v < 0
  · have hneg : -(v.natAbs : Int) = v := by omega
    rw [ofInt, if_pos hv]
    exact hneg
  · have hnonneg : (v.natAbs : Int) = v := by omega
    rw [ofInt, if_neg hv]
    exact hnonneg

end Sign

variable {digits rest t : Text} {v : Int} {n : Int64}

@[simp] theorem takeSign_text_append (s : Sign) (h : ∀ c ∈ t.head?, c ≠ '-' ∧ c ≠ '+') :
    takeSign (s.text ++ t) = (s.negative, t) := by
  cases s with
  | plus | minus => rfl
  | none =>
    cases t with
    | nil => rfl
    | cons c t =>
      obtain ⟨hminus, hplus⟩ := h c rfl
      simp [Sign.text, Sign.negative, takeSign, hminus, hplus]

theorem not_sign_of_isDigit {c : Char} (h : c.isDigit = true) : c ≠ '-' ∧ c ≠ '+' := by
  constructor
  · rintro rfl
    cases h
  · rintro rfl
    cases h

@[simp] theorem int64?_eq_some_iff : int64? v = some n ↔ n.toInt = v := by
  have hn := n.minValue_le_toInt
  have hn' := n.toInt_le
  rw [int64?]
  split
  · next h =>
    rw [Int64.toInt_minValue, Int64.toInt_maxValue] at h
    have hv : (Int64.ofInt v).toInt = v := Int64.toInt_ofInt_of_le h.1 (by omega)
    rw [Option.some.injEq, ← Int64.toInt_inj, hv, eq_comm]
  · next h =>
    simp only [reduceCtorEq, false_iff]
    rintro rfl
    exact h ⟨hn, hn'⟩

@[simp] theorem int64?_eq_none_iff :
    int64? v = none ↔ ¬(Int64.minValue.toInt ≤ v ∧ v ≤ Int64.maxValue.toInt) := by
  simp [int64?]

@[simp] theorem int64?_toInt (n : Int64) : int64? n.toInt = some n := int64?_eq_some_iff.2 rfl

namespace IsDigits

variable (h : IsDigits digits)

include h

theorem append (ht : ∀ c ∈ t, c.isDigit = true) : IsDigits (digits ++ t) where
  ne_nil := List.append_ne_nil_of_left_ne_nil h.ne_nil t
  all c hc := (List.mem_append.1 hc).elim (h.all c) (ht c)

private theorem head_append (t : Text) : ∀ c ∈ (digits ++ t).head?, c.isDigit = true := by
  obtain ⟨c, r, rfl⟩ := List.exists_cons_of_ne_nil h.ne_nil
  rintro d ⟨⟩
  exact h.all c List.mem_cons_self

theorem takeSign_eq (s : Sign) (t : Text) :
    takeSign (s.text ++ (digits ++ t)) = (s.negative, digits ++ t) :=
  takeSign_text_append s fun c hc => not_sign_of_isDigit (h.head_append t c hc)

theorem takeWhile_append (hrest : ∀ c ∈ rest.head?, c.isDigit = false) :
    (digits ++ rest).takeWhile Char.isDigit = digits := by
  rw [List.takeWhile_append_of_pos h.all]
  cases rest with
  | nil => simp
  | cons c rest => simp [hrest c rfl]

theorem signed?_eq (s : Sign) :
    signed? s.negative digits = int64? (s.apply (digitsValue digits : Int)) := if_neg h.ne_nil

theorem leading?_signed (s : Sign) (hrest : ∀ c ∈ rest.head?, c.isDigit = false) :
    leading? (s.text ++ (digits ++ rest)) = int64? (s.apply (digitsValue digits : Int)) := by
  simp only [leading?, h.takeSign_eq, h.takeWhile_append hrest, h.signed?_eq]

theorem leading?_eq (s : Sign) :
    leading? (s.text ++ digits) = int64? (s.apply (digitsValue digits : Int)) := by
  have hempty : ∀ c ∈ List.head? ([] : Text), c.isDigit = false := by simp
  have hread := h.leading?_signed s hempty
  rwa [List.append_nil] at hread

theorem whole?_signed (s : Sign) :
    whole? (s.text ++ digits) = int64? (s.apply (digitsValue digits : Int)) := by
  have hsign := h.takeSign_eq s []
  rw [List.append_nil] at hsign
  simp only [whole?, hsign, List.all_eq_true.2 h.all, if_true, h.signed?_eq]

end IsDigits

theorem digitsValue_lt (h : ∀ c ∈ digits, c.isDigit = true) :
    digitsValue digits < 10 ^ digits.length := by
  induction digits with
  | nil => exact Nat.zero_lt_one
  | cons c digits ih =>
    have hc : digitsValue [c] < 10 := by
      have hdigit : 48 ≤ c.toNat ∧ c.toNat ≤ 57 := by
        simpa [Char.isDigit_iff_toNat] using h c List.mem_cons_self
      simp [digitsValue, Nat.ofDigitChars_cons]
      omega
    have htail := ih fun d hd => h d (List.mem_cons_of_mem c hd)
    have hcons : digitsValue (c :: digits) = 10 ^ digits.length * digitsValue [c] +
        digitsValue digits := digitsValue_append [c] digits
    have hmul := Nat.mul_le_mul_left (10 ^ digits.length) (Nat.le_of_lt_succ hc)
    rw [List.length_cons, Nat.pow_succ]
    omega

@[simp] theorem digitsValue_toDigits (n : Nat) : digitsValue (Nat.toDigits 10 n) = n :=
  Nat.ofDigitChars_toDigits (by decide) (by decide)

theorem isDigits_toDigits (n : Nat) : IsDigits (Nat.toDigits 10 n) where
  ne_nil := Nat.toDigits_ne_nil
  all _ hc := Nat.isDigit_of_mem_toDigits (by decide) (by decide) hc

theorem decimal_eq (n : Int64) :
    decimal n = (Sign.ofInt n.toInt).text ++ Nat.toDigits 10 n.toInt.natAbs := by
  by_cases hn : n.toInt < 0
  · simp [decimal, Sign.ofInt, hn, Sign.text]
  · simp [decimal, Sign.ofInt, hn, Sign.text]

theorem decimal_of_nonneg (hn : 0 ≤ n.toInt) : decimal n = Nat.toDigits 10 n.toInt.toNat := by
  have habs : n.toInt.natAbs = n.toInt.toNat := by omega
  rw [decimal, if_neg (by omega), habs]

/-- Reading what was written gives the integer again, unless more digits follow. -/
@[simp] theorem leading?_decimal_append (n : Int64) (hrest : ∀ c ∈ rest.head?, c.isDigit = false) :
    leading? (decimal n ++ rest) = some n := by
  rw [decimal_eq, List.append_assoc, (isDigits_toDigits _).leading?_signed _ hrest,
    digitsValue_toDigits, Sign.apply_natAbs, int64?_toInt]

@[simp] theorem leading?_decimal (n : Int64) : leading? (decimal n) = some n := by
  rw [decimal_eq, (isDigits_toDigits _).leading?_eq, digitsValue_toDigits, Sign.apply_natAbs,
    int64?_toInt]

end BlueNexus.Numeral
