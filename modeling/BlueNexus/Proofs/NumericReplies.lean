import BlueNexus.Host
import BlueNexus.Proofs.NearestDoubles
import BlueNexus.Proofs.SignedNumerals
import Mathlib.Data.List.TakeWhile

/-!
# Numerals as replies

An integer that 64 bits hold is taken as it is. A larger one goes through the nearest double and is
held at the end of the range, up to the integers that have no finite double, which come to zero
(`scalar_of_integer`). A numeral with a point goes through the nearest double too, and still comes
to its own floor as long as it has at most 15 digits (`scalar_of_decimal`).
-/

namespace BlueNexus

namespace Numeral

variable {digits whole fraction : Text} {v : Int}

theorem IsDigits.ofText?_eq (h : IsDigits digits) (s : Sign) :
    Scientific.ofText? (s.text ++ digits) = some ⟨s.negative, digits, 0⟩ := by
  have hsign := h.takeSign_eq s []
  have htake := List.takeWhile_eq_self_iff.2 h.all
  have hdrop := List.dropWhile_eq_nil_iff.2 h.all
  rw [List.append_nil] at hsign
  simp [Scientific.ofText?, hsign, htake, hdrop, Scientific.takeFraction, h.ne_nil,
    Scientific.exponent?]

section Point

variable (hwhole : ∀ c ∈ whole, c.isDigit = true)

include hwhole

theorem takeSign_point (s : Sign) :
    takeSign (s.text ++ (whole ++ '.' :: fraction)) = (s.negative, whole ++ '.' :: fraction) := by
  apply takeSign_text_append
  cases whole with
  | nil =>
    rintro c ⟨⟩
    decide
  | cons d whole =>
    rintro c ⟨⟩
    exact not_sign_of_isDigit (hwhole d List.mem_cons_self)

private theorem whole?_point (s : Sign) : whole? (s.text ++ (whole ++ '.' :: fraction)) = none := by
  have hpoint : '.'.isDigit = false := rfl
  simp [whole?, takeSign_point hwhole s, hpoint]

private theorem ofText?_point (hfraction : ∀ c ∈ fraction, c.isDigit = true)
    (hne : whole ≠ [] ∨ fraction ≠ []) (s : Sign) :
    Scientific.ofText? (s.text ++ (whole ++ '.' :: fraction)) =
      some ⟨s.negative, whole ++ fraction, -fraction.length⟩ := by
  have hpoint : '.'.isDigit = false := rfl
  have htake := List.takeWhile_eq_self_iff.2 hfraction
  have hdrop := List.dropWhile_eq_nil_iff.2 hfraction
  simp [Scientific.ofText?, takeSign_point hwhole s, List.takeWhile_append_of_pos hwhole,
    List.dropWhile_append_of_pos hwhole, hpoint, Scientific.takeFraction, htake, hdrop,
    Scientific.exponent?]
  rintro rfl
  simpa using hne

end Point

theorem units_of_places (negative : Bool) (digits : Text) {places : Nat}
    (h : places ≤ 400 + digits.length) :
    Scientific.units ⟨negative, digits, -places⟩ =
      Binary64.nearest (digitsValue digits) (10 ^ places) := by
  have hnear : ¬(-(places : Int) < -(400 + digits.length : Int)) := by omega
  have hsmall : ¬(400 < -(places : Int)) := by omega
  simp only [Scientific.units, hnear, hsmall, or_false, if_false]
  split
  · next hzero => rw [hzero, Binary64.nearest_zero]
  · split
    · next hnonneg =>
      have hplaces : places = 0 := by omega
      subst hplaces
      simp
    · simp

@[simp] theorem units_integer (negative : Bool) (digits : Text) :
    Scientific.units ⟨negative, digits, 0⟩ = Binary64.nearest (digitsValue digits) 1 :=
  units_of_places negative digits (Nat.zero_le _)

private theorem floor?_of_lt {x : Scientific} (h : x.units < Binary64.infinity) :
    x.floor? = some (.ofIntClamp (Binary64.floor x.negative x.units)) := if_pos h

private theorem floor?_of_le {x : Scientific} (h : Binary64.infinity ≤ x.units) : x.floor? = none :=
  if_neg (Nat.not_lt.2 h)

private theorem ofIntClamp_of_max_le (h : Int64.maxValue.toInt ≤ v) :
    Int64.ofIntClamp v = .maxValue := by
  have hmin : Int64.minValue.toInt ≤ v := Int.le_trans (by decide) h
  rw [Int64.ofIntClamp, dif_pos hmin]
  split
  · next hmax =>
    have hv : v = Int64.maxValue.toInt := by omega
    simp [Int64.ofIntLE, hv]
  · rfl

private theorem ofIntClamp_of_le_min (h : v ≤ Int64.minValue.toInt) :
    Int64.ofIntClamp v = .minValue := by
  rw [Int64.ofIntClamp]
  split
  · next hmin =>
    have hv : v = Int64.minValue.toInt := by omega
    subst hv
    rfl
  · rfl

private theorem ofIntClamp_floor_false {m : Nat} (h : 2 ^ 63 ≤ m) :
    Int64.ofIntClamp (Binary64.floor false (Binary64.nearest m 1)) = .maxValue := by
  apply ofIntClamp_of_max_le
  have hfloor := Binary64.le_floor_false (Binary64.two_pow_mul_one_le_nearest h)
  exact Int.le_trans (by decide) hfloor

private theorem ofIntClamp_floor_true {m : Nat} (h : 2 ^ 63 ≤ m) :
    Int64.ofIntClamp (Binary64.floor true (Binary64.nearest m 1)) = .minValue := by
  apply ofIntClamp_of_le_min
  have hfloor := Binary64.floor_true_le (Binary64.two_pow_mul_one_le_nearest h)
  exact Int.le_trans hfloor (by decide)

end Numeral

open Numeral

namespace Reply

variable {text digits whole fraction : Text} {s : Sign} {v : Int}

private theorem scalar_of_whole? {n : Int64} (h : whole? (Text.trim text) = some n) :
    (provided text).scalar = n := by
  simp [scalar, h]

theorem scalar_of_ofText? {x : Scientific} (hwhole : whole? (Text.trim text) = none)
    (h : Scientific.ofText? (Text.trim text) = some x) :
    (provided text).scalar = x.floor?.getD 0 := by
  simp [scalar, hwhole, h]

private theorem scalar_of_infinite {x : Scientific} (hwhole : whole? (Text.trim text) = none)
    (h : Scientific.ofText? (Text.trim text) = some x) (hunits : Binary64.infinity ≤ x.units) :
    (provided text).scalar = 0 := by
  rw [scalar_of_ofText? hwhole h, floor?_of_le hunits]
  rfl

theorem scalar_of_finite {x : Scientific} (hwhole : whole? (Text.trim text) = none)
    (h : Scientific.ofText? (Text.trim text) = some x) (hunits : x.units < Binary64.infinity) :
    (provided text).scalar = .ofIntClamp (Binary64.floor x.negative x.units) := by
  rw [scalar_of_ofText? hwhole h, floor?_of_lt hunits]
  rfl

section Integers

variable (htext : Text.trim text = s.text ++ digits) (hdigits : IsDigits digits)

include htext hdigits

private theorem scalar_of_held {n : Int64}
    (h : int64? (s.apply (digitsValue digits : Int)) = some n) : (provided text).scalar = n := by
  apply scalar_of_whole?
  rw [htext, hdigits.whole?_signed, h]

variable (hout : int64? (s.apply (digitsValue digits : Int)) = none)

include hout

private theorem scalar_of_unbounded (h : Binary64.overflow ≤ digitsValue digits) :
    (provided text).scalar = 0 := by
  apply scalar_of_infinite (x := ⟨s.negative, digits, 0⟩)
  · rw [htext, hdigits.whole?_signed, hout]
  · rw [htext, hdigits.ofText?_eq]
  · rw [units_integer]
    exact (Binary64.infinity_le_nearest_iff _).2 h

private theorem scalar_of_bounded (h : digitsValue digits < Binary64.overflow) :
    (provided text).scalar =
      .ofIntClamp (Binary64.floor s.negative (Binary64.nearest (digitsValue digits) 1)) := by
  rw [← units_integer s.negative digits]
  apply scalar_of_finite (x := ⟨s.negative, digits, 0⟩)
  · rw [htext, hdigits.whole?_signed, hout]
  · rw [htext, hdigits.ofText?_eq]
  · rw [units_integer]
    exact Nat.lt_of_not_le fun hle => Nat.not_le.2 h ((Binary64.infinity_le_nearest_iff _).1 hle)

omit hout

/-- Integers with a finite nearest double are held within 64 bits, all others come to zero. -/
theorem scalar_of_integer (hv : v = s.apply (digitsValue digits : Int)) :
    (Int64.minValue.toInt ≤ v → v ≤ Int64.maxValue.toInt → (provided text).scalar.toInt = v) ∧
      (Int64.maxValue.toInt < v → v < Binary64.overflow →
        (provided text).scalar = Int64.maxValue) ∧
      (v < Int64.minValue.toInt → -Binary64.overflow < v →
        (provided text).scalar = Int64.minValue) ∧
      (Binary64.overflow ≤ |v| → (provided text).scalar = 0) := by
  have hmax : Int64.maxValue.toInt = 2 ^ 63 - 1 := Int64.toInt_maxValue
  have hmin : Int64.minValue.toInt = -2 ^ 63 := Int64.toInt_minValue
  have hrange : 2 ^ 63 < Binary64.overflow := by decide +kernel
  have hunbounded := scalar_of_unbounded htext hdigits
  have hbounded := scalar_of_bounded htext hdigits
  have hhigh := ofIntClamp_floor_false (m := digitsValue digits)
  have hlow := ofIntClamp_floor_true (m := digitsValue digits)
  have hsign := s.apply_cases (digitsValue digits)
  rw [← hv] at hsign
  have habs : |v| = digitsValue digits := by
    obtain ⟨-, h⟩ | ⟨-, h⟩ := hsign <;> simp [h]
  rw [← hv, int64?_eq_none_iff] at hunbounded hbounded
  generalize Binary64.overflow = bound at *
  refine ⟨?_, ?_, ?_, ?_⟩
  · intro hle hle'
    obtain ⟨n, hn⟩ := Option.ne_none_iff_exists'.1 fun hout => int64?_eq_none_iff.1 hout ⟨hle, hle'⟩
    rw [scalar_of_held htext hdigits (hv ▸ hn)]
    exact int64?_eq_some_iff.1 hn
  · intro hbeyond hbound
    obtain ⟨hs, hvalue⟩ | ⟨hs, hvalue⟩ := hsign
    · rw [hbounded (by omega) (by omega), hs]
      exact hhigh (by omega)
    · omega
  · intro hbeyond hbound
    obtain ⟨hs, hvalue⟩ | ⟨hs, hvalue⟩ := hsign
    · omega
    · rw [hbounded (by omega) (by omega), hs]
      exact hlow (by omega)
  · intro hbound
    apply hunbounded
    · omega
    · omega

end Integers

theorem scalar_of_negative_power :
    Text.trim (['-', '1'] ++ List.replicate 308 '0') =
        Sign.minus.text ++ '1' :: List.replicate 308 '0' ∧
      IsDigits ('1' :: List.replicate 308 '0') ∧
      digitsValue ('1' :: List.replicate 308 '0') = 10 ^ 308 ∧
      (provided (['-', '1'] ++ List.replicate 308 '0')).scalar = Int64.minValue := by
  have htext : Text.trim (['-', '1'] ++ List.replicate 308 '0') =
      Sign.minus.text ++ '1' :: List.replicate 308 '0' := by decide +kernel
  have hdigits : IsDigits ('1' :: List.replicate 308 '0') :=
    ⟨List.cons_ne_nil _ _, List.all_eq_true.1 (by decide +kernel)⟩
  obtain ⟨-, -, hlow, -⟩ := scalar_of_integer htext hdigits rfl
  exact ⟨htext, hdigits, by decide +kernel, hlow (by decide +kernel) (by decide +kernel)⟩

/-- From 309 digits on, an integer can be beyond the doubles. -/
theorem scalar_of_nines :
    Text.trim (List.replicate 309 '9') = Sign.none.text ++ List.replicate 309 '9' ∧
      IsDigits (List.replicate 309 '9') ∧
      Int64.maxValue.toInt < digitsValue (List.replicate 309 '9') ∧
      (provided (List.replicate 309 '9')).scalar ≠ Int64.maxValue := by
  have hdigits : IsDigits (List.replicate 309 '9') :=
    ⟨List.cons_ne_nil _ _, List.all_eq_true.1 (by decide +kernel)⟩
  exact ⟨by decide +kernel, hdigits, by decide +kernel, by decide +kernel⟩

section Point

variable {num places : Nat} (hnum : num < 10 ^ 15) (hplaces : places ≤ 15)

include hplaces

theorem mul_pow_le_one : 2 ^ 52 * 10 ^ places ≤ Binary64.one := by
  have hpow : 10 ^ places ≤ 10 ^ 15 := Nat.pow_le_pow_right (by decide) hplaces
  exact (Nat.mul_le_mul_left _ hpow).trans (by decide +kernel)

include hnum

private theorem nearest_lt_infinity : Binary64.nearest num (10 ^ places) < Binary64.infinity := by
  have hpow : 0 < 10 ^ places := Nat.pow_pos (by decide)
  have hle : Binary64.nearest num (10 ^ places) ≤ 10 ^ 15 * Binary64.one := by
    apply (Binary64.nearest_le_mul_one_iff hpow (by omega) (mul_pow_le_one hplaces) _).2
    exact hnum.le.trans (Nat.le_mul_of_pos_right _ hpow)
  exact hle.trans_lt (by decide +kernel)

private theorem toInt_ofIntClamp_floor (negative : Bool) :
    (Int64.ofIntClamp (Binary64.floor negative (Binary64.nearest num (10 ^ places)))).toInt =
      ⌊if negative then -(num / 10 ^ places : ℚ) else (num / 10 ^ places : ℚ)⌋ := by
  have hpow : 0 < 10 ^ places := Nat.pow_pos (by decide)
  have hcast : (1 : ℚ) ≤ 10 ^ places := by exact_mod_cast hpow
  have hfloor : Binary64.floor negative (Binary64.nearest num (10 ^ places)) =
      ⌊if negative then -(num / 10 ^ places : ℚ) else (num / 10 ^ places : ℚ)⌋ := by
    exact_mod_cast Binary64.floor_nearest hpow (by omega) (mul_pow_le_one hplaces) negative
  have hnonneg : (0 : ℚ) ≤ num / 10 ^ places := by positivity
  have hle : (num / 10 ^ places : ℚ) ≤ 10 ^ 15 :=
    (div_le_self (Nat.cast_nonneg num) hcast).trans (by exact_mod_cast hnum.le)
  rw [hfloor]
  apply Int64.toInt_ofIntClamp
  · rw [Int64.toInt_minValue, Int.le_floor]
    push_cast
    split <;> linarith
  · rw [Int64.toInt_maxValue, ← Int.lt_add_one_iff, Int.floor_lt]
    push_cast
    split <;> linarith

end Point

/-- The double that is nearest to a short numeral with a point has the floor of the numeral. -/
theorem scalar_of_decimal (htext : Text.trim text = s.text ++ (whole ++ '.' :: fraction))
    (hwhole : ∀ c ∈ whole, c.isDigit = true) (hfraction : ∀ c ∈ fraction, c.isDigit = true)
    (hne : whole ≠ [] ∨ fraction ≠ []) (hlength : whole.length + fraction.length ≤ 15) :
    (provided text).scalar.toInt =
      ⌊s.apply (digitsValue whole + digitsValue fraction / 10 ^ fraction.length : ℚ)⌋ := by
  have hdigits : ∀ c ∈ whole ++ fraction, c.isDigit = true := by
    intro c hc
    exact (List.mem_append.1 hc).elim (hwhole c) (hfraction c)
  have hnum : digitsValue (whole ++ fraction) < 10 ^ 15 := by
    apply (digitsValue_lt hdigits).trans_le
    apply Nat.pow_le_pow_right (by decide)
    simpa using hlength
  have hplaces : fraction.length ≤ 15 := by omega
  have hnear : fraction.length ≤ 400 + (whole ++ fraction).length := by omega
  have hunits := units_of_places s.negative (whole ++ fraction) hnear
  have hscalar : (provided text).scalar = .ofIntClamp (Binary64.floor s.negative
      (Binary64.nearest (digitsValue (whole ++ fraction)) (10 ^ fraction.length))) := by
    rw [← hunits]
    apply scalar_of_finite (x := ⟨s.negative, whole ++ fraction, -fraction.length⟩)
    · rw [htext, whole?_point hwhole]
    · rw [htext, ofText?_point hwhole hfraction hne]
    · rw [hunits]
      exact nearest_lt_infinity hnum hplaces
  have hvalue : (digitsValue (whole ++ fraction) / 10 ^ fraction.length : ℚ) =
      digitsValue whole + digitsValue fraction / 10 ^ fraction.length := by
    rw [digitsValue_append]
    push_cast
    field_simp
  rw [hscalar, toInt_ofIntClamp_floor hnum hplaces, hvalue]
  rfl

/-- A negative numeral just below an integer is not taken for the integer. -/
theorem scalar_of_nearly_whole :
    Text.trim (['-', '9', '9', '9', '.'] ++ List.replicate 11 '0' ++ ['1']) =
        Sign.minus.text ++ (['9', '9', '9'] ++ '.' :: (List.replicate 11 '0' ++ ['1'])) ∧
      (provided (['-', '9', '9', '9', '.'] ++ List.replicate 11 '0' ++ ['1'])).scalar.toInt =
        -1000 := by
  have htext : Text.trim (['-', '9', '9', '9', '.'] ++ List.replicate 11 '0' ++ ['1']) =
      Sign.minus.text ++ (['9', '9', '9'] ++ '.' :: (List.replicate 11 '0' ++ ['1'])) := by
    decide +kernel
  have hscalar := scalar_of_decimal htext (List.all_eq_true.1 rfl) (List.all_eq_true.1 rfl)
    (by decide) (by decide)
  exact ⟨htext, hscalar.trans (by decide +kernel)⟩

end Reply

end BlueNexus
