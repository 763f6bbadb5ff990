import BlueNexus.Form.Meaning
import BlueNexus.Proofs.SignedNumerals
import Mathlib.Data.Nat.Log
import Mathlib.Tactic.Ring

/-!
# Inputs joined to a scalar

An input that is appended to a scalar shifts it by the number of its decimal digits, away from zero
(`appendInput_joins_decimals`).
-/

namespace BlueNexus

namespace Numeral

variable {old n : Int64}

private theorem length_toDigits (m : Nat) : (Nat.toDigits 10 m).length = Nat.log 10 m + 1 := by
  apply eq_of_forall_ge_iff
  intro k
  obtain rfl | hk := Nat.eq_zero_or_pos k
  · simp [Nat.toDigits_ne_nil]
  · rw [Nat.length_toDigits_le_iff (by decide) hk, Nat.succ_le_iff]
    exact ⟨Nat.log_lt_of_lt_pow' hk.ne', Nat.lt_pow_of_log_lt (by decide)⟩

/-- What the decimals of two integers come to one after the other, if the second has no sign. -/
def joined (old n : Int64) : Int :=
  let shifted := old.toInt * 10 ^ (Nat.log 10 n.toInt.toNat + 1)
  if 0 ≤ old.toInt then shifted + n.toInt else shifted - n.toInt

private theorem apply_ofInt (v : Int) (p m : Nat) :
    (Sign.ofInt v).apply ((p * v.natAbs + m : Nat) : Int) =
      if 0 ≤ v then v * p + m else v * p - m := by
  by_cases hv : 0 ≤ v
  · have hsign : Sign.ofInt v = .none := if_neg (by omega)
    rw [hsign, if_pos hv, Sign.apply, if_neg (by decide)]
    push_cast
    rw [abs_of_nonneg hv]
    ring
  · have hsign : Sign.ofInt v = .minus := if_pos (by omega)
    rw [hsign, if_neg hv, Sign.apply, if_pos (by decide)]
    push_cast
    rw [abs_of_neg (by omega)]
    ring

private theorem leading?_joined (hn : 0 ≤ n.toInt) :
    leading? (decimal old ++ decimal n) = int64? (joined old n) := by
  have hdigits : IsDigits (Nat.toDigits 10 old.toInt.natAbs ++ Nat.toDigits 10 n.toInt.toNat) :=
    (isDigits_toDigits _).append (isDigits_toDigits _).all
  have hread := hdigits.leading?_eq (Sign.ofInt old.toInt)
  rw [← List.append_assoc, ← decimal_eq, ← decimal_of_nonneg hn] at hread
  rw [hread, digitsValue_append, decimal_of_nonneg hn, length_toDigits, digitsValue_toDigits,
    digitsValue_toDigits, apply_ofInt, Int.toNat_of_nonneg hn, joined]
  push_cast
  rfl

private theorem leading?_decimal_negative (hn : n.toInt < 0) :
    leading? (decimal old ++ decimal n) = some old := by
  apply leading?_decimal_append
  rw [decimal, if_pos hn]
  simp

end Numeral

namespace Assignment

open Numeral

variable {x y : Name} {old n : Int64} {vars : Bindings}

theorem appendInput_of_scalar (h : vars.get? x = some (.scalar old)) :
    appendInput x n vars =
      vars.set x (.scalar ((leading? (decimal old ++ decimal n)).getD old)) := by
  rw [appendInput, h]
  cases hread : leading? (decimal old ++ decimal n) with
  | none => simp [hread, Bindings.set_eq_self h]
  | some v => simp [hread]

private theorem get?_appendInput_of_ne (hy : y ≠ x) :
    (appendInput x n vars).get? y = vars.get? y := by
  cases h : vars.get? x with
  | none => simp [appendInput, h, hy.symm]
  | some v =>
    cases v with
    | scalar old => simp [appendInput_of_scalar h, hy.symm]
    | sequence items => simp [appendInput, h]

/-- An input joins the digits of a scalar, as far as 64 bits hold the integer that this gives. -/
theorem appendInput_joins_decimals (x : Name) (old n : Int64) (vars : Bindings) :
    (vars.get? x = none → appendInput x n vars = vars.set x (.scalar n)) ∧
      (vars.get? x = some (.scalar old) → n.toInt < 0 → appendInput x n vars = vars) ∧
      (vars.get? x = some (.scalar old) → 0 ≤ n.toInt →
        (∀ v : Int64, v.toInt = joined old n → appendInput x n vars = vars.set x (.scalar v)) ∧
        (joined old n < Int64.minValue.toInt ∨ Int64.maxValue.toInt < joined old n →
          appendInput x n vars = vars)) ∧
      (∀ items, vars.get? x = some (.sequence items) → appendInput x n vars = vars) ∧
      ∀ y, y ≠ x → (appendInput x n vars).get? y = vars.get? y := by
  refine ⟨?_, ?_, ?_, ?_, fun y hy => get?_appendInput_of_ne hy⟩
  · intro h
    simp [appendInput, h]
  · intro h hn
    rw [appendInput_of_scalar h, leading?_decimal_negative hn]
    exact Bindings.set_eq_self h
  · intro h hn
    rw [appendInput_of_scalar h, leading?_joined hn]
    constructor
    · intro v hv
      rw [int64?_eq_some_iff.2 hv]
      rfl
    · intro hout
      rw [int64?_eq_none_iff.2 (by omega)]
      exact Bindings.set_eq_self h
  · intro items h
    simp [appendInput, h]

/-- The digits that join up to the least integer are held, and one more is not. -/
theorem appendInput_at_minimum :
    appendInput ⟨'x', rfl⟩ 8 ⟨[(⟨'x', rfl⟩, .scalar (-922337203685477580))], by simp⟩ =
        ⟨[(⟨'x', rfl⟩, .scalar .minValue)], by simp⟩ ∧
      appendInput ⟨'x', rfl⟩ 9 ⟨[(⟨'x', rfl⟩, .scalar (-922337203685477580))], by simp⟩ =
        ⟨[(⟨'x', rfl⟩, .scalar (-922337203685477580))], by simp⟩ := by
  obtain ⟨-, -, height, -⟩ := appendInput_joins_decimals ⟨'x', rfl⟩ (-922337203685477580) 8
    ⟨[(⟨'x', rfl⟩, .scalar (-922337203685477580))], by simp⟩
  obtain ⟨-, -, hnine, -⟩ := appendInput_joins_decimals ⟨'x', rfl⟩ (-922337203685477580) 9
    ⟨[(⟨'x', rfl⟩, .scalar (-922337203685477580))], by simp⟩
  exact ⟨(height rfl (by decide)).1 .minValue (by decide +kernel),
    (hnine rfl (by decide)).2 (.inl (by decide +kernel))⟩

end Assignment

end BlueNexus
