import BlueNexus.Division
import Mathlib.Data.Int.ModEq
import Mathlib.Data.Rat.Floor

/-!
# Division against the integers

The quotient is that of the integers rounded down, and the remainder that of the integers with the
sign of the dividend, both as far as 64 bits hold them. They do so but for one quotient, and the two
together give the dividend back modulo `2 ^ 64`, unless they were rounded to different sides
(`quotient_floored_remainder_truncated`).
-/

namespace BlueNexus.Division

section Int

variable {a b : Int}

private theorem fdiv_eq_floor (a b : Int) : a.fdiv b = ⌊(a : ℚ) / b⌋ := by
  obtain ⟨n, rfl | rfl⟩ := b.eq_nat_or_neg
  · rw [Int.cast_natCast, Rat.floor_intCast_div_natCast,
      Int.fdiv_eq_ediv_of_nonneg _ n.cast_nonneg]
  · rw [← Int.neg_fdiv_neg, neg_neg, Int.cast_neg, Int.cast_natCast, div_neg, ← neg_div,
      ← Int.cast_neg, Rat.floor_intCast_div_natCast, Int.fdiv_eq_ediv_of_nonneg _ n.cast_nonneg]

theorem natAbs_tdiv_le_half (h : a.tmod b ≠ 0) : (a.tdiv b).natAbs ≤ a.natAbs / 2 := by
  rw [Int.natAbs_tdiv]
  obtain hb | hb | hb : b.natAbs = 0 ∨ b.natAbs = 1 ∨ 2 ≤ b.natAbs := by omega
  · rw [hb]
    exact (Nat.div_zero a.natAbs).le.trans (Nat.zero_le _)
  · have hmod : (a.tmod b).natAbs = 0 := by rw [Int.natAbs_tmod, hb, Nat.mod_one]
    exact absurd (Int.natAbs_eq_zero.1 hmod) h
  · exact Nat.div_le_div_left hb (by decide)

private theorem natAbs_tmod_lt (hb : b ≠ 0) : (a.tmod b).natAbs < b.natAbs := by
  rw [Int.natAbs_tmod]
  exact Nat.mod_lt _ (Int.natAbs_pos.2 hb)

theorem sign_eq_iff (ha : a ≠ 0) (hb : b ≠ 0) : a.sign = b.sign ↔ (a < 0 ↔ b < 0) := by
  obtain ha | ha := Int.lt_or_gt_of_ne ha
  · obtain hb | hb := Int.lt_or_gt_of_ne hb
    · simp [Int.sign_eq_neg_one_of_neg, ha, hb]
    · simp [Int.sign_eq_neg_one_of_neg, Int.sign_eq_one_of_pos, ha, hb, Int.le_of_lt]
  · obtain hb | hb := Int.lt_or_gt_of_ne hb
    · simp [Int.sign_eq_neg_one_of_neg, Int.sign_eq_one_of_pos, ha, hb, Int.le_of_lt]
    · simp [Int.sign_eq_one_of_pos, ha, hb, Int.not_lt.2, Int.le_of_lt]

/-- The quotient rounded down and the remainder of the one rounded toward zero belong together,
unless the two quotients differ. -/
theorem fdiv_mul_add_tmod (hb : b ≠ 0) :
    a.fdiv b * b + a.tmod b = if a.tmod b = 0 ∨ a.sign = b.sign then a else a - b := by
  have hdiv : a.tdiv b * b + a.tmod b = a := Int.tdiv_mul_add_tmod a b
  rw [fdiv_eq_tdiv_sub hb]
  by_cases hr : a.tmod b = 0
  · rw [if_neg (fun h => h.1 hr), if_pos (.inl hr), Int.sub_zero, hdiv]
  · have ha : a ≠ 0 := by
      rintro rfl
      exact hr (Int.zero_tmod b)
    by_cases hs : a.sign = b.sign
    · have hneg : decide (a < 0) = decide (b < 0) := decide_eq_decide.2 ((sign_eq_iff ha hb).1 hs)
      rw [if_neg (fun h => h.2 hneg), if_pos (.inr hs), Int.sub_zero, hdiv]
    · have hneg : decide (a < 0) ≠ decide (b < 0) :=
        fun h => hs ((sign_eq_iff ha hb).2 (decide_eq_decide.1 h))
      rw [if_pos ⟨hr, hneg⟩, if_neg (fun h => h.elim hr hs), Int.sub_mul]
      omega

end Int

variable {a b : Int64}

/-- The quotient rounded toward zero wraps around in one case only. -/
theorem toInt_div_iff :
    (a / b).toInt = a.toInt.tdiv b.toInt ↔ ¬(a = .minValue ∧ b = -1) := by
  constructor
  · rintro h ⟨rfl, rfl⟩
    exact absurd h (by decide)
  · intro h
    by_cases ha : a = .minValue
    · exact Int64.toInt_div_of_ne_right a b fun hb => h ⟨ha, hb⟩
    · exact Int64.toInt_div_of_ne_left a b ha

private theorem toInt_div_sub_one (h : a % b ≠ 0) : (a / b - 1).toInt = (a / b).toInt - 1 := by
  have hwrap : ¬(a = .minValue ∧ b = -1) := by
    rintro ⟨rfl, rfl⟩
    exact h rfl
  have hhalf := natAbs_tdiv_le_half (mt mod_eq_zero_iff.2 h)
  have hle := a.le_toInt
  have hlt := a.toInt_lt
  rw [Int64.toInt_sub, toInt_div_iff.2 hwrap, Int64.toInt_one]
  apply Int.bmod_eq_of_le
  · omega
  · omega

private theorem toInt_ofInt_fdiv (hb : b ≠ 0) (h : ¬(a = .minValue ∧ b = -1)) :
    (Int64.ofInt (a.toInt.fdiv b.toInt)).toInt = a.toInt.fdiv b.toInt := by
  have hq := toInt_div_iff.2 h
  have hqle := (a / b).le_toInt
  have hqlt := (a / b).toInt_lt
  have hle := a.le_toInt
  have hlt := a.toInt_lt
  rw [fdiv_eq_tdiv_sub (toInt_ne_zero hb)]
  split
  · next hr =>
    have hhalf := natAbs_tdiv_le_half hr.1
    exact Int64.toInt_ofInt_of_le (by omega) (by omega)
  · exact Int64.toInt_ofInt_of_le (by omega) (by omega)

private theorem toInt_ofInt_modEq (v : Int) : (Int64.ofInt v).toInt ≡ v [ZMOD 2 ^ 64] := by
  rw [Int64.toInt_ofInt]
  exact Int.bmod_emod

/-- Divisors other than zero have a quotient, which is rounded down, and a remainder, which goes
with the quotient rounded toward zero. On the way to the quotient nothing wraps around but the one
quotient that 64 bits do not hold. -/
theorem quotient_floored_remainder_truncated (a b : Int64) :
    (floor? a b = none ↔ b = 0) ∧ (remainder? a b = none ↔ b = 0) ∧
    (b ≠ 0 → ∃ q r, floor? a b = some q ∧ remainder? a b = some r ∧
      (if a = .minValue ∧ b = -1 then q = .minValue else q.toInt = ⌊(a.toInt : ℚ) / b.toInt⌋) ∧
      r.toInt = a.toInt - b.toInt * a.toInt.tdiv b.toInt ∧
      (r = 0 ∨ r.toInt.sign = a.toInt.sign) ∧ |r.toInt| < |b.toInt| ∧
      q.toInt * b.toInt + r.toInt ≡
        (if r = 0 ∨ a.toInt.sign = b.toInt.sign then a.toInt else a.toInt - b.toInt)
          [ZMOD 2 ^ 64]) ∧
    ((a / b).toInt = a.toInt.tdiv b.toInt ↔ ¬(a = .minValue ∧ b = -1)) ∧
    (a % b).toInt = a.toInt.tmod b.toInt ∧
    (a % b ≠ 0 → (a / b - 1).toInt = (a / b).toInt - 1) := by
  refine ⟨?_, ?_, fun hb => ?_, toInt_div_iff, Int64.toInt_mod a b, toInt_div_sub_one⟩
  · by_cases hb : b = 0
    · simp [floor?, hb]
    · simp [floor?_eq hb, hb]
  · by_cases hb : b = 0
    · simp [remainder?, hb]
    · simp [remainder?_eq hb, hb]
  have hr : (a % b).toInt = a.toInt.tmod b.toInt := Int64.toInt_mod a b
  refine ⟨_, a % b, floor?_eq hb, if_neg hb, ?_, ?_, ?_, ?_, ?_⟩
  · split
    · next h =>
      obtain ⟨rfl, rfl⟩ := h
      decide
    · next h => rw [toInt_ofInt_fdiv hb h, fdiv_eq_floor]
  · rw [hr, Int.tmod_def]
  · rw [mod_eq_zero_iff, hr, Int.sign_tmod, ← Int.dvd_iff_tmod_eq_zero]
    by_cases h : b.toInt ∣ a.toInt
    · exact .inl h
    · exact .inr (if_neg h)
  · rw [hr, Int.abs_eq_natAbs, Int.abs_eq_natAbs]
    exact_mod_cast natAbs_tmod_lt (toInt_ne_zero hb)
  · simp only [mod_eq_zero_iff, hr]
    rw [← fdiv_mul_add_tmod (toInt_ne_zero hb)]
    exact ((toInt_ofInt_modEq _).mul_right _).add_right _

/-- The least integer, rounded to different sides, and with the quotient that is not held. -/
theorem quotient_floored_of_minimum :
    ((10 : Int64) ≠ 0 ∧ ∃ q r, floor? .minValue 10 = some q ∧ remainder? .minValue 10 = some r ∧
      q = -922337203685477581 ∧ r = -8 ∧
      q.toInt = ⌊(Int64.minValue.toInt : ℚ) / (10 : Int64).toInt⌋ ∧
      q.toInt * 10 + r.toInt ≡ Int64.minValue.toInt - 10 [ZMOD 2 ^ 64]) ∧
    (-1 : Int64) ≠ 0 ∧ ∃ q r, floor? .minValue (-1) = some q ∧ remainder? .minValue (-1) = some r ∧
      q = .minValue ∧ r = 0 ∧ q.toInt * -1 + r.toInt ≡ Int64.minValue.toInt [ZMOD 2 ^ 64] := by
  obtain ⟨q, r, hq, hr, hfloor, -, -, -, hmod⟩ :=
    (quotient_floored_remainder_truncated .minValue 10).2.2.1 (by decide)
  obtain ⟨q', r', hq', hr', hwrap, -, -, -, hmod'⟩ :=
    (quotient_floored_remainder_truncated .minValue (-1)).2.2.1 (by decide)
  have hqv : q = -922337203685477581 := Option.some.inj (hq.symm.trans (by decide))
  have hrv : r = -8 := Option.some.inj (hr.symm.trans (by decide))
  have hrv' : r' = 0 := Option.some.inj (hr'.symm.trans (by decide))
  rw [if_neg (by decide)] at hfloor
  rw [if_pos ⟨rfl, rfl⟩] at hwrap
  rw [if_neg (by rw [hrv]; decide)] at hmod
  rw [if_pos (.inl hrv')] at hmod'
  exact ⟨⟨by decide, q, r, hq, hr, hqv, hrv, hfloor, hmod⟩,
    by decide, q', r', hq', hr', hwrap, hrv', hmod'⟩

end BlueNexus.Division
