/-!
# Division on 64-bit integers

The quotient is rounded toward minus infinity, the remainder goes with the quotient rounded toward
zero and so takes the sign of the dividend. Neither has a value for a zero divisor. The one quotient
that 64 bits do not hold, the least integer by `-1`, wraps around to the least integer.
-/

namespace BlueNexus.Division

def floor? (a b : Int64) : Option Int64 :=
  if b = 0 then none
  else if a % b ≠ 0 ∧ decide (a < 0) ≠ decide (b < 0) then some (a / b - 1)
  else some (a / b)

def remainder? (a b : Int64) : Option Int64 :=
  if b = 0 then none else some (a % b)

/-- The quotient rounded down is one less than that rounded toward zero just if the division leaves
a remainder and the signs differ. -/
theorem fdiv_eq_tdiv_sub {a b : Int} (hb : b ≠ 0) :
    a.fdiv b = a.tdiv b - if a.tmod b ≠ 0 ∧ decide (a < 0) ≠ decide (b < 0) then 1 else 0 := by
  rw [Int.fdiv_eq_tdiv]
  by_cases hdvd : b ∣ a
  · have hmod : a.tmod b = 0 := Int.dvd_iff_tmod_eq_zero.1 hdvd
    simp [hdvd, hmod]
  · have hmod : a.tmod b ≠ 0 := fun h => hdvd (Int.dvd_iff_tmod_eq_zero.2 h)
    have hsign : b.sign = if b < 0 then -1 else 1 := by
      split
      · exact Int.sign_eq_neg_one_of_neg ‹_›
      · exact Int.sign_eq_one_of_pos (by omega)
    by_cases ha : a < 0 <;> by_cases hneg : b < 0 <;>
      simp [hdvd, hmod, hsign, ha, hneg, Int.not_le.2, Int.not_lt.1]

@[simp] theorem ofInt_tdiv_toInt (a b : Int64) : Int64.ofInt (a.toInt.tdiv b.toInt) = a / b := by
  rw [Int64.ofInt_tdiv (Int64.le_toInt a) (Int64.toInt_le a) (Int64.le_toInt b) (Int64.toInt_le b),
    Int64.ofInt_toInt, Int64.ofInt_toInt]

@[simp] theorem toInt_ne_zero {b : Int64} (hb : b ≠ 0) :
    b.toInt ≠ 0 := fun h => hb (Int64.toInt_inj.1 h)

theorem mod_eq_zero_iff {a b : Int64} : a % b = 0 ↔ a.toInt.tmod b.toInt = 0 := by
  rw [← Int64.toInt_inj, Int64.toInt_mod, Int64.toInt_zero]

theorem floor?_eq {a b : Int64} (hb : b ≠ 0) :
    floor? a b = some (Int64.ofInt (a.toInt.fdiv b.toInt)) := by
  have hneg : ∀ n : Int64, n < 0 ↔ n.toInt < 0 := fun n => by
    rw [Int64.lt_iff_toInt_lt, Int64.toInt_zero]
  rw [floor?, if_neg hb, fdiv_eq_tdiv_sub (toInt_ne_zero hb), Int64.ofInt_sub, ofInt_tdiv_toInt]
  simp only [ne_eq, mod_eq_zero_iff, hneg]
  split
  · rfl
  · exact congrArg some (Int64.sub_zero _).symm

theorem remainder?_eq {a b : Int64} (hb : b ≠ 0) :
    remainder? a b = some (Int64.ofInt (a.toInt.tmod b.toInt)) := by
  rw [remainder?, if_neg hb, ← Int64.toInt_mod, Int64.ofInt_toInt]

end BlueNexus.Division
