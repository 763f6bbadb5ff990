import BlueNexus.Numeral
import Mathlib.Algebra.Order.Floor.Div
import Mathlib.Data.Rat.Floor

/-!
# Nearest doubles against fractions

Rounding does not pass a multiple of the place (`le_nearest`, `nearest_le`). So an integer has an
infinite nearest double from half a place below `2 ^ 1024` on (`infinity_le_nearest_iff`). The
nearest double to a fraction with a numerator of at most 53 bits is on the same side of every
integer as the fraction, and has the same floor (`floor_nearest`).
-/

namespace BlueNexus.Numeral.Binary64

variable {num den q w k u : Nat}

theorem one_eq : one = 2 ^ 1074 := by decide +kernel

theorem one_pos : 0 < one := by decide +kernel

theorem le_roundHalfEven (hden : 0 < den) (h : q * den ≤ num) : q ≤ roundHalfEven num den := by
  obtain ⟨hbelow, -⟩ := roundHalfEven_bounds num den hden
  have hlt : 2 * q * den < (2 * roundHalfEven num den + 2) * den := by nlinarith
  have := Nat.lt_of_mul_lt_mul_right hlt
  omega

private theorem roundHalfEven_le (hden : 0 < den) (h : num ≤ q * den) :
    roundHalfEven num den ≤ q := by
  obtain ⟨-, habove⟩ := roundHalfEven_bounds num den hden
  have hlt : 2 * roundHalfEven num den * den < (2 * q + 2) * den := by nlinarith
  have := Nat.lt_of_mul_lt_mul_right hlt
  omega

/-- From the middle above an odd integer on, rounding goes up. -/
theorem succ_le_roundHalfEven (hden : 0 < den) (hq : q % 2 = 1) (h : (2 * q + 1) * den ≤ 2 * num) :
    q + 1 ≤ roundHalfEven num den := by
  by_cases hnext : (q + 1) * den ≤ num
  · exact le_roundHalfEven hden hnext
  · have hdiv : num / den = q := by
      apply Nat.div_eq_of_lt_le
      · nlinarith
      · exact Nat.lt_of_not_le hnext
    have hmod := Nat.div_add_mod num den
    rw [hdiv] at hmod
    have hmiddle : den ≤ 2 * (num % den) := by nlinarith
    rw [roundHalfEven, hdiv]
    apply Nat.le_of_eq
    symm
    apply if_pos
    omega

theorem place_eq (u : Nat) : place u = 2 ^ (u.log2 - 52) := rfl

theorem place_pos (u : Nat) : 0 < place u := by simp [place_eq]

private theorem mul_place_le (h : 2 ^ 52 ≤ u) : 2 ^ 52 * place u ≤ u := by
  have hu : u ≠ 0 := by omega
  have hlog : 52 ≤ u.log2 := (Nat.le_log2 hu).2 h
  rw [place_eq, ← pow_add, Nat.add_sub_cancel' hlog]
  exact Nat.log2_self_le hu

/-- Powers of two are multiples of the place up to which there are 53 bits. -/
theorem place_dvd (h : u < 2 ^ 53 * 2 ^ k) : place u ∣ 2 ^ k := by
  rw [place_eq]
  apply pow_dvd_pow
  by_cases hu : u = 0
  · simp [hu]
  · rw [← pow_add] at h
    have := (Nat.log2_lt hu).2 h
    omega

theorem le_nearest (hden : 0 < den) (hw : place (num * one / den) ∣ w) (h : w * den ≤ num * one) :
    w ≤ nearest num den := by
  obtain ⟨j, rfl⟩ := hw
  rw [nearest, mul_comm]
  apply Nat.mul_le_mul_right
  apply le_roundHalfEven (Nat.mul_pos hden (place_pos _))
  linarith

theorem nearest_le (hden : 0 < den) (hw : place (num * one / den) ∣ w) (h : num * one ≤ w * den) :
    nearest num den ≤ w := by
  obtain ⟨j, rfl⟩ := hw
  rw [nearest, mul_comm (place _) j]
  apply Nat.mul_le_mul_right
  apply roundHalfEven_le (Nat.mul_pos hden (place_pos _))
  linarith

theorem nearest_one (v : Nat) :
    nearest v 1 = roundHalfEven (v * one) (place (v * one)) * place (v * one) := by
  simp [nearest]

/-- What is a power of two or more has one below it that rounding does not pass. -/
theorem two_pow_le_round (h : 2 ^ k ≤ u) : 2 ^ k ≤ roundHalfEven u (place u) * place u := by
  have hu : u ≠ 0 := by
    have := Nat.two_pow_pos k
    omega
  have hlog : 2 ^ k ≤ 2 ^ u.log2 :=
    Nat.pow_le_pow_right (by decide) ((Nat.le_log2 hu).2 h)
  obtain ⟨j, hj⟩ : place u ∣ 2 ^ u.log2 := pow_dvd_pow 2 (Nat.sub_le _ 52)
  apply hlog.trans
  rw [hj, mul_comm]
  apply Nat.mul_le_mul_right
  apply le_roundHalfEven (place_pos u)
  rw [mul_comm, ← hj]
  exact Nat.log2_self_le hu

theorem two_pow_mul_one_le_nearest {v : Nat} (h : 2 ^ k ≤ v) : 2 ^ k * one ≤ nearest v 1 := by
  have hmul := Nat.mul_le_mul_right one h
  rw [nearest_one]
  rw [one_eq, ← pow_add] at hmul ⊢
  exact two_pow_le_round hmul

private theorem place_of_binade (hlow : 2 ^ (52 + k) ≤ u) (hhigh : u < 2 ^ (53 + k)) :
    place u = 2 ^ k := by
  have hu : u ≠ 0 := by
    have := Nat.two_pow_pos (52 + k)
    omega
  have hlog : u.log2 = 52 + k := by
    rw [Nat.log2_eq_iff hu, Nat.add_right_comm]
    exact ⟨hlow, hhigh⟩
  rw [place_eq, hlog, Nat.add_sub_cancel_left]

private theorem round_lt_two_pow (h : 2 * u + 2 ^ k < 2 ^ (54 + k)) :
    roundHalfEven u (place u) * place u < 2 ^ (53 + k) := by
  have hpos : 0 < 2 ^ k := Nat.two_pow_pos k
  have hdvd : u < 2 ^ 53 * 2 ^ k → place u ∣ 2 ^ k := place_dvd
  rw [pow_add] at h ⊢
  generalize 2 ^ k = p at *
  have hle : place u ≤ p := Nat.le_of_dvd hpos (hdvd (by omega))
  obtain ⟨-, habove⟩ := roundHalfEven_bounds u (place u) (place_pos u)
  rw [mul_assoc] at habove
  omega

/-- The middle itself rounds up, as the power is the even one of its two neighbours. -/
theorem two_pow_le_round_of_middle (h : 2 ^ (54 + k) ≤ 2 * u + 2 ^ k) :
    2 ^ (53 + k) ≤ roundHalfEven u (place u) * place u := by
  have hpos : 0 < 2 ^ k := Nat.two_pow_pos k
  obtain hbeyond | hbelow := le_or_gt (2 ^ (53 + k)) u
  · exact two_pow_le_round hbeyond
  · have hplace : 2 ^ (52 + k) ≤ u → place u = 2 ^ k := fun hlow => place_of_binade hlow hbelow
    rw [pow_add] at h hbelow hplace ⊢
    generalize 2 ^ k = p at *
    rw [hplace (by omega)]
    have hup : 2 ^ 53 - 1 + 1 ≤ roundHalfEven u p := by
      apply succ_le_roundHalfEven hpos
      · rfl
      · omega
    exact Nat.mul_le_mul_right p hup

/-- A power of two is reached from half of a place below it on. -/
theorem two_pow_le_round_iff (u k : Nat) :
    2 ^ (53 + k) ≤ roundHalfEven u (place u) * place u ↔ 2 ^ (54 + k) ≤ 2 * u + 2 ^ k := by
  constructor
  · intro hround
    by_contra hbelow
    exact Nat.not_lt.2 hround (round_lt_two_pow (Nat.lt_of_not_le hbelow))
  · exact two_pow_le_round_of_middle

/-- The middle between the largest double and `2 ^ 1024`. -/
def overflow : Nat := Nat.pow 2 1024 - Nat.pow 2 970

@[simp] theorem infinity_le_nearest_iff (v : Nat) : infinity ≤ nearest v 1 ↔ overflow ≤ v := by
  have hinfinity : infinity = 2 ^ (53 + 2045) := by decide +kernel
  have hoverflow : 2 ^ (54 + 2045) = 2 * (overflow * one) + 2 ^ 2045 := by decide +kernel
  rw [hinfinity, nearest_one, two_pow_le_round_iff, hoverflow, Nat.add_le_add_iff_right,
    Nat.mul_le_mul_left_iff (by decide), Nat.mul_le_mul_right_iff one_pos]

@[simp] theorem nearest_zero (den : Nat) : nearest 0 den = 0 := by
  simp [nearest, roundHalfEven]

theorem nearest_close (hden : 0 < den) (hnum : 0 < num) (hlt : num < 2 ^ 53)
    (hone : 2 ^ 52 * den ≤ one) :
    num * one < nearest num den * den + one ∧ nearest num den * den < num * one + one := by
  have hu : 2 ^ 52 ≤ num * one / den := by
    rw [Nat.le_div_iff_mul_le hden]
    nlinarith
  have hplace := mul_place_le hu
  have hdiv := Nat.div_mul_le_self (num * one) den
  have hsmall : place (num * one / den) * den < 2 * one := by
    have := one_pos
    nlinarith
  have hbounds := roundHalfEven_bounds (num * one) (den * place (num * one / den))
    (Nat.mul_pos hden (place_pos _))
  rw [nearest]
  generalize place (num * one / den) = p at *
  generalize roundHalfEven (num * one) (den * p) = r at *
  constructor <;> nlinarith

theorem place_dvd_mul_one (hden : 0 < den) (hlt : num < 2 ^ 53) (j : Nat) :
    place (num * one / den) ∣ j * one := by
  apply Dvd.dvd.mul_left
  rw [one_eq]
  apply place_dvd
  apply Nat.div_lt_of_lt_mul
  rw [← one_eq]
  have := one_pos
  nlinarith

@[simp] theorem floor_false (units : Nat) : floor false units = (units / one : Nat) := rfl

@[simp] theorem floor_true (units : Nat) : floor true units = -(units ⌈/⌉ one : Nat) := by
  have hpos := one_pos
  rw [floor, if_pos rfl]
  -- The unit is too large to be computed with.
  generalize one = o at *
  rw [Nat.ceilDiv_eq_add_pred_div, Nat.add_sub_assoc hpos]

theorem le_floor_false {j units : Nat} (h : j * one ≤ units) : (j : Int) ≤ floor false units := by
  rw [floor_false, Nat.cast_le]
  exact (Nat.le_div_iff_mul_le one_pos).2 h

theorem floor_true_le {j units : Nat} (h : j * one ≤ units) : floor true units ≤ -(j : Int) := by
  have hfloor : j ≤ units ⌊/⌋ one := by
    rw [Nat.floorDiv_eq_div]
    exact (Nat.le_div_iff_mul_le one_pos).2 h
  rw [floor_true, neg_le_neg_iff, Nat.cast_le]
  exact hfloor.trans floorDiv_le_ceilDiv

section Integers

variable (hden : 0 < den) (hlt : num < 2 ^ 53) (hone : 2 ^ 52 * den ≤ one)

include hden hlt hone

theorem mul_one_le_nearest_iff (j : Nat) : j * one ≤ nearest num den ↔ j * den ≤ num := by
  have := one_pos
  constructor
  · intro h
    by_contra hj
    obtain rfl | hnum := Nat.eq_zero_or_pos num
    · rw [nearest_zero] at h
      have : j = 0 := by nlinarith
      simp [this] at hj
    · obtain ⟨-, hclose⟩ := nearest_close hden hnum hlt hone
      nlinarith
  · intro h
    apply le_nearest hden (place_dvd_mul_one hden hlt j)
    nlinarith

theorem nearest_le_mul_one_iff (j : Nat) : nearest num den ≤ j * one ↔ num ≤ j * den := by
  have := one_pos
  constructor
  · intro h
    obtain rfl | hnum := Nat.eq_zero_or_pos num
    · exact Nat.zero_le _
    · by_contra hj
      obtain ⟨hclose, -⟩ := nearest_close hden hnum hlt hone
      nlinarith
  · intro h
    apply nearest_le hden (place_dvd_mul_one hden hlt j)
    nlinarith

/-- The nearest double has the floor of the fraction, with either sign. -/
theorem floor_nearest (negative : Bool) :
    floor negative (nearest num den) =
      ⌊if negative then -(num / den : ℚ) else (num / den : ℚ)⌋ := by
  have hcast : (0 : ℚ) < den := by exact_mod_cast hden
  cases negative with
  | false =>
    have hfloor : nearest num den / one = num / den := by
      apply eq_of_forall_le_iff
      intro j
      rw [Nat.le_div_iff_mul_le one_pos, Nat.le_div_iff_mul_le hden]
      exact mul_one_le_nearest_iff hden hlt hone j
    simp [hfloor, Rat.floor_natCast_div_natCast]
  | true =>
    have hceil : nearest num den ⌈/⌉ one = ⌈(num / den : ℚ)⌉₊ := by
      apply eq_of_forall_ge_iff
      intro j
      rw [ceilDiv_le_iff_le_mul one_pos, Nat.ceil_le, div_le_iff₀ hcast, mul_comm]
      exact_mod_cast nearest_le_mul_one_iff hden hlt hone j
    have hnonneg : (0 : ℚ) ≤ num / den := div_nonneg (Nat.cast_nonneg num) hcast.le
    rw [floor_true, hceil, if_pos rfl, Int.floor_neg, Int.natCast_ceil_eq_ceil hnonneg]

end Integers

end BlueNexus.Numeral.Binary64
