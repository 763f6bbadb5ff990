import BlueNexus.Text

/-!
# Numerals

Writing an integer of 64 bits gives its shortest decimal form. Reading takes an optional sign and
digits, and refuses a value that 64 bits do not hold: `leading?` reads as far as the digits go and
ignores what follows, `whole?` reads the text to its end.

A decimal numeral is an optional sign, digits with an optional point among or around them, and
optionally `e` or `E` with a signed exponent. It is read as the nearest double, and cut down to an
integer by the floor of that double, held within 64 bits. A numeral beyond the doubles has no floor.

The magnitude of a double is counted in units of `2 ^ (-1074)`, the least positive one. From
`2 ^ 53` units on, a double has 53 significant bits, so the doubles around a fraction are the
multiples of a power of two. The nearest one is taken, and of two nearest ones that with the even
multiple.
-/

namespace BlueNexus.Numeral

def int64? (v : Int) : Option Int64 :=
  if Int64.minValue.toInt ≤ v ∧ v ≤ Int64.maxValue.toInt then some (Int64.ofInt v) else none

def digitsValue (digits : Text) : Nat := Nat.ofDigitChars 10 digits 0

def decimal (n : Int64) : Text :=
  if n.toInt < 0 then '-' :: Nat.toDigits 10 n.toInt.natAbs else Nat.toDigits 10 n.toInt.natAbs

/-- Takes a sign off the front of a text: whether it was a minus, and the rest. -/
def takeSign : Text → Bool × Text
  | '-' :: r => (true, r)
  | '+' :: r => (false, r)
  | t => (false, t)

/-- The integer with the given sign and digits, of which there must be one. -/
def signed? (negative : Bool) (digits : Text) : Option Int64 :=
  if digits = [] then none
  else int64? (if negative then -(digitsValue digits : Int) else digitsValue digits)

def leading? (t : Text) : Option Int64 :=
  let (negative, r) := takeSign t
  signed? negative (r.takeWhile Char.isDigit)

def whole? (t : Text) : Option Int64 :=
  let (negative, r) := takeSign t
  if r.all Char.isDigit then signed? negative r else none

namespace Binary64

/-- The quotient rounded to the nearest integer, a tie to the even one. -/
def roundHalfEven (num den : Nat) : Nat :=
  let q := num / den
  let r := num % den
  if den < 2 * r ∨ 2 * r = den ∧ q % 2 = 1 then q + 1 else q

def one : Nat := Nat.pow 2 1074

/-- The distance of the doubles around so many units. -/
def place (units : Nat) : Nat := Nat.pow 2 (units.log2 - 52)

/-- The nearest double to `num / den`, in units. Its range is unbounded here. -/
def nearest (num den : Nat) : Nat :=
  let p := place (num * one / den)
  roundHalfEven (num * one) (den * p) * p

/-- The least number of units that is beyond the doubles and counts as infinite. -/
def infinity : Nat := Nat.pow 2 1024 * one

def floor (negative : Bool) (units : Nat) : Int :=
  if negative then -((units + (one - 1)) / one : Nat) else (units / one : Nat)

theorem roundHalfEven_bounds (num den : Nat) (h : 0 < den) :
    2 * num ≤ (2 * roundHalfEven num den + 1) * den ∧
      2 * roundHalfEven num den * den ≤ 2 * num + den := by
  have hd := Nat.div_add_mod num den
  have hr := Nat.mod_lt num h
  unfold roundHalfEven
  simp only
  generalize num / den = q at *
  generalize num % den = r at *
  split <;> constructor <;> grind

end Binary64

/-- The number `± digits * 10 ^ exponent`. -/
structure Scientific where
  negative : Bool
  digits : Text
  exponent : Int

namespace Scientific

/-- The size of an exponent. It grows no more once it has reached `2 ^ 16`. -/
def exponentSize (digits : Text) : Nat :=
  digits.foldl (fun n c => if n < Nat.pow 2 16 then 10 * n + (c.toNat - '0'.toNat) else n) 0

def exponent? : Text → Option Int
  | [] => some 0
  | c :: r =>
    if c = 'e' ∨ c = 'E' then
      let (negative, digits) := takeSign r
      if digits ≠ [] ∧ digits.all Char.isDigit then
        some (if negative then -(exponentSize digits : Int) else exponentSize digits)
      else none
    else none

def takeFraction : Text → Text × Text
  | '.' :: r => (r.takeWhile Char.isDigit, r.dropWhile Char.isDigit)
  | t => ([], t)

def ofText? (t : Text) : Option Scientific :=
  let (negative, r) := takeSign t
  let whole := r.takeWhile Char.isDigit
  let (fraction, r) := takeFraction (r.dropWhile Char.isDigit)
  if whole = [] ∧ fraction = [] then none
  else (exponent? r).map fun e => ⟨negative, whole ++ fraction, e - fraction.length⟩

/-- The magnitude of the nearest double, in units. Exponents far out of the range of the doubles are
settled by their size alone. -/
def units (x : Scientific) : Nat :=
  let m := digitsValue x.digits
  if m = 0 ∨ x.exponent < -(400 + x.digits.length : Int) then 0
  else if 400 < x.exponent then Binary64.infinity
  else if 0 ≤ x.exponent then Binary64.nearest (m * Nat.pow 10 x.exponent.toNat) 1
  else Binary64.nearest m (Nat.pow 10 (-x.exponent).toNat)

def floor? (x : Scientific) : Option Int64 :=
  if x.units < Binary64.infinity then some (Int64.ofIntClamp (Binary64.floor x.negative x.units))
  else none

end Scientific

end BlueNexus.Numeral
