import BlueNexus.Numeral

/-!
# Values of variables

A variable holds one integer or a sequence of integers, mostly the code points of a text. A sequence
rotates: reading hands out the front element and moves it to the back.
-/

namespace BlueNexus

inductive Value where
  | scalar (n : Int64)
  | sequence (items : List Int64)
deriving DecidableEq

/-- The character with the given code point, or U+FFFD where there is none. -/
def charOfCode (n : Int64) : Char :=
  if 0 ≤ n.toInt ∧ n.toInt.toNat.isValidChar then Char.ofNat n.toInt.toNat else '\uFFFD'

def codeOfChar (c : Char) : Int64 := Int64.ofNat c.toNat

namespace Value

def ofText (t : Text) : Value := .sequence (t.map codeOfChar)

/-- Turns a sequence to the left by one place, if it has as many. -/
def rotate : Value → Value
  | .scalar n => .scalar n
  | .sequence items => .sequence (items.rotateLeft (min items.length 1))

/-- The value as an operand: a sequence counts as its front element. -/
def front? : Value → Option Int64
  | .scalar n => some n
  | .sequence items => items.head?

/-- What a read of the value gives, and the value after it: the front element is taken off and put
behind the others. An empty sequence gives nothing. -/
def read : Value → Option Int64 × Value
  | .scalar n => (some n, .scalar n)
  | .sequence [] => (none, .sequence [])
  | .sequence (a :: r) => (some a, .sequence (r ++ [a]))

@[simp] theorem rotate_scalar (n : Int64) : rotate (.scalar n) = .scalar n := rfl

@[simp] theorem rotate_sequence_nil : rotate (.sequence []) = .sequence [] := rfl

@[simp] theorem rotate_sequence_cons (a : Int64) (r : List Int64) :
    rotate (.sequence (a :: r)) = .sequence (r ++ [a]) := by
  cases r <;> simp [rotate, List.rotateLeft]

/-- To read a value turns it. -/
@[simp] theorem read_eq (v : Value) : v.read = (v.front?, v.rotate) := by
  cases v with
  | scalar n => rfl
  | sequence items =>
    cases items with
    | nil => rfl
    | cons a r => rw [rotate_sequence_cons, read, front?, List.head?_cons]

/-- The value in a comparison, where an empty sequence counts as zero. -/
def numeric (v : Value) : Int64 := v.front?.getD 0

def toText : Value → Text
  | .scalar n => Numeral.decimal n
  | .sequence items => items.map charOfCode

def render : Value → Text
  | .scalar n => Numeral.decimal n
  | .sequence items => '[' :: [',', ' '].intercalate (items.map Numeral.decimal) ++ [']']

/-- Appends to a sequence; in place of a scalar the new elements stand alone. -/
def extend (items : List Int64) : Value → Value
  | .scalar _ => .sequence items
  | .sequence old => .sequence (old ++ items)

def mapScalar (f : Int64 → Int64) : Value → Value
  | .scalar n => .scalar (f n)
  | .sequence items => .sequence items

def dropFront : Value → Value
  | .scalar n => .scalar n
  | .sequence items => .sequence items.tail

end Value

end BlueNexus
