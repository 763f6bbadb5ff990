import BlueNexus.Text

/-!
# Comparisons, operators and markers

A glyph is one character that does something to the stack, prints, or marks what stands behind it.
Three comparisons are glyphs, and three have a form of two characters.
-/

namespace BlueNexus

inductive Comparison where
  | less | greater | atMost | atLeast | equal | notEqual
deriving DecidableEq

namespace Comparison

def ofPair? : Char → Char → Option Comparison
  | '>', '=' => some .atLeast
  | '<', '=' => some .atMost
  | '!', '=' => some .notEqual
  | _, _ => none

def holds : Comparison → Int64 → Int64 → Bool
  | .less, a, b => a < b
  | .greater, a, b => b < a
  | .atMost, a, b => a ≤ b
  | .atLeast, a, b => b ≤ a
  | .equal, a, b => a = b
  | .notEqual, a, b => a ≠ b

def symbol : Comparison → Text
  | .less => ['<']
  | .greater => ['>']
  | .atMost => ['<', '=']
  | .atLeast => ['>', '=']
  | .equal => ['=']
  | .notEqual => ['!', '=']

@[simp] theorem ofPair?_eq_some_iff {a b : Char} {op : Comparison} :
    ofPair? a b = some op ↔ op.symbol = [a, b] := by
  unfold ofPair?
  split <;> cases op <;> grind [Comparison.symbol]

end Comparison

inductive Glyph where
  /-- Marks the pushes that are fused at the top level. -/
  | push
  | discard
  | duplicate
  | swap
  | add
  | subtract
  | multiply
  | divide
  | modulo
  | printNumber
  | printChar
  | newline
  | input
  | peek
  | greater
  | less
  | equal
  | bang
  | star
  | dot
deriving DecidableEq

namespace Glyph

def toChar : Glyph → Char
  | .push => '▲'
  | .discard => '▼'
  | .duplicate => '⇅'
  | .swap => '↔'
  | .add => '+'
  | .subtract => '-'
  | .multiply => '×'
  | .divide => '÷'
  | .modulo => '%'
  | .printNumber => '#'
  | .printChar => '$'
  | .newline => '¦'
  | .input => '&'
  | .peek => '~'
  | .greater => '>'
  | .less => '<'
  | .equal => '='
  | .bang => '!'
  | .star => '*'
  | .dot => '.'

/-- The glyphs that stand for themselves wherever they are read. The dot does not: with a `$` after
it, it belongs to another form. -/
def plain : List Glyph :=
  [.push, .discard, .duplicate, .swap, .add, .subtract, .multiply, .divide, .modulo, .printNumber,
    .printChar, .newline, .input, .peek, .greater, .less, .equal, .bang, .star]

def ofChar? (c : Char) : Option Glyph := plain.find? (·.toChar = c)

def comparison? : Glyph → Option Comparison
  | .less => some .less
  | .greater => some .greater
  | .equal => some .equal
  | _ => none

@[simp] theorem ofChar?_toChar (g : Glyph) (h : g ≠ .dot) : ofChar? g.toChar = some g := by
  cases g <;> first | exact absurd rfl h | rfl

theorem toChar_of_ofChar? {c : Char} {g : Glyph} (h : ofChar? c = some g) : g.toChar = c := by
  simpa using List.find?_some h

end Glyph

end BlueNexus
