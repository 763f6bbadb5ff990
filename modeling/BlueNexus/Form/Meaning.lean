import BlueNexus.Form.Reading
import BlueNexus.State

/-!
# The meaning of predicates, blocks and expressions

A predicate is a comparison of two operands. Its operands are read without any effect, and anything
that is not a comparison does not hold. A block assigns what its body comes to, and a few shapes of
body have a meaning of their own. An expression changes a variable in place, starting from zero.
-/

namespace BlueNexus.Condition

/-- An empty stack and an unbound name count as zero. -/
def operand? (s : State) : Form → Option Int64
  | .glyph .peek => some (s.stack.peek?.getD 0)
  | .variable x => some (((s.variables.get? x).map Value.numeric).getD 0)
  | .number n => some n
  | _ => none

def comparison? : Form → Option Comparison
  | .comparison op => some op
  | .glyph g => g.comparison?
  | _ => none

def judge (s : State) : List Token → Bool
  | [l, op, r] =>
    match operand? s l.form, comparison? op.form, operand? s r.form with
    | some a, some op, some b => op.holds a b
    | _, _, _ => false
  | _ => false

def holds (limit : Nat) (s : State) (predicate : Fragment) : Except Fault Bool :=
  (predicate.tokens limit).map (judge s)

/-- The name behind the first star that has one. -/
def target? : Text → Option Name
  | [] => none
  | '*' :: r => (Name.leading? r).or (target? r)
  | _ :: r => target? r

def elements (s : State) (predicate : Fragment) : Nat :=
  match (target? predicate.text).bind s.variables.get? with
  | some (.sequence items) => items.length
  | _ => 0

end BlueNexus.Condition

namespace BlueNexus.Assignment

/-- What the tokens of a block's body assign. -/
inductive Meaning where
  | nothing
  | top
  | input
  | value (v : Value)
  | append (t : Text)
  /-- The digits of the old value followed by those of an input. -/
  | appendInput
  /-- The top of the stack after the body has been executed. -/
  | result

def Meaning.ofTokens : List Token → Meaning
  | [] => .nothing
  | [⟨.glyph .peek, _⟩] => .top
  | [⟨.glyph .input, _⟩] => .input
  | [⟨.number n, _⟩] => .value (.scalar n)
  | [⟨.string t, _⟩] => .value (.ofText t)
  | ⟨.glyph .dot, _⟩ :: ⟨.string t, _⟩ :: _ => .append t
  | ⟨.glyph .dot, _⟩ :: ⟨.glyph .input, _⟩ :: _ => .appendInput
  | _ => .result

/-- Appends a text to a sequence. A scalar gives way to it, and an unbound name begins empty. -/
def append (x : Name) (t : Text) (vars : Bindings) : Bindings :=
  (vars.init x (.sequence [])).update x (Value.extend (t.map codeOfChar))

/-- Appends the decimal of an input to that of a scalar, as far as the two read as one integer. -/
def appendInput (x : Name) (n : Int64) (vars : Bindings) : Bindings :=
  match vars.get? x with
  | none => vars.set x (.scalar n)
  | some (.sequence _) => vars
  | some (.scalar old) =>
    match Numeral.leading? (Numeral.decimal old ++ Numeral.decimal n) with
    | none => vars
    | some joined => vars.set x (.scalar joined)

theorem stores_appendInput (x : Name) (n : Int64) (vars : Bindings) :
    vars.Stores x (appendInput x n vars) := by
  unfold appendInput
  split
  · exact .scalar n
  · exact .nothing
  · split
    · exact .nothing
    · exact .scalar _

def changed? (n : Int64) : Text → Option Int64
  | [] => none
  | op :: r =>
    match op, Numeral.leading? r with
    | '+', some k => some (n + k)
    | '-', some k => some (n - k)
    | '×', some k => some (n * k)
    | '÷', some k => Division.floor? n k
    | _, _ => none

/-- Changes a scalar by an expression. An unbound name is bound to zero first, even where the
expression says nothing. -/
def change (x : Name) (t : Text) (vars : Bindings) : Bindings :=
  (vars.init x (.scalar 0)).update x (Value.mapScalar fun n => (changed? n t).getD n)

end BlueNexus.Assignment
