import BlueNexus.Fragment
import BlueNexus.Glyph
import BlueNexus.Name

/-!
# Forms and tokens

The forms are what a program is made of. A token is a form at its place in the source. Three forms
carry fragments, which are read only when the form is executed.

At the top level of a program a push marker is fused with the input request, number or variable
right after it. Any other push marker stays as it is.
-/

namespace BlueNexus

inductive ConditionKind where
  | once
  | whilst
  | each
  /-- Never: the kind has no meaning. -/
  | other (text : Text)
deriving DecidableEq

namespace ConditionKind

def ofText (t : Text) : ConditionKind :=
  if t = ['!', '?'] then .once
  else if t = ['!', '∞'] then .whilst
  else if t = ['!', '∑'] then .each
  else .other t

def toText : ConditionKind → Text
  | .once => ['!', '?']
  | .whilst => ['!', '∞']
  | .each => ['!', '∑']
  | .other t => t

@[simp] theorem toText_ofText (t : Text) : (ofText t).toText = t := by
  unfold ofText
  split
  · next h => rw [h]; rfl
  · split
    · next h => rw [h]; rfl
    · split
      · next h => rw [h]; rfl
      · rfl

end ConditionKind

inductive Form where
  | number (n : Int64)
  | string (text : Text)
  | variable (x : Name)
  | expression (x : Name) (text : Text)
  | block (x : Name) (body : Fragment)
  | conditional (kind : ConditionKind) (predicate command : Fragment)
  | drop (param : Text)
  /-- A request for a snapshot, with its leading underscore. -/
  | debug (command : Text)
  | glyph (g : Glyph)
  | comparison (op : Comparison)
  | rotate (x : Name)
  | pushNumber (n : Int64)
  | pushVariable (x : Name)
  | pushInput
deriving DecidableEq

structure Token where
  form : Form
  offset : Nat
deriving DecidableEq

namespace Form

def shift (d : Nat) : Form → Form
  | .block x body => .block x (body.shift d)
  | .conditional kind predicate command =>
    .conditional kind (predicate.shift d) (command.shift d)
  | f => f

end Form

def Token.shift (d : Nat) (t : Token) : Token := ⟨t.form.shift d, t.offset + d⟩

namespace PushMarker

def fused? : Form → Option Form
  | .glyph .input => some .pushInput
  | .number n => some (.pushNumber n)
  | .variable x => some (.pushVariable x)
  | _ => none

def fuse : List Token → List Token
  | [] => []
  | [t] => [t]
  | t :: u :: r =>
    if t.form = .glyph .push then
      match fused? u.form with
      | some f => ⟨f, t.offset⟩ :: fuse r
      | none => t :: fuse (u :: r)
    else t :: fuse (u :: r)

end PushMarker

end BlueNexus
