import BlueNexus.Division
import BlueNexus.Glyph

/-!
# The operand stack

Every operation is forgiving: one that needs more values than there are has no result, and whoever
asked for it goes on with the stack as it was. So does a glyph whose operation finds too few values
or has no result.
-/

namespace BlueNexus

structure Stack where
  /-- The values, top first. -/
  values : List Int64 := []
deriving DecidableEq

namespace Stack

def ofList (values : List Int64) : Stack := ⟨values.reverse⟩

/-- The values, bottom first. -/
def toList (s : Stack) : List Int64 := s.values.reverse

def push (n : Int64) (s : Stack) : Stack := ⟨n :: s.values⟩

def peek? (s : Stack) : Option Int64 := s.values.head?

def size (s : Stack) : Nat := s.values.length

def pop? (s : Stack) : Option (Int64 × Stack) :=
  match s.values with
  | [] => none
  | a :: r => some (a, ⟨r⟩)

def discard? (s : Stack) : Option Stack := s.pop?.map (·.2)

def duplicate? (s : Stack) : Option Stack := s.peek?.map (s.push ·)

def swap? (s : Stack) : Option Stack :=
  match s.values with
  | b :: a :: r => some ⟨a :: b :: r⟩
  | _ => none

/-- Replaces the top `b` and the `a` below it by `op a b`, unless `op` declines them. -/
def binary? (op : Int64 → Int64 → Option Int64) (s : Stack) : Option Stack :=
  match s.values with
  | b :: a :: r => (op a b).map fun c => ⟨c :: r⟩
  | _ => none

def drop (n : Nat) (s : Stack) : Stack := ⟨s.values.drop n⟩

@[simp] theorem toList_ofList (values : List Int64) : (ofList values).toList = values := by
  simp [ofList, toList]

@[simp] theorem toList_push (n : Int64) (s : Stack) :
    (s.push n).toList = s.toList ++ [n] := by
  simp [push, toList]

@[simp] theorem size_drop (n : Nat) (s : Stack) : (s.drop n).size = s.size - n := by
  simp [drop, size]

/-- The arithmetic of a glyph, on the value below the top and the top. -/
def arithmetic? : Glyph → Option (Int64 → Int64 → Option Int64)
  | .add => some fun a b => some (a + b)
  | .subtract => some fun a b => some (a - b)
  | .multiply => some fun a b => some (a * b)
  | .divide => some Division.floor?
  | .modulo => some Division.remainder?
  | _ => none

/-- What a glyph does to the stack. Most glyphs are markers and do nothing. -/
def operate (g : Glyph) (s : Stack) : Stack :=
  let result := match g with
    | .discard => s.discard?
    | .duplicate => s.duplicate?
    | .swap => s.swap?
    | g => (arithmetic? g).bind s.binary?
  result.getD s

end Stack

end BlueNexus
