import BlueNexus.Bindings
import BlueNexus.Stack

/-!
# The state of a run

One state serves the whole run, nested code included. Operations on it that find nothing to work on
leave it as it is.
-/

namespace BlueNexus

structure State where
  stack : Stack := {}
  «variables» : Bindings := {}
  /-- Set by a fault, at the end of the run. -/
  halted : Bool := false
  /-- Everything printed so far, the latest first. -/
  printed : List Text := []
deriving DecidableEq

namespace State

def output (s : State) : List Text := s.printed.reverse

def print (t : Text) (s : State) : State := { s with printed := t :: s.printed }

def push (s : State) (n : Int64) : State := { s with stack := s.stack.push n }

def assign (x : Name) (v : Value) (s : State) : State :=
  { s with «variables» := s.variables.set x v }

def rotate (x : Name) (s : State) : State :=
  { s with «variables» := s.variables.update x Value.rotate }

def popInto (x : Name) (s : State) : State :=
  match s.stack.pop? with
  | none => s
  | some (n, stack) => { s with stack }.assign x (.scalar n)

def copyInto (x : Name) (s : State) : State :=
  match s.stack.peek? with
  | none => s
  | some n => s.assign x (.scalar n)

/-- Removes what the parameter says: a dot the whole stack, a letter the front of the sequence of
that name, a positive number as many values from the top. -/
def drop (param : Text) (s : State) : State :=
  if param = ['.'] then { s with stack := {} }
  else if param.any Char.isAlpha then
    match Name.ofText? param with
    | none => s
    | some x => { s with «variables» := s.variables.update x Value.dropFront }
  else
    match Numeral.leading? param with
    | none => s
    | some n => { s with stack := s.stack.drop n.toInt.toNat }

@[simp] theorem variables_print (t : Text) (s : State) : (s.print t).variables = s.variables := rfl

@[simp] theorem variables_assign (x : Name) (v : Value) (s : State) :
    (s.assign x v).variables = s.variables.set x v := rfl

@[simp] theorem variables_rotate (x : Name) (s : State) :
    (s.rotate x).variables = s.variables.update x Value.rotate := rfl

theorem popInto_cases (x : Name) (s : State) :
    s.popInto x = s ∨ ∃ n stack, s.popInto x = { s with stack }.assign x (.scalar n) := by
  unfold popInto
  split
  · exact .inl rfl
  · exact .inr ⟨_, _, rfl⟩

theorem copyInto_cases (x : Name) (s : State) :
    s.copyInto x = s ∨ ∃ n, s.copyInto x = s.assign x (.scalar n) := by
  unfold copyInto
  split
  · exact .inl rfl
  · exact .inr ⟨_, rfl⟩

theorem stores_popInto (x : Name) (s : State) :
    s.variables.Stores x (s.popInto x).variables := by
  obtain h | ⟨n, stack, h⟩ := s.popInto_cases x
  · rw [h]
    exact .nothing
  · rw [h]
    exact .scalar n

theorem stores_copyInto (x : Name) (s : State) :
    s.variables.Stores x (s.copyInto x).variables := by
  obtain h | ⟨n, h⟩ := s.copyInto_cases x
  · rw [h]
    exact .nothing
  · rw [h]
    exact .scalar n

@[simp] theorem drop_letter (x : Name) (s : State) :
    s.drop [x.letter] = { s with «variables» := s.variables.update x Value.dropFront } := by
  have hdot : [x.letter] ≠ ['.'] := fun h => x.letter_ne (by decide) (List.head_eq_of_cons_eq h)
  rw [drop, if_neg hdot, if_pos (by simp [x.isLetter]), Name.ofText?_letter]

/-- A removal is about the stack alone, or about the one variable that is named. -/
theorem drop_cases (param : Text) (s : State) :
    (∃ stack, s.drop param = { s with stack }) ∨
      ∃ x : Name, param = [x.letter] ∧
        s.drop param = { s with «variables» := s.variables.update x Value.dropFront } := by
  unfold drop
  split
  · exact .inl ⟨_, rfl⟩
  · split
    · split
      · exact .inl ⟨s.stack, rfl⟩
      · next x hx => exact .inr ⟨x, Name.eq_of_ofText? hx, rfl⟩
    · split
      · exact .inl ⟨s.stack, rfl⟩
      · exact .inl ⟨_, rfl⟩

@[simp] theorem output_print (t : Text) (s : State) : (s.print t).output = s.output ++ [t] := by
  simp [output, print]

end State

end BlueNexus
