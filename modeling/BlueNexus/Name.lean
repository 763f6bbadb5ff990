import BlueNexus.Text

/-!
# Variable names

A variable is named by one ASCII letter. The capitals come first in the order.
-/

namespace BlueNexus

structure Name where
  letter : Char
  isLetter : letter.isAlpha = true
deriving DecidableEq

namespace Name

instance : LT Name := ⟨fun x y => x.letter < y.letter⟩

instance (x y : Name) : Decidable (x < y) := inferInstanceAs (Decidable (x.letter < y.letter))

@[simp] theorem lt_irrefl (x : Name) : ¬x < x := Char.lt_irrefl x.letter

theorem lt_trans {x y z : Name} (h : x < y) (h' : y < z) : x < z := Char.lt_trans h h'

theorem lt_of_not_lt {x y : Name} (h : ¬x < y) (hne : x ≠ y) : y < x := by
  refine Decidable.byContradiction fun h' => hne ?_
  have he : x.letter = y.letter := Char.le_antisymm (Char.not_lt.1 h') (Char.not_lt.1 h)
  cases x
  cases y
  simp_all

def ofChar? (c : Char) : Option Name :=
  if h : c.isAlpha = true then some ⟨c, h⟩ else none

@[simp] theorem letter_ne (x : Name) {c : Char} (h : c.isAlpha = false) : x.letter ≠ c := by
  rintro rfl
  cases h.symm.trans x.isLetter

/-- The name that is the whole text. -/
def ofText? : Text → Option Name
  | [c] => ofChar? c
  | _ => none

def leading? : Text → Option Name
  | [] => none
  | c :: _ => ofChar? c

@[simp] theorem ofChar?_letter (x : Name) : ofChar? x.letter = some x := by
  simp [ofChar?, x.isLetter]

theorem ofChar?_eq_some_iff {c : Char} {x : Name} : ofChar? c = some x ↔ x.letter = c := by
  constructor
  · intro h
    unfold ofChar? at h
    split at h
    · cases h
      rfl
    · cases h
  · rintro rfl
    exact ofChar?_letter x

@[simp] theorem ofText?_letter (x : Name) : ofText? [x.letter] = some x := ofChar?_letter x

theorem eq_of_ofText? {t : Text} {x : Name} (h : ofText? t = some x) : t = [x.letter] := by
  unfold ofText? at h
  split at h
  · rw [ofChar?_eq_some_iff.1 h]
  · cases h

end Name

end BlueNexus
