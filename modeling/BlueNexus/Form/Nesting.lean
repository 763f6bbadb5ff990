import BlueNexus.Name

/-!
# The extent of a nested text

The text after an opening character runs up to the close that belongs to it. Every opening on the
way takes one more close. Openings are counted, and counting stops where more are open at once than
the limit allows.
-/

namespace BlueNexus.Nesting

/-- What opens a nested text, given the text that follows, and the character that closes it. -/
structure Pairing where
  opens : Char → Text → Bool
  close : Char

def parentheses : Pairing := ⟨fun c _ => c = '(', ')'⟩

/-- The marks around the body of a block: `>` opens one only before a name. -/
def blocks : Pairing := ⟨fun c r => c = '>' && (Name.leading? r).isSome, '<'⟩

inductive Extent where
  /-- The closing character comes after `n` others. -/
  | closed (n : Nat)
  | unclosed
  /-- The opening after `n` characters is one too many. -/
  | tooDeep (n : Nat)
deriving DecidableEq

def Extent.later : Extent → Extent
  | .closed n => .closed (n + 1)
  | .unclosed => .unclosed
  | .tooDeep n => .tooDeep (n + 1)

/-- The extent of a text in which `inner` openings are open, not counting the one before it. -/
def extent (p : Pairing) (limit : Nat) : (inner : Nat) → Text → Extent
  | _, [] => .unclosed
  | inner, c :: r =>
    if p.opens c r then
      if limit ≤ inner + 1 then .tooDeep 0 else (extent p limit (inner + 1) r).later
    else if c = p.close then
      match inner with
      | 0 => .closed 0
      | inner + 1 => (extent p limit inner r).later
    else (extent p limit inner r).later

theorem Extent.later_eq_closed {e : Extent} {n : Nat} (h : e.later = .closed n) :
    ∃ m, e = .closed m ∧ n = m + 1 := by
  cases e with
  | closed m =>
    cases h
    exact ⟨m, rfl, rfl⟩
  | unclosed => cases h
  | tooDeep m => cases h

theorem getElem?_of_extent_closed {p : Pairing} {limit inner n : Nat} {t : Text}
    (h : extent p limit inner t = .closed n) : t[n]? = some p.close := by
  induction t generalizing inner n with
  | nil => cases h
  | cons c r ih =>
    have later : ∀ {i : Nat}, (extent p limit i r).later = .closed n →
        (c :: r)[n]? = some p.close := by
      intro i h
      obtain ⟨m, hm, rfl⟩ := Extent.later_eq_closed h
      exact ih hm
    unfold extent at h
    split at h
    · split at h
      · cases h
      · exact later h
    · split at h
      · next hc =>
        split at h
        · cases h
          exact congrArg some hc
        · exact later h
      · exact later h

theorem lt_length_of_extent_closed {p : Pairing} {limit inner n : Nat} {t : Text}
    (h : extent p limit inner t = .closed n) : n < t.length :=
  (List.getElem?_eq_some_iff.1 (getElem?_of_extent_closed h)).1

end BlueNexus.Nesting
