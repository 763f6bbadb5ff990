import BlueNexus.Text

/-!
# Fragments of a source

A fragment is a stretch of a source whose separators are gone. It knows its offset in the whole, so
what is read from it later still has its place, and the breaks: the offsets of those digits that a
separator parted from a digit before them.
-/

namespace BlueNexus

structure Fragment where
  text : Text
  offset : Nat
  breaks : List Nat
deriving DecidableEq

namespace Fragment

def shift (d : Nat) (f : Fragment) : Fragment :=
  ⟨f.text, f.offset + d, f.breaks.map (· + d)⟩

/-- A stretch of code, with those of the given breaks that lie in it. -/
def code (breaks : List Nat) (offset : Nat) (text : Text) : Fragment :=
  ⟨text, offset, breaks.filter fun b => offset ≤ b && b < offset + text.length⟩

/-- Blanks and commas separate, and have no other meaning. -/
def isSeparator (c : Char) : Bool := Text.isBlank c || c = ','

/-- The breaks of a source. The state is the number of characters kept so far, whether the last of
them is a digit, and whether a separator came after it. -/
def sourceBreaks : (kept : Nat) → (afterDigit gap : Bool) → Text → List Nat
  | _, _, _, [] => []
  | kept, afterDigit, gap, c :: r =>
    if isSeparator c then sourceBreaks kept afterDigit true r
    else if gap && afterDigit && c.isDigit then kept :: sourceBreaks (kept + 1) true false r
    else sourceBreaks (kept + 1) c.isDigit false r

def ofSource (source : Text) : Fragment :=
  ⟨source.filter (!isSeparator ·), 0, sourceBreaks 0 false false source⟩

theorem ofSource_text_mem {source : Text} {c : Char} (h : c ∈ (ofSource source).text) :
    isSeparator c = false := by
  have h' := (List.mem_filter.1 h).2
  simpa using h'

@[simp] theorem ofSource_text_append (s t : Text) :
    (ofSource (s ++ t)).text = (ofSource s).text ++ (ofSource t).text :=
  List.filter_append s t

end Fragment

end BlueNexus
