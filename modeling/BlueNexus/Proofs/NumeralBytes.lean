import BlueNexus.Proofs.LeadingNumerals

/-!
# Integers cut off by bytes

A string is stored as the bytes of its characters, and a character may take several of them. The
integer at the front of a string can be cut off at byte offsets: each offset that comes up lies
between two characters of the string, and what is cut off is the integer that the characters are
read as (`cutLeading?_eq`).
-/

namespace BlueNexus.Numeral

/-- The text before a byte offset, if this is between characters or at an end. -/
def before? (s : String) (offset : Nat) : Option String :=
  (s.pos? ⟨offset⟩).map fun p => (s.sliceTo p).copy

/-- The text behind a byte offset, if this is between characters or at an end. -/
def behind? (s : String) (offset : Nat) : Option String :=
  (s.pos? ⟨offset⟩).map fun p => (s.sliceFrom p).copy

/-- The integer at the front of a string, cut off at byte offsets. There is no result if one of them
is no place to cut. -/
def cutLeading? (s : String) : Option (Option Int64) := do
  let sign := if s.startsWith fun c : Char => c = '+' || c = '-' then 1 else 0
  let r ← behind? s sign
  -- Behind this cut the string is known to be as long as the sign.
  let digits := (r.find? fun c : Char => !c.isDigit).elim (s.utf8ByteSize - sign) (·.offset.byteIdx)
  if digits = 0 then some none
  else (before? s (sign + digits)).map fun t => whole? t.toList

theorem exists_pos_append (a b : String) :
    ∃ p : (a ++ b).Pos, (a ++ b).pos? ⟨a.utf8ByteSize⟩ = some p ∧ p.Splits a b := by
  have hvalid : a.rawEndPos.IsValid (a ++ b) := String.Pos.Raw.isValid_rawEndPos.append_right b
  have hslice : a.rawEndPos.isValidForSlice (a ++ b).toSlice = true :=
    String.Pos.Raw.isValidForSlice_eq_true_iff.2 hvalid.toSlice
  refine ⟨(a ++ b).pos a.rawEndPos hvalid, ?_, String.Pos.splits_append_rawEndPos⟩
  change (a ++ b).pos? a.rawEndPos = _
  rw [String.pos?, String.Slice.pos?, dif_pos hslice]
  rfl

private theorem before?_append (a b : String) : before? (a ++ b) a.utf8ByteSize = some a := by
  obtain ⟨p, hp, hsplits⟩ := exists_pos_append a b
  rw [before?, hp, Option.map_some, hsplits.copy_sliceTo_eq]

private theorem behind?_append (a b : String) : behind? (a ++ b) a.utf8ByteSize = some b := by
  obtain ⟨p, hp, hsplits⟩ := exists_pos_append a b
  rw [behind?, hp, Option.map_some, hsplits.copy_sliceFrom_eq]

variable {digits rest t : Text}

private theorem signWidth_eq {s : Sign} (h : takeSign (s.text ++ t) = (s.negative, t)) :
    (if (String.ofList (s.text ++ t)).startsWith fun c : Char => c = '+' || c = '-' then 1 else 0) =
      (String.ofList s.text).utf8ByteSize := by
  rw [String.startsWith_bool_eq_head?, String.toList_ofList]
  cases s with
  | plus | minus => rfl
  | none =>
    cases t with
    | nil => rfl
    | cons c t =>
      have hplus : c ≠ '+' := by
        rintro rfl
        exact List.cons_ne_self _ _ (Prod.mk.inj h).2.symm
      have hminus : c ≠ '-' := by
        rintro rfl
        cases (Prod.mk.inj h).1
      simp [Sign.text, hplus, hminus]

theorem digitsWidth_eq (hdigits : ∀ c ∈ digits, c.isDigit = true)
    (hrest : ∀ c ∈ rest.head?, c.isDigit = false) :
    ((String.ofList (digits ++ rest)).find? fun c : Char => !c.isDigit).elim
      (String.ofList (digits ++ rest)).utf8ByteSize (·.offset.byteIdx) =
        (String.ofList digits).utf8ByteSize := by
  cases rest with
  | nil =>
    rw [List.append_nil]
    cases hp : (String.ofList digits).find? fun c : Char => !c.isDigit with
    | none => rfl
    | some p =>
      obtain ⟨u, c, v, hsplits, hc, -⟩ := String.find?_bool_eq_some_iff_splits.1 hp
      have hmem : c ∈ digits := by
        rw [← String.toList_ofList (l := digits), hsplits.eq_append]
        simp
      simp [hdigits c hmem] at hc
  | cons c rest =>
    have heq : String.ofList (digits ++ c :: rest) =
        String.ofList digits ++ (String.singleton c ++ String.ofList rest) := by
      rw [String.ofList_append, String.ofList_cons]
    have hp : (String.ofList (digits ++ c :: rest)).find? (fun c : Char => !c.isDigit) =
        some (String.Pos.ofEqAppend heq) := by
      refine String.find?_bool_eq_some_iff_splits.2
        ⟨_, c, _, String.Pos.splits_ofEqAppend heq, by simp [hrest c rfl], ?_⟩
      intro d hd
      rw [String.toList_ofList] at hd
      simp [hdigits d hd]
    rw [hp]
    exact congrArg String.Pos.Raw.byteIdx (String.Pos.splits_ofEqAppend heq).offset_eq_rawEndPos

/-- Both offsets are places to cut, and the integer is what stands before the second. -/
theorem cutLeading?_signed {s : Sign} (hsign : takeSign (s.text ++ (digits ++ rest)) =
      (s.negative, digits ++ rest)) (hdigits : ∀ c ∈ digits, c.isDigit = true)
    (hrest : ∀ c ∈ rest.head?, c.isDigit = false) :
    cutLeading? (String.ofList (s.text ++ (digits ++ rest))) =
      some (signed? s.negative digits) := by
  have hbehind := behind?_append (String.ofList s.text) (String.ofList (digits ++ rest))
  have hbefore := before?_append (String.ofList (s.text ++ digits)) (String.ofList rest)
  rw [← String.ofList_append] at hbehind hbefore
  rw [List.append_assoc] at hbefore
  have hsize : (String.ofList (s.text ++ (digits ++ rest))).utf8ByteSize -
      (String.ofList s.text).utf8ByteSize = (String.ofList (digits ++ rest)).utf8ByteSize := by
    rw [String.ofList_append, String.utf8ByteSize_append, Nat.add_sub_cancel_left]
  have hwidth : (String.ofList s.text).utf8ByteSize + (String.ofList digits).utf8ByteSize =
      (String.ofList (s.text ++ digits)).utf8ByteSize := by
    rw [String.ofList_append, String.utf8ByteSize_append]
  have hempty : (String.ofList digits).utf8ByteSize = 0 ↔ digits = [] := by
    rw [String.utf8ByteSize_eq_zero_iff, String.ofList_eq_empty_iff]
  simp only [cutLeading?, signWidth_eq hsign, hbehind, Option.bind_eq_bind, Option.bind_some, hsize,
    digitsWidth_eq hdigits hrest, hempty, hwidth, hbefore, Option.map_some, String.toList_ofList]
  split
  · next hnil => rw [signed?, if_pos hnil]
  · next hne =>
    have h : IsDigits digits := ⟨hne, hdigits⟩
    rw [h.whole?_signed, h.signed?_eq]

/-- Cut off at byte offsets, the integer is the one that is read. -/
theorem cutLeading?_eq (s : String) : cutLeading? s = some (leading? s.toList) := by
  obtain ⟨sign, digits, rest, hsign, ht, hdigits, hrest, hread⟩ := exists_parts s.toList
  have hs : s = String.ofList (sign.text ++ (digits ++ rest)) := by rw [← ht, String.ofList_toList]
  rw [ht] at hsign
  rw [hread, hs, cutLeading?_signed hsign hdigits hrest]

/-- The integer at the front of a text is the longest that stands there, if 64 bits hold it, and
without such an integer there is none. To cut it off at byte offsets never splits a character nor
leaves the string. An integer that is written in front of anything but a digit is read again. -/
theorem leading_integer_is_longest :
    (∀ (t : Text) (n : Int64), leading? t = some n ↔ Leads t n.toInt) ∧
    (∀ t : Text, leading? t = none ↔
      ∀ v, Leads t v → ¬(Int64.minValue.toInt ≤ v ∧ v ≤ Int64.maxValue.toInt)) ∧
    (∀ s : String, cutLeading? s = some (leading? s.toList)) ∧
    ∀ (n : Int64) (rest : Text), (∀ c ∈ rest.head?, c.isDigit = false) →
      leading? (decimal n ++ rest) = some n := by
  refine ⟨fun t n => leading?_eq_some_iff, fun t => leading?_eq_none_iff.trans ⟨?_, ?_⟩,
    cutLeading?_eq, fun n rest => leading?_decimal_append n⟩
  · intro h v hv hrange
    have hsome : int64? v ≠ none := fun hnone => int64?_eq_none_iff.1 hnone hrange
    obtain ⟨n, hn⟩ := Option.ne_none_iff_exists'.1 hsome
    exact h n (int64?_eq_some_iff.1 hn ▸ hv)
  · intro h n hn
    have hmin : Int64.minValue.toInt ≤ n.toInt := n.minValue_le_toInt
    have hmax : n.toInt ≤ Int64.maxValue.toInt := n.toInt_le
    exact h n.toInt hn ⟨hmin, hmax⟩

/-- The least integer, in front of a character of two bytes. -/
theorem leading_integer_is_longest_at_minimum :
    (∀ c ∈ ['é', '1'].head?, c.isDigit = false) ∧
    leading? (decimal Int64.minValue ++ ['é', '1']) = some Int64.minValue ∧
    cutLeading? (String.ofList (decimal Int64.minValue ++ ['é', '1'])) =
      some (some Int64.minValue) := by
  obtain ⟨-, -, hcut, hwritten⟩ := leading_integer_is_longest
  have hrest : ∀ c ∈ ['é', '1'].head?, c.isDigit = false := by
    rintro _ ⟨⟩
    rfl
  have hread := hwritten Int64.minValue ['é', '1'] hrest
  refine ⟨hrest, hread, ?_⟩
  rw [hcut, String.toList_ofList, hread]

end BlueNexus.Numeral
