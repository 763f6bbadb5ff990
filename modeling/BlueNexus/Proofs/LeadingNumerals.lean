import BlueNexus.Proofs.SignedNumerals

/-!
# The integer at the front of a text

A text that begins with an integer begins with a shorter one as well, if there are several digits.
Reading takes the longest, as far as 64 bits hold it (`leading?_eq_some_iff`).
-/

namespace BlueNexus.Numeral

variable {t : Text} {v : Int} {n : Int64}

/-- The whole text is an integer of value `v`: a sign, if there is one, and digits. -/
inductive Denotes : Text → Int → Prop
  | signed (s : Sign) {digits : Text} (h : IsDigits digits) :
      Denotes (s.text ++ digits) (s.apply (digitsValue digits : Int))

/-- Of the integers with which the text begins the longest has the value `v`. -/
def Leads (t : Text) (v : Int) : Prop :=
  ∃ u, u <+: t ∧ Denotes u v ∧ ∀ u' v', u' <+: t → Denotes u' v' → u'.length ≤ u.length

private theorem exists_sign (t : Text) :
    ∃ (s : Sign) (r : Text), takeSign t = (s.negative, r) ∧ t = s.text ++ r := by
  unfold takeSign
  split
  · exact ⟨.minus, _, rfl, rfl⟩
  · exact ⟨.plus, _, rfl, rfl⟩
  · exact ⟨.none, _, rfl, rfl⟩

/-- A text is a sign, as many digits as follow it, and a rest. The sign and the digits are read. -/
theorem exists_parts (t : Text) : ∃ (s : Sign) (digits rest : Text),
    takeSign t = (s.negative, digits ++ rest) ∧ t = s.text ++ (digits ++ rest) ∧
      (∀ c ∈ digits, c.isDigit = true) ∧ (∀ c ∈ rest.head?, c.isDigit = false) ∧
      leading? t = signed? s.negative digits := by
  obtain ⟨s, r, hsign, ht⟩ := exists_sign t
  have hr : r.takeWhile Char.isDigit ++ r.dropWhile Char.isDigit = r :=
    List.takeWhile_append_dropWhile
  refine ⟨s, r.takeWhile Char.isDigit, r.dropWhile Char.isDigit, by rw [hr, hsign], by rw [hr, ht],
    List.all_eq_true.1 List.all_takeWhile, fun c hc => ?_, by simp only [leading?, hsign]⟩
  have hhead := List.head?_dropWhile_not Char.isDigit r
  rwa [Option.mem_def.1 hc] at hhead

/-- Of the ways to cut a text behind a sign and digits, none takes more than the one that leaves no
digit in front of the rest. -/
theorem IsDigits.length_le {s s' : Sign} {digits digits' rest rest' : Text} (h : IsDigits digits)
    (h' : IsDigits digits') (hrest : ∀ c ∈ rest.head?, c.isDigit = false)
    (ht : s.text ++ (digits ++ rest) = s'.text ++ (digits' ++ rest')) :
    (s'.text ++ digits').length ≤ (s.text ++ digits).length := by
  have hsign := congrArg takeSign ht
  rw [h.takeSign_eq, h'.takeSign_eq, Prod.mk.injEq] at hsign
  obtain ⟨-, hbehind⟩ := hsign
  have hrun : digits = digits' ++ rest'.takeWhile Char.isDigit := by
    rw [← h.takeWhile_append hrest, hbehind, List.takeWhile_append_of_pos h'.all]
  have htext : s.text = s'.text := by
    rw [hbehind] at ht
    exact List.append_cancel_right ht
  have hprefix : s'.text ++ digits' <+: s.text ++ digits := by
    rw [htext, hrun]
    exact (List.prefix_append_right_inj _).2 (List.prefix_append _ _)
  exact hprefix.length_le

/-- The longest integer is the one with no digit behind it. -/
theorem leads_iff : Leads t v ↔
    ∃ (s : Sign) (digits rest : Text), IsDigits digits ∧
      (∀ c ∈ rest.head?, c.isDigit = false) ∧ t = s.text ++ (digits ++ rest) ∧
      v = s.apply (digitsValue digits : Int) := by
  constructor
  · rintro ⟨_, ⟨rest, rfl⟩, @⟨s, digits, h⟩, hlongest⟩
    refine ⟨s, digits, rest, h, fun c hc => ?_, List.append_assoc _ _ _, rfl⟩
    by_contra hdigit
    obtain ⟨rest, rfl⟩ : ∃ r, rest = c :: r := List.head?_eq_some_iff.1 hc
    have hmore : IsDigits (digits ++ [c]) := h.append (by simpa using hdigit)
    have hle := hlongest _ _ ⟨rest, by simp⟩ (.signed s hmore)
    rw [List.length_append, List.length_append, List.length_append] at hle
    exact absurd hle (by simp)
  · rintro ⟨s, digits, rest, h, hrest, rfl, rfl⟩
    refine ⟨s.text ++ digits, ⟨rest, List.append_assoc _ _ _⟩, .signed s h, ?_⟩
    rintro _ _ ⟨rest', ht⟩ ⟨s', h'⟩
    rw [List.append_assoc] at ht
    exact h.length_le h' hrest ht.symm

theorem leading?_eq_some_iff : leading? t = some n ↔ Leads t n.toInt := by
  rw [leads_iff]
  constructor
  · intro h
    obtain ⟨s, digits, rest, -, ht, hall, hrest, hread⟩ := exists_parts t
    rw [hread] at h
    have hdigits : IsDigits digits := by
      refine ⟨?_, hall⟩
      rintro rfl
      cases h
    rw [hdigits.signed?_eq, int64?_eq_some_iff] at h
    exact ⟨s, digits, rest, hdigits, hrest, ht, h⟩
  · rintro ⟨s, digits, rest, h, hrest, rfl, hn⟩
    rw [h.leading?_signed s hrest, int64?_eq_some_iff, hn]

theorem leading?_eq_none_iff : leading? t = none ↔ ∀ n : Int64, ¬Leads t n.toInt := by
  simp only [Option.eq_none_iff_forall_ne_some, ne_eq, leading?_eq_some_iff]

end BlueNexus.Numeral
