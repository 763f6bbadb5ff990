import BlueNexus.Text

/-!
# Quoted strings

Inside a quoted string a quote is written twice, and a quote that stands alone ends the string.
Reading undoes writing (`read?_encode`), and reads nothing that is not written so
(`eq_of_read?`).
-/

namespace BlueNexus.Quotation

/-- Reads a string whose opening quote is gone: the string, and how many characters it takes with
its closing quote. -/
def read? : Text → Option (Text × Nat)
  | [] => none
  | '"' :: '"' :: r => (read? r).map fun s => ('"' :: s.1, s.2 + 2)
  | '"' :: _ => some ([], 1)
  | c :: r => (read? r).map fun s => (c :: s.1, s.2 + 1)

def encode : Text → Text
  | [] => []
  | c :: r => if c = '"' then '"' :: '"' :: encode r else c :: encode r

@[simp] theorem read?_quote {r : Text} (h : r.head? ≠ some '"') :
    read? ('"' :: r) = some ([], 1) := by
  rw [read?.eq_def]
  split
  · contradiction
  · simp_all
  · rfl
  · next hc h' => exact absurd (List.cons.inj h').1.symm hc

theorem read?_cons {c : Char} (h : c ≠ '"') (r : Text) :
    read? (c :: r) = (read? r).map fun s => (c :: s.1, s.2 + 1) := by
  rw [read?.eq_def]
  split <;> simp_all

@[simp] theorem read?_encode (t : Text) {r : Text} (h : r.head? ≠ some '"') :
    read? (encode t ++ '"' :: r) = some (t, (encode t).length + 1) := by
  induction t with
  | nil => exact read?_quote h
  | cons c t ih =>
    by_cases hc : c = '"'
    · subst hc
      simp [encode, read?, ih]
    · simp [encode, hc, read?_cons hc, ih]

/-- What is read is written as its encoding and a quote. -/
theorem eq_of_read? {t s : Text} {n : Nat} (h : read? t = some (s, n)) :
    n = (encode s).length + 1 ∧ t = encode s ++ '"' :: t.drop n := by
  fun_induction read? t generalizing s n with
  | case1 => cases h
  | case2 r ih =>
    obtain ⟨⟨s', n'⟩, h', he⟩ := Option.map_eq_some_iff.1 h
    cases he
    obtain ⟨hn, ht⟩ := ih h'
    refine ⟨by simp [encode, hn], ?_⟩
    rw [show encode ('"' :: s') = '"' :: '"' :: encode s' from rfl]
    simpa using ht
  | case3 r _ =>
    cases h
    exact ⟨rfl, rfl⟩
  | case4 c r h₁ h₂ ih =>
    obtain ⟨⟨s', n'⟩, h', he⟩ := Option.map_eq_some_iff.1 h
    cases he
    obtain ⟨hn, ht⟩ := ih h'
    have hc : c ≠ '"' := fun hc => h₂ hc
    refine ⟨by simp [encode, hc, hn], ?_⟩
    simpa [encode, hc] using ht

theorem length_of_read? {t s : Text} {n : Nat} (h : read? t = some (s, n)) : n ≤ t.length := by
  obtain ⟨hn, ht⟩ := eq_of_read? h
  have hl := congrArg List.length ht
  simp only [List.length_append, List.length_cons, List.length_drop] at hl
  omega

end BlueNexus.Quotation
