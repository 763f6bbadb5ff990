import BlueNexus.Proofs.ScanStretches

/-!
# Quoted strings

Within its quotes a string is written with every quote in it doubled. What is written so, and has no
further quote behind it, is read back as the string, and nothing else is read as one
(`strings_decode_encoding`).
-/

namespace BlueNexus

namespace Quotation

variable {t s : Text} {n : Nat}

/-- A string ends at the last of a run of quotes. -/
theorem head?_drop_of_read? (h : read? t = some (s, n)) : (t.drop n).head? ≠ some '"' := by
  fun_induction read? t generalizing s n with
  | case1 => cases h
  | case2 r ih =>
    obtain ⟨⟨s', n'⟩, h', he⟩ := Option.map_eq_some_iff.1 h
    cases he
    exact ih h'
  | case3 r hr =>
    cases h
    intro hq
    obtain ⟨r', rfl⟩ := List.head?_eq_some_iff.1 hq
    exact hr r' rfl
  | case4 c r h₁ h₂ ih =>
    obtain ⟨⟨s', n'⟩, h', he⟩ := Option.map_eq_some_iff.1 h
    cases he
    exact ih h'

/-- What is read is an encoding and a quote, as far as the last quote that may close it. -/
theorem read?_eq_some_iff : read? t = some (s, n) ↔
    ∃ r, t = encode s ++ '"' :: r ∧ r.head? ≠ some '"' ∧ n = (encode s).length + 1 := by
  constructor
  · intro h
    obtain ⟨hn, ht⟩ := eq_of_read? h
    exact ⟨t.drop n, ht, head?_drop_of_read? h, hn⟩
  · rintro ⟨r, rfl, hr, rfl⟩
    exact read?_encode s hr

private theorem read?_eq_none (h : ∀ s r, t = encode s ++ '"' :: r → r.head? = some '"') :
    read? t = none := by
  rw [Option.eq_none_iff_forall_ne_some]
  rintro ⟨s, n⟩ hs
  obtain ⟨r, ht, hr, -⟩ := read?_eq_some_iff.1 hs
  exact hr (h s r ht)

end Quotation

open Quotation Fragment

theorem Form.Reads.string_text {limit offset n : Nat} {breaks : List Nat} {c : Char} {r t : Text}
    (h : Reads limit breaks offset c r (.ok ⟨some (.string t), n⟩)) :
    (c :: r).take (1 + n) = '"' :: (encode t ++ ['"']) := by
  cases h with
  | string h =>
    obtain ⟨s, rfl, -, rfl⟩ := read?_eq_some_iff.1 h
    rw [Nat.add_comm, List.take_succ_cons, List.take_length_add_append]
    rfl

/-- A string that is encoded between quotes, in front of anything but a quote, is one token with
the string as it was, and the tokens behind it are those of the rest. Wherever a string is read in
a fragment, this is how it is written there. A text that begins with a quote and is not written so
is malformed at this quote. -/
theorem strings_decode_encoding (limit : Nat) (breaks : List Nat) (offset : Nat) :
    (∀ t r : Text, r.head? ≠ some '"' →
      Fragment.tokens limit ⟨'"' :: (encode t ++ '"' :: r), offset, breaks⟩ =
        (Fragment.tokens limit ⟨r, offset + (encode t).length + 2, breaks⟩).map
          (⟨.string t, offset⟩ :: ·)) ∧
    (∀ (f : Fragment) (ts : List Token), f.tokens limit = .ok ts →
      ∃ ss, f.Passes limit 0 ss f.text.length ∧ ss.filterMap (·.token? f) = ts ∧
        ∀ s ∈ ss, ∀ t, s.form = some (.string t) → s.text f = '"' :: (encode t ++ ['"'])) ∧
    ∀ u : Text, (∀ t r, u = encode t ++ '"' :: r → r.head? = some '"') →
      Fragment.tokens limit ⟨'"' :: u, offset, breaks⟩ = .error (.malformed offset) := by
  refine ⟨fun t r hr => ?_, fun f ts hts => ?_, fun u hu => ?_⟩
  · have hread : read? (encode t ++ '"' :: r) = some (t, (encode t).length + 1) :=
      read?_encode t hr
    have hoffset : offset + 1 + ((encode t).length + 1) = offset + (encode t).length + 2 := by
      omega
    rw [tokens_of_reads (.string hread), List.drop_length_add_append, hoffset]
    rfl
  · obtain ⟨ss, hpasses, htokens⟩ := exists_passes_of_tokens hts
    refine ⟨ss, hpasses, htokens, fun s hs t ht => ?_⟩
    obtain ⟨c, r, n, hreads, htext⟩ := hpasses.reads_of_mem hs
    rw [ht] at hreads
    rw [htext, hreads.string_text]
  · exact tokens_of_flaw (.openString (read?_eq_none hu))

/-- Quotes at both ends of a string, and a run of quotes that leaves none to close it. -/
theorem strings_decode_encoding_at_quotes :
    let f : Fragment := ⟨['"', '"', '"', 'x', '"', '"', '"', '7'], 3, []⟩
    let ts : List Token := [⟨.string ['"', 'x', '"'], 3⟩, ⟨.number 7, 10⟩]
    f.tokens 64 = .ok ts ∧
    (∃ ss, f.Passes 64 0 ss 8 ∧ ss.filterMap (·.token? f) = ts ∧
      ∀ s ∈ ss, ∀ t, s.form = some (.string t) → s.text f = '"' :: (encode t ++ ['"'])) ∧
    (∀ t r : Text, ['a', '"', '"'] = encode t ++ '"' :: r → r.head? = some '"') ∧
    Fragment.tokens 64 ⟨['"', 'a', '"', '"'], 3, []⟩ = .error (.malformed 3) := by
  intro f ts
  obtain ⟨hdecode, hwritten, hmalformed⟩ := strings_decode_encoding 64 [] 3
  have hts : f.tokens 64 = .ok ts := (hdecode ['"', 'x', '"'] ['7'] (by decide)).trans rfl
  have hopen : ∀ t r : Text, ['a', '"', '"'] = encode t ++ '"' :: r → r.head? = some '"' := by
    intro t r hu
    by_contra hr
    have hread : read? ['a', '"', '"'] = some (t, (encode t).length + 1) :=
      read?_eq_some_iff.2 ⟨r, hu, hr, rfl⟩
    cases hread
  exact ⟨hts, hwritten f ts hts, hopen, hmalformed _ hopen⟩

end BlueNexus
