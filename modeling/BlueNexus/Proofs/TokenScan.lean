import BlueNexus.Form.Reading
import BlueNexus.Proofs.FormRules
import Mathlib.Data.List.Infix

/-!
# Scanning a text into tokens

A scan goes over a text form by form. The tokens of a fragment are those of a scan of its text
(`scan_of_tokens`), and where it has none, some form in it is flawed (`exists_flaw`). The fragments
that a token carries are slices of the text, and shorter (`Scan.carried`).
-/

namespace BlueNexus

/-- The text `t` stands in `whole` from `offset` on. -/
def Text.Slice (whole : Text) (offset : Nat) (t : Text) : Prop := t <+: whole.drop offset

namespace Text.Slice

variable {whole t a b r : Text} {offset k : Nat} {c : Char}

theorem self_append (a b : Text) : Slice (a ++ b) a.length b := by
  rw [Slice, List.drop_left]

theorem behind (c : Char) (r : Text) (n : Nat) : Slice (c :: r) (1 + n) (r.drop n) := by
  rw [Slice, Nat.add_comm, List.drop_succ_cons]

theorem drop (h : Slice whole offset t) (k : Nat) : Slice whole (offset + k) (t.drop k) := by
  rw [Slice, ← List.drop_drop]
  exact List.IsPrefix.drop h k

theorem trans (h : Slice whole offset t) (h' : Slice t k a) : Slice whole (offset + k) a :=
  List.IsPrefix.trans h' (h.drop k)

theorem mono (h : Slice whole offset t) (ha : a <+: t) : Slice whole offset a :=
  List.IsPrefix.trans ha h

theorem take (h : Slice whole offset t) (n : Nat) : Slice whole offset (t.take n) :=
  h.mono <| List.take_prefix n t

theorem append_left (h : Slice whole offset (a ++ b)) : Slice whole offset a :=
  h.mono <| List.prefix_append a b

theorem getElem? (h : Slice whole offset (c :: r)) : whole[offset]? = some c := by
  obtain ⟨s, hs⟩ := h
  have hd : (whole.drop offset)[0]? = some c := by rw [← hs]; rfl
  simpa using hd

theorem tail (h : Slice whole offset (c :: r)) : Slice whole (offset + 1) r := h.drop 1

theorem length_le (h : Slice whole offset t) : t.length ≤ whole.length - offset := by
  have hle := List.IsPrefix.length_le h
  rwa [List.length_drop] at hle

theorem add_lt_length (h : Slice whole offset t) (hk : k < t.length) :
    offset + k < whole.length := by
  have hle := h.length_le
  omega

theorem isInfix (h : Slice whole offset t) : t <:+: whole :=
  List.IsInfix.trans (List.IsPrefix.isInfix h) (List.drop_suffix offset whole).isInfix

end Text.Slice

open Text

namespace Form

/-- The fragments that a form carries. -/
def fragments : Form → List Fragment
  | .block _ body => [body]
  | .conditional _ predicate command => [predicate, command]
  | _ => []

/-- The fragments of a form that may be executed. -/
def code : Form → List Fragment
  | .block _ body => [body]
  | .conditional _ _ command => [command]
  | _ => []

theorem code_subset (form : Form) : form.code ⊆ form.fragments := by
  cases form <;> simp [code, fragments]

variable {limit offset n : Nat} {breaks : List Nat} {c : Char} {r : Text}

theorem slice_predicate (kind predicate rest : Text) :
    Slice ('[' :: (kind ++ ']' :: '{' :: (predicate ++ '}' :: '(' :: rest)))
      (kind.length + 3) predicate := by
  have h := Slice.self_append ('[' :: (kind ++ [']', '{'])) (predicate ++ '}' :: '(' :: rest)
  simpa [Nat.add_assoc] using h.append_left

theorem slice_command (kind predicate rest : Text) :
    Slice ('[' :: (kind ++ ']' :: '{' :: (predicate ++ '}' :: '(' :: rest)))
      (kind.length + predicate.length + 5) rest := by
  have h := Slice.self_append ('[' :: (kind ++ ']' :: '{' :: (predicate ++ ['}', '(']))) rest
  have hlen : ('[' :: (kind ++ ']' :: '{' :: (predicate ++ ['}', '(']))).length =
      kind.length + predicate.length + 5 := by
    simp only [List.length_cons, List.length_append, List.length_nil]
    omega
  rw [hlen] at h
  simpa using h

theorem Reads.carried {form : Form} (h : Reads limit breaks offset c r (.ok ⟨some form, n⟩))
    {f : Fragment} (hf : f ∈ form.fragments) :
    ∃ k, f.offset = offset + 1 + k ∧ Slice r k f.text := by
  cases h with
  | block x h =>
    cases List.mem_singleton.1 hf
    exact ⟨2, rfl, List.take_prefix _ _⟩
  | openBlock x h =>
    cases List.mem_singleton.1 hf
    exact ⟨2, rfl, List.prefix_refl _⟩
  | @conditional kind predicate rest n hk hp h =>
    rcases List.mem_cons.1 hf with rfl | hf
    · refine ⟨kind.length + 3, ?_, slice_predicate kind predicate rest⟩
      change offset + 4 + kind.length = _
      omega
    · cases List.mem_singleton.1 hf
      refine ⟨kind.length + predicate.length + 5, ?_, ?_⟩
      · change offset + 6 + kind.length + predicate.length = _
        omega
      · exact (slice_command kind predicate rest).take n
  | _ => cases hf

theorem Reads.carried_end_le {form : Form}
    (h : Reads limit breaks offset c r (.ok ⟨some form, n⟩)) {f : Fragment}
    (hf : f ∈ form.fragments) : f.offset + f.text.length ≤ offset + 1 + n := by
  cases h with
  | @block x r n h =>
    cases List.mem_singleton.1 hf
    change offset + 3 + (r.take n).length ≤ _
    rw [List.length_take]
    omega
  | @openBlock x r h =>
    cases List.mem_singleton.1 hf
    change offset + 3 + r.length ≤ _
    omega
  | @conditional kind predicate rest n hk hp h =>
    rcases List.mem_cons.1 hf with rfl | hf
    · change offset + 4 + kind.length + predicate.length ≤ _
      omega
    · cases List.mem_singleton.1 hf
      change offset + 6 + kind.length + predicate.length + (rest.take n).length ≤ _
      rw [List.length_take]
      omega
  | _ => cases hf

theorem Reads.extent_le {x : Reading} (h : Reads limit breaks offset c r (.ok x)) :
    x.extent ≤ r.length := by
  cases h with
  | number => exact digitRun_le_length _ _ _
  | string h => exact Quotation.length_of_read? h
  | debug => exact (List.takeWhile_prefix _).length_le
  | @expression x r h =>
    have hle := (List.takeWhile_prefix (p := (· ≠ '<')) (l := r)).length_le
    simp only [readExpression, List.length_cons]
    split <;> omega
  | block x h =>
    have hlt := Nesting.lt_length_of_extent_closed h
    simp only [List.length_cons]
    omega
  | drop => simp
  | conditional hk hp h =>
    have hlt := Nesting.lt_length_of_extent_closed h
    simp only [List.length_cons, List.length_append]
    omega
  | _ => simp

theorem Reads.code_eq {form : Form} (h : Reads limit breaks offset c r (.ok ⟨some form, n⟩))
    {f : Fragment} (hf : f ∈ form.code) : f = .code breaks f.offset f.text := by
  cases h with
  | block | openBlock | conditional =>
    cases List.mem_singleton.1 hf
    rfl
  | _ => cases hf

end Form

namespace Fragment

/-- The tokens of a text at `offset`, form by form. -/
inductive Scan (limit : Nat) (breaks : List Nat) : Nat → Text → List Token → Prop
  | done (offset) : Scan limit breaks offset [] []
  | form {offset c r f n ts} (h : Form.Reads limit breaks offset c r (.ok ⟨some f, n⟩))
      (hs : Scan limit breaks (offset + 1 + n) (r.drop n) ts) :
      Scan limit breaks offset (c :: r) (⟨f, offset⟩ :: ts)
  | nameless {offset c r n ts} (h : Form.Reads limit breaks offset c r (.ok ⟨none, n⟩))
      (hs : Scan limit breaks (offset + 1 + n) (r.drop n) ts) :
      Scan limit breaks offset (c :: r) ts

variable {limit offset : Nat} {breaks : List Nat} {t : Text} {ts : List Token}

private theorem scan_of_tokensFrom (h : tokensFrom limit breaks 0 offset t = .ok ts) :
    Scan limit breaks offset t ts := by
  induction hn : t.length using Nat.strongRecOn generalizing offset t ts with
  | ind len ih =>
    cases t with
    | nil =>
      cases h
      exact .done offset
    | cons c r =>
      cases hr : Form.read limit breaks offset c r with
      | error e => cases (tokensFrom_of_error hr).symm.trans h
      | ok x =>
        rw [tokensFrom_of_ok hr] at h
        have hreads := Form.reads_read limit breaks offset c r
        rw [hr] at hreads
        cases hts : tokensFrom limit breaks 0 (offset + 1 + x.extent) (r.drop x.extent) with
        | error e =>
          rw [hts] at h
          cases h
        | ok us =>
          rw [hts] at h
          have hlt : (r.drop x.extent).length < len := by
            rw [← hn, List.length_drop, List.length_cons]
            omega
          have hs := ih _ hlt hts rfl
          obtain ⟨f, n⟩ := x
          cases h
          cases f with
          | none => exact .nameless hreads hs
          | some f => exact .form hreads hs

theorem scan_of_tokens {f : Fragment} (h : f.tokens limit = .ok ts) :
    Scan limit f.breaks f.offset f.text ts :=
  scan_of_tokensFrom h

/-- What is read off the front of a text comes before the tokens of what is behind it. -/
theorem tokens_of_reads {c : Char} {r : Text} {form : Form} {n : Nat}
    (h : Form.Reads limit breaks offset c r (.ok ⟨some form, n⟩)) :
    tokens limit ⟨c :: r, offset, breaks⟩ =
      (tokens limit ⟨r.drop n, offset + 1 + n, breaks⟩).map (⟨form, offset⟩ :: ·) :=
  tokensFrom_of_ok (Form.read_eq_of_reads h)

theorem tokens_of_flaw {c : Char} {r : Text} {e : Fault}
    (h : Form.Reads limit breaks offset c r (.error e)) :
    tokens limit ⟨c :: r, offset, breaks⟩ = .error e :=
  tokensFrom_of_error (Form.read_eq_of_reads h)

private theorem exists_flaw_of_tokensFrom {e : Fault}
    (h : tokensFrom limit breaks 0 offset t = .error e) :
    ∃ k c r, Slice t k (c :: r) ∧ Form.Reads limit breaks (offset + k) c r (.error e) := by
  induction hn : t.length using Nat.strongRecOn generalizing offset t with
  | ind len ih =>
    cases t with
    | nil => cases h
    | cons c r =>
      cases hr : Form.read limit breaks offset c r with
      | error e' =>
        cases (tokensFrom_of_error hr).symm.trans h
        exact ⟨0, c, r, List.prefix_refl _, hr ▸ Form.reads_read limit breaks offset c r⟩
      | ok x =>
        rw [tokensFrom_of_ok hr] at h
        cases hts : tokensFrom limit breaks 0 (offset + 1 + x.extent) (r.drop x.extent) with
        | ok us =>
          rw [hts] at h
          cases h
        | error e' =>
          rw [hts] at h
          cases h
          have hlt : (r.drop x.extent).length < len := by
            rw [← hn, List.length_drop, List.length_cons]
            omega
          obtain ⟨k, c', r', hs, hf⟩ := ih _ hlt hts rfl
          refine ⟨1 + x.extent + k, c', r', ?_, ?_⟩
          · exact (Slice.behind c r x.extent).trans hs
          · rwa [show offset + (1 + x.extent + k) = offset + 1 + x.extent + k by omega]

/-- A fragment without tokens has a flaw in it, which is its fault. -/
theorem exists_flaw {f : Fragment} {e : Fault} (h : f.tokens limit = .error e) :
    ∃ k c r, Slice f.text k (c :: r) ∧
      Form.Reads limit f.breaks (f.offset + k) c r (.error e) :=
  exists_flaw_of_tokensFrom h

/-- Every token is read somewhere in the text, and the tokens behind it from what is left there. -/
theorem Scan.of_suffix_cons (h : Scan limit breaks offset t ts) {u : Token} {us : List Token}
    (hs : u :: us <:+ ts) :
    ∃ a c r n, t = a ++ c :: r ∧ u.offset = offset + a.length ∧
      Form.Reads limit breaks u.offset c r (.ok ⟨some u.form, n⟩) ∧
      Scan limit breaks (u.offset + 1 + n) (r.drop n) us := by
  have later : ∀ {offset n : Nat} {c : Char} {r : Text},
      (∃ a c' r' n', r.drop n = a ++ c' :: r' ∧ u.offset = offset + 1 + n + a.length ∧
        Form.Reads limit breaks u.offset c' r' (.ok ⟨some u.form, n'⟩) ∧
        Scan limit breaks (u.offset + 1 + n') (r'.drop n') us) →
      ∃ a c' r' n', c :: r = a ++ c' :: r' ∧ u.offset = offset + a.length ∧
        Form.Reads limit breaks u.offset c' r' (.ok ⟨some u.form, n'⟩) ∧
        Scan limit breaks (u.offset + 1 + n') (r'.drop n') us := by
    rintro offset n c r ⟨a, c', r', n', hr, ho, hreads, hscan⟩
    have hn : n < r.length := by
      have hl := congrArg List.length hr
      simp only [List.length_drop, List.length_append, List.length_cons] at hl
      omega
    refine ⟨c :: (r.take n ++ a), c', r', n', ?_, ?_, hreads, hscan⟩
    · rw [List.cons_append, List.append_assoc, ← hr, List.take_append_drop]
    · simp only [List.length_cons, List.length_append, List.length_take]
      omega
  induction h with
  | done => simp at hs
  | nameless h hscan ih => exact later (ih hs)
  | @form offset c r f n ts h hscan ih =>
    rcases List.suffix_cons_iff.1 hs with he | hs
    · cases he
      exact ⟨[], c, r, n, rfl, rfl, h, hscan⟩
    · exact later (ih hs)

theorem Scan.of_mem (h : Scan limit breaks offset t ts) {u : Token} (hu : u ∈ ts) :
    ∃ a c r n, t = a ++ c :: r ∧ u.offset = offset + a.length ∧
      Form.Reads limit breaks u.offset c r (.ok ⟨some u.form, n⟩) := by
  obtain ⟨us, vs, rfl⟩ := List.append_of_mem hu
  obtain ⟨a, c, r, n, ht, ho, hreads, -⟩ := h.of_suffix_cons (List.suffix_append us (u :: vs))
  exact ⟨a, c, r, n, ht, ho, hreads⟩

theorem Scan.carried (h : Scan limit breaks offset t ts) {u : Token} (hu : u ∈ ts) {f : Fragment}
    (hf : f ∈ u.form.fragments) :
    ∃ k, f.offset = offset + k ∧ Slice t k f.text ∧ f.text.length < t.length := by
  obtain ⟨a, c, r, n, rfl, ho, hreads⟩ := h.of_mem hu
  obtain ⟨k, hk, hr⟩ := hreads.carried hf
  refine ⟨a.length + 1 + k, by omega, (Slice.self_append a (c :: r)).tail.trans hr, ?_⟩
  have hle := hr.length_le
  rw [List.length_append, List.length_cons]
  omega

end Fragment

end BlueNexus
