import BlueNexus.Proofs.SourceBreaks
import BlueNexus.Proofs.TokenScan

/-!
# Fragments within fragments

What a token carries is read only when it is executed, and what is read from it carries fragments in
turn. However deep a fragment lies, it stands in the source at its offset and within the characters
that its token takes. Code has the breaks of the source that lie in it. A predicate has none, and
neither has anything that is read from one (`embedded_fragment_is_slice`).
-/

namespace BlueNexus

open Text

/-- The fragment of a form that is read but never executed. -/
def Form.predicate? : Form → Option Fragment
  | .conditional _ predicate _ => some predicate
  | _ => none

@[simp] theorem Form.mem_fragments_iff {form : Form} {f : Fragment} :
    f ∈ form.fragments ↔ f ∈ form.code ∨ form.predicate? = some f := by
  cases form <;> simp [fragments, code, predicate?, or_comm, eq_comm]

namespace Fragment

/-- The token is read where it stands in the fragment, and takes `n` characters after its first. -/
def Takes (limit : Nat) (f : Fragment) (t : Token) (n : Nat) : Prop :=
  ∃ a c r, f.text = a ++ c :: r ∧ t.offset = f.offset + a.length ∧
    Form.read limit f.breaks t.offset c r = .ok ⟨some t.form, n⟩

/-- The fragments that come from a source by reading tokens, and whether one has come through a
predicate. -/
inductive Embedded (limit : Nat) (source : Text) : (quoted : Bool) → Fragment → Prop
  | whole : Embedded limit source false (.ofSource source)
  | code {quoted f ts t g} (h : Embedded limit source quoted f) (hts : f.tokens limit = .ok ts)
      (ht : t ∈ ts) (hg : g ∈ t.form.code) : Embedded limit source quoted g
  | predicate {quoted f ts t g} (h : Embedded limit source quoted f)
      (hts : f.tokens limit = .ok ts) (ht : t ∈ ts) (hg : t.form.predicate? = some g) :
      Embedded limit source true g

variable {limit n : Nat} {f g : Fragment} {t : Token} {ts : List Token} {source : Text}
  {quoted : Bool}

theorem exists_takes (hts : f.tokens limit = .ok ts) (ht : t ∈ ts) : ∃ n, f.Takes limit t n := by
  obtain ⟨a, c, r, n, hf, ho, hreads⟩ := (scan_of_tokens hts).of_mem ht
  exact ⟨n, a, c, r, hf, ho, Form.read_eq_of_reads hreads⟩

theorem Takes.reads (h : f.Takes limit t n) :
    ∃ a c r, f.text = a ++ c :: r ∧ t.offset = f.offset + a.length ∧
      Form.Reads limit f.breaks t.offset c r (.ok ⟨some t.form, n⟩) := by
  obtain ⟨a, c, r, hf, ho, hread⟩ := h
  exact ⟨a, c, r, hf, ho, hread ▸ Form.reads_read limit f.breaks t.offset c r⟩

theorem Takes.within (h : f.Takes limit t n) :
    f.offset ≤ t.offset ∧ t.offset + 1 + n ≤ f.offset + f.text.length := by
  obtain ⟨a, c, r, hf, ho, hreads⟩ := h.reads
  have hn : n ≤ r.length := hreads.extent_le
  rw [hf, List.length_append, List.length_cons]
  omega

/-- What a token carries lies behind its first character, within those that it takes. -/
theorem Takes.carried_within (h : f.Takes limit t n) (hg : g ∈ t.form.fragments) :
    t.offset < g.offset ∧ g.offset + g.text.length ≤ t.offset + 1 + n := by
  obtain ⟨a, c, r, -, -, hreads⟩ := h.reads
  obtain ⟨k, hk, -⟩ := hreads.carried hg
  exact ⟨by omega, hreads.carried_end_le hg⟩

theorem Takes.code_eq (h : f.Takes limit t n) (hg : g ∈ t.form.code) :
    g = .code f.breaks g.offset g.text := by
  obtain ⟨a, c, r, -, -, hreads⟩ := h.reads
  exact hreads.code_eq hg

theorem Takes.predicate_breaks (h : f.Takes limit t n) (hg : t.form.predicate? = some g) :
    g.breaks = [] := by
  obtain ⟨a, c, r, -, -, hreads⟩ := h.reads
  generalize t.form = form at hg hreads
  cases hreads with
  | conditional =>
    cases hg
    rfl
  | _ => cases hg

/-- The breaks in a part of a stretch of code are those of the whole that lie in the part. -/
theorem code_code {breaks : List Nat} {o o' : Nat} {a b : Text} (hle : o ≤ o')
    (hend : o' + b.length ≤ o + a.length) :
    code (code breaks o a).breaks o' b = code breaks o' b := by
  have hin : ∀ k ∈ breaks, ((o' ≤ k && k < o' + b.length) && (o ≤ k && k < o + a.length)) =
      (o' ≤ k && k < o' + b.length) := by
    intro k _
    rw [Bool.and_eq_left_iff_imp]
    simp only [Bool.and_eq_true, decide_eq_true_eq]
    omega
  simp only [code, List.filter_filter]
  rw [List.filter_congr hin]

theorem slice_carried {whole : Text} (hf : Slice whole f.offset f.text)
    (hts : f.tokens limit = .ok ts) (ht : t ∈ ts) (hg : g ∈ t.form.fragments) :
    Slice whole g.offset g.text := by
  obtain ⟨k, hk, hslice, -⟩ := (scan_of_tokens hts).carried ht hg
  exact hk ▸ hf.trans hslice

theorem Embedded.slice (h : Embedded limit source quoted f) :
    Slice (ofSource source).text f.offset f.text := by
  induction h with
  | whole => exact List.prefix_rfl
  | code h hts ht hg ih => exact slice_carried ih hts ht (Form.mem_fragments_iff.2 (.inl hg))
  | predicate h hts ht hg ih => exact slice_carried ih hts ht (Form.mem_fragments_iff.2 (.inr hg))

/-- An embedded fragment is a stretch of code, of a source without breaks inside a predicate. -/
theorem Embedded.eq_code (h : Embedded limit source quoted f) :
    f = .code (bif quoted then [] else (ofSource source).breaks) f.offset f.text := by
  induction h with
  | whole => exact (code_ofSource source).symm
  | code h hts ht hg ih =>
    obtain ⟨n, htakes⟩ := exists_takes hts ht
    obtain ⟨hle, hend⟩ := htakes.within
    obtain ⟨hlt, hcarried⟩ := htakes.carried_within (Form.mem_fragments_iff.2 (.inl hg))
    rw [htakes.code_eq hg, ih]
    exact code_code (by omega) (by omega)
  | @predicate quoted f ts t g h hts ht hg ih =>
    obtain ⟨n, htakes⟩ := exists_takes hts ht
    have hbreaks := htakes.predicate_breaks hg
    obtain ⟨text, offset, breaks⟩ := g
    cases hbreaks
    rfl

end Fragment

open Fragment

/-- What a token carries, however deep the fragment lies from which the token is read, stands in the
source at its offset, and is a part of the characters that the token takes without the first of
them. Its breaks are those of the source that lie in it, but for a predicate and all within one,
where there are none. -/
theorem embedded_fragment_is_slice (limit : Nat) (source : Text) {quoted : Bool} {f g : Fragment}
    {ts : List Token} {t : Token} (hf : Embedded limit source quoted f)
    (hts : f.tokens limit = .ok ts) (ht : t ∈ ts) (hg : g ∈ t.form.fragments) :
    ((ofSource source).text.drop g.offset).take g.text.length = g.text ∧
    (∃ n, f.Takes limit t n ∧
      f.offset ≤ t.offset ∧ t.offset + 1 + n ≤ f.offset + f.text.length ∧
      t.offset < g.offset ∧ g.offset + g.text.length ≤ t.offset + 1 + n) ∧
    (g ∈ t.form.code → quoted = false →
      g.breaks = (ofSource source).breaks.filter
        fun b => g.offset ≤ b && b < g.offset + g.text.length) ∧
    (t.form.predicate? = some g ∨ quoted = true → g.breaks = []) := by
  obtain ⟨n, htakes⟩ := exists_takes hts ht
  obtain ⟨hle, hend⟩ := htakes.within
  obtain ⟨hlt, hcarried⟩ := htakes.carried_within hg
  refine ⟨?_, ⟨n, htakes, hle, hend, hlt, hcarried⟩, fun hcode hquoted => ?_, fun h => ?_⟩
  · exact (List.prefix_iff_eq_take.1 (slice_carried hf.slice hts ht hg)).symm
  · subst hquoted
    exact congrArg Fragment.breaks (hf.code hts ht hcode).eq_code
  · rcases h with hpredicate | hquoted
    · exact htakes.predicate_breaks hpredicate
    · subst hquoted
      have hembedded : Embedded limit source true g :=
        (Form.mem_fragments_iff.1 hg).elim (hf.code hts ht) (hf.predicate hts ht)
      exact congrArg Fragment.breaks hembedded.eq_code

theorem embedded_fragment_is_slice_in_command :
    let source : Text := ['1', ' ', '2', '?', '[', '!', '?', ']', '{', 'x', '=', '1', ' ', '0', '}',
      '(', '>', 'a', '<', '3', ' ', '4', '<', ')']
    let predicate : Fragment := ⟨['x', '=', '1', '0'], 8, []⟩
    let command : Fragment := ⟨['>', 'a', '<', '3', '4', '<'], 14, [18]⟩
    let body : Fragment := ⟨['3', '4'], 17, [18]⟩
    let conditional : Token := ⟨.conditional .once predicate command, 2⟩
    let block : Token := ⟨.block ⟨'a', rfl⟩ body, 14⟩
    (ofSource source).breaks = [1, 11, 18] ∧
    (ofSource source).tokens 64 = .ok [⟨.number 1, 0⟩, ⟨.number 2, 1⟩, conditional] ∧
    predicate.breaks = [] ∧
    Embedded 64 source false command ∧ command.tokens 64 = .ok [block] ∧
    ((ofSource source).text.drop 17).take 2 = body.text ∧
    (∃ n, command.Takes 64 block n ∧ 14 < body.offset ∧ body.offset + 2 ≤ 14 + 1 + n) ∧
    body.breaks = (ofSource source).breaks.filter fun b => 17 ≤ b && b < 17 + 2 := by
  intro source predicate command body conditional block
  have hwhole : (ofSource source).tokens 64 = .ok [⟨.number 1, 0⟩, ⟨.number 2, 1⟩, conditional] :=
    rfl
  have hcommand : command.tokens 64 = .ok [block] := rfl
  have hlast : conditional ∈ [⟨.number 1, 0⟩, ⟨.number 2, 1⟩, conditional] := by simp
  have hembedded : Embedded 64 source false command :=
    .code .whole hwhole hlast List.mem_cons_self
  obtain ⟨-, -, -, hnone⟩ := embedded_fragment_is_slice 64 source .whole hwhole hlast
    (g := predicate) List.mem_cons_self
  obtain ⟨htext, ⟨n, htakes, -, -, hlt, hend⟩, hbreaks, -⟩ := embedded_fragment_is_slice 64 source
    hembedded hcommand (g := body) List.mem_cons_self List.mem_cons_self
  exact ⟨rfl, hwhole, hnone (.inl rfl), hembedded, hcommand, htext, ⟨n, htakes, hlt, hend⟩,
    hbreaks List.mem_cons_self rfl⟩

end BlueNexus
