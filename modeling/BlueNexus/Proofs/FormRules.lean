import BlueNexus.Form.Reading

/-!
# The rules of reading

`Reads` lists the ways in which a form is written, and the flaws for which none is read. Reading
follows these rules (`reads_read`), so what is true of each rule is true of whatever is read. No two
of them disagree, so what a rule says is what reading gives (`read_eq_of_reads`).
-/

namespace BlueNexus.Form

open Nesting

/-- What comes of reading at `offset` a text that starts with `c` and goes on in `r`. -/
inductive Reads (limit : Nat) (breaks : List Nat) (offset : Nat) :
    Char → Text → Except Fault Reading → Prop
  | number {c r v} (hc : c.isDigit = true)
      (hv : Numeral.signed? false (c :: r.take (digitRun breaks (offset + 1) r)) = some v) :
      Reads limit breaks offset c r (.ok ⟨some (.number v), digitRun breaks (offset + 1) r⟩)
  | badLiteral {c r} (hc : c.isDigit = true)
      (hv : Numeral.signed? false (c :: r.take (digitRun breaks (offset + 1) r)) = none) :
      Reads limit breaks offset c r (.error (.badLiteral offset))
  | string {r t n} (h : Quotation.read? r = some (t, n)) :
      Reads limit breaks offset '"' r (.ok ⟨some (.string t), n⟩)
  | openString {r} (h : Quotation.read? r = none) :
      Reads limit breaks offset '"' r (.error (.malformed offset))
  | debug (r) : Reads limit breaks offset '_' r (.ok (readDebug r))
  | rotate (x : Name) (r) :
      Reads limit breaks offset '.' ('$' :: x.letter :: r) (.ok ⟨some (.rotate x), 2⟩)
  | nameless {r} (h : Name.leading? r = none) :
      Reads limit breaks offset '.' ('$' :: r) (.ok ⟨none, 1⟩)
  | dot {r} (h : r.head? ≠ some '$') :
      Reads limit breaks offset '.' r (.ok ⟨some (.glyph .dot), 0⟩)
  | expression (x : Name) {r} (h : r.head? ≠ some '<') :
      Reads limit breaks offset '>' (x.letter :: r) (.ok (readExpression x r))
  | block (x : Name) {r n} (h : extent blocks limit 0 r = .closed n) :
      Reads limit breaks offset '>' (x.letter :: '<' :: r)
        (.ok ⟨some (.block x (.code breaks (offset + 3) (r.take n))), n + 3⟩)
  | openBlock (x : Name) {r} (h : extent blocks limit 0 r = .unclosed) :
      Reads limit breaks offset '>' (x.letter :: '<' :: r)
        (.ok ⟨some (.block x (.code breaks (offset + 3) r)), r.length + 2⟩)
  | deepBlock (x : Name) {r n} (h : extent blocks limit 0 r = .tooDeep n) :
      Reads limit breaks offset '>' (x.letter :: '<' :: r)
        (.error (.nestingTooDeep (offset + 3 + n) limit))
  | drop {c param r} (hc : c = '↡' ∨ c = '▼') (h : ']' ∉ param) :
      Reads limit breaks offset c ('[' :: (param ++ ']' :: r))
        (.ok ⟨some (.drop param), param.length + 2⟩)
  | openDrop {c r} (hc : c = '↡' ∨ c = '▼') (h : ']' ∉ r) :
      Reads limit breaks offset c ('[' :: r) (.error (.malformed offset))
  | headless {r} (h : Heading.ofText? r = none) :
      Reads limit breaks offset '?' r (.error (.malformed offset))
  | conditional {kind predicate r n} (hk : ']' ∉ kind) (hp : '}' ∉ predicate)
      (h : extent parentheses limit 0 r = .closed n) :
      Reads limit breaks offset '?'
        ('[' :: (kind ++ ']' :: '{' :: (predicate ++ '}' :: '(' :: r)))
        (.ok ⟨some (.conditional (.ofText kind) ⟨predicate, offset + 4 + kind.length, []⟩
          (.code breaks (offset + 6 + kind.length + predicate.length) (r.take n))),
          kind.length + predicate.length + n + 6⟩)
  | openConditional {kind predicate r} (hk : ']' ∉ kind) (hp : '}' ∉ predicate)
      (h : extent parentheses limit 0 r = .unclosed) :
      Reads limit breaks offset '?'
        ('[' :: (kind ++ ']' :: '{' :: (predicate ++ '}' :: '(' :: r)))
        (.error (.malformed offset))
  | deepConditional {kind predicate r n} (hk : ']' ∉ kind) (hp : '}' ∉ predicate)
      (h : extent parentheses limit 0 r = .tooDeep n) :
      Reads limit breaks offset '?'
        ('[' :: (kind ++ ']' :: '{' :: (predicate ++ '}' :: '(' :: r)))
        (.error (.nestingTooDeep (offset + 6 + kind.length + predicate.length + n) limit))
  | comparison {c d r op} (h : Comparison.ofPair? c d = some op) :
      Reads limit breaks offset c (d :: r) (.ok ⟨some (.comparison op), 1⟩)
  | glyph {c r g} (hpair : r.head?.bind (Comparison.ofPair? c) = none)
      (hblock : c = '>' → Name.leading? r = none) (hdrop : c = '▼' → r.head? ≠ some '[')
      (h : Glyph.ofChar? c = some g) :
      Reads limit breaks offset c r (.ok ⟨some (.glyph g), 0⟩)
  | mention (x : Name) (r) :
      Reads limit breaks offset x.letter r (.ok ⟨some (.variable x), 0⟩)
  | unknown {c r} (hstart : c ∉ ['?', '"', '_', '.']) (hdigit : ¬c.isDigit = true)
      (hdrop : c = '↡' → r.head? ≠ some '[') (hglyph : Glyph.ofChar? c = none)
      (hname : Name.ofChar? c = none) :
      Reads limit breaks offset c r (.error (.unknownCommand offset c))

variable {limit offset : Nat} {breaks : List Nat} {c : Char} {r : Text}

theorem eq_of_behind? {t : Text} (h : behind? c t = some r) : t = c :: r := by
  cases t with
  | nil => cases h
  | cons a t =>
    by_cases ha : a = c
    · simp only [behind?, if_pos ha, Option.some.injEq] at h
      rw [ha, h]
    · simp [behind?, ha] at h

theorem eq_of_leading? {x : Name} (h : Name.leading? r = some x) :
    ∃ r', r = x.letter :: r' := by
  cases r with
  | nil => cases h
  | cons a r => exact ⟨r, by rw [Name.ofChar?_eq_some_iff.1 h]⟩

private theorem not_mem_of_takeTo? {close : Char} {t : Text} (h : takeTo? close t = none) :
    close ∉ t := by
  induction t with
  | nil => simp
  | cons a t ih =>
    rw [takeTo?.eq_2] at h
    by_cases ha : a = close
    · simp [ha] at h
    · rw [if_neg ha, Option.map_eq_none_iff] at h
      exact List.not_mem_cons_of_ne_of_not_mem (Ne.symm ha) (ih h)

theorem eq_of_heading {t : Text} {h : Heading} (ht : Heading.ofText? t = some h) :
    t = '[' :: (h.kind ++ ']' :: '{' :: (h.predicate ++ '}' :: '(' :: h.rest)) ∧
      ']' ∉ h.kind ∧ '}' ∉ h.predicate := by
  simp only [Heading.ofText?, Option.bind_eq_bind, Option.bind_eq_some_iff] at ht
  obtain ⟨t₁, h₁, ⟨kind, t₂⟩, h₂, t₃, h₃, ⟨predicate, t₄⟩, h₄, t₅, h₅, he⟩ := ht
  cases he
  obtain ⟨rfl, hk⟩ := eq_of_takeTo? h₂
  obtain ⟨rfl, hp⟩ := eq_of_takeTo? h₄
  have hparen : t₄ = '(' :: t₅ := eq_of_behind? h₅
  have hbrace : t₂ = '{' :: (predicate ++ '}' :: t₄) := eq_of_behind? h₃
  rw [eq_of_behind? h₁, hbrace, hparen]
  exact ⟨rfl, hk, hp⟩

private theorem reads_number (hc : c.isDigit = true) :
    Reads limit breaks offset c r (readNumber breaks offset c r) := by
  unfold readNumber
  cases hv : Numeral.signed? false (c :: r.take (digitRun breaks (offset + 1) r)) with
  | some v => simpa [hv] using Reads.number hc hv
  | none => simpa [hv] using Reads.badLiteral hc hv

private theorem reads_string : Reads limit breaks offset '"' r (readString offset r) := by
  unfold readString
  cases h : Quotation.read? r with
  | some s => exact .string h
  | none => exact .openString h

theorem reads_drop (hc : c = '↡' ∨ c = '▼') :
    Reads limit breaks offset c ('[' :: r) (readDrop offset r) := by
  unfold readDrop
  cases h : takeTo? ']' r with
  | some s =>
    obtain ⟨hr, hn⟩ := eq_of_takeTo? h
    rw [hr]
    exact .drop hc hn
  | none => exact .openDrop hc (not_mem_of_takeTo? h)

private theorem reads_dot : Reads limit breaks offset '.' r (.ok (readDot r)) := by
  unfold readDot
  split
  · cases h : Name.leading? _ with
    | some x =>
      obtain ⟨r', rfl⟩ := eq_of_leading? h
      exact .rotate x r'
    | none => exact .nameless h
  · next h =>
    refine .dot fun hr => ?_
    obtain ⟨r', hr'⟩ := List.head?_eq_some_iff.1 hr
    exact h r' hr'

theorem reads_block (x : Name) :
    Reads limit breaks offset '>' (x.letter :: '<' :: r) (readBlock limit breaks offset x r) := by
  unfold readBlock
  cases h : extent blocks limit 0 r with
  | closed n => exact .block x h
  | unclosed => exact .openBlock x h
  | tooDeep n => exact .deepBlock x h

private theorem reads_conditional :
    Reads limit breaks offset '?' r (readConditional limit breaks offset r) := by
  unfold readConditional
  cases hh : Heading.ofText? r with
  | none => exact .headless hh
  | some h =>
    obtain ⟨hr, hk, hp⟩ := eq_of_heading hh
    rw [hr]
    cases he : extent parentheses limit 0 h.rest with
    | closed n => simpa [he] using Reads.conditional hk hp he
    | unclosed => simpa [he] using Reads.openConditional hk hp he
    | tooDeep n => simpa [he] using Reads.deepConditional hk hp he

private theorem reads_mark (hstart : c ∉ ['?', '"', '_', '.']) (hdigit : ¬c.isDigit = true)
    (hblock : c = '>' → Name.leading? r = none)
    (hdrop : c = '↡' ∨ c = '▼' → r.head? ≠ some '[') :
    Reads limit breaks offset c r (readMark offset c r) := by
  unfold readMark
  split
  · next op _ _ h =>
    cases r with
    | nil => cases h
    | cons d r => exact .comparison h
  · next g _ h hg => exact .glyph h hblock (fun h => hdrop (.inr h)) hg
  · next x h hg hx =>
    rw [← Name.ofChar?_eq_some_iff.1 hx]
    exact .mention x r
  · next h hg hx => exact .unknown hstart hdigit (fun h => hdrop (.inl h)) hg hx

/-- Reading follows the rules. -/
theorem reads_read (limit : Nat) (breaks : List Nat) (offset : Nat) (c : Char) (r : Text) :
    Reads limit breaks offset c r (read limit breaks offset c r) := by
  unfold read
  split
  · next h => rw [h]; exact reads_conditional
  split
  · next h => rw [h]; exact reads_string
  split
  · next h => exact reads_number h
  split
  · next h => rw [h]; exact .debug r
  split
  · next h => rw [h]; exact reads_dot
  split
  · next x a r' _ _ _ _ _ hx =>
    obtain ⟨s, hs⟩ := eq_of_leading? hx
    cases hs
    exact reads_block x
  · next x a r' hr _ _ _ _ _ hx =>
    obtain ⟨s, hs⟩ := eq_of_leading? hx
    cases hs
    refine .expression x fun h => ?_
    obtain ⟨s, hs⟩ := List.head?_eq_some_iff.1 h
    exact hr s hs
  · exact reads_drop (.inl rfl)
  · exact reads_drop (.inr rfl)
  · next c r _ _ _ h₁ h₂ hquestion hquote hdigit hdebug hdot h₃ h₄ =>
    refine reads_mark (by simp [hquestion, hquote, hdebug, hdot]) hdigit ?_ ?_
    · intro hc
      cases hx : Name.leading? r with
      | none => rfl
      | some x =>
        obtain ⟨s, hs⟩ := eq_of_leading? hx
        exact absurd hs (h₄ x x.letter s hc hx)
    · intro hc h
      obtain ⟨s, hs⟩ := List.head?_eq_some_iff.1 h
      exact hc.elim (fun hc => h₁ s hc hs) fun hc => h₂ s hc hs

private theorem takeTo?_eq_none {close : Char} {t : Text} (h : close ∉ t) :
    takeTo? close t = none := by
  induction t with
  | nil => rfl
  | cons a t ih =>
    rw [takeTo?.eq_2, if_neg (List.ne_of_not_mem_cons h).symm, ih (List.not_mem_of_not_mem_cons h)]
    rfl

theorem heading_of_parts {kind predicate rest : Text} (hk : ']' ∉ kind) (hp : '}' ∉ predicate) :
    Heading.ofText? ('[' :: (kind ++ ']' :: '{' :: (predicate ++ '}' :: '(' :: rest))) =
      some ⟨kind, predicate, rest⟩ := by
  simp [Heading.ofText?, behind?, takeTo?_append hk, takeTo?_append hp]

/-- A mark is no letter, no digit, and begins none of the longer forms. -/
theorem start_of_glyph {g : Glyph} (h : Glyph.ofChar? c = some g) :
    c.isAlpha = false ∧ c.isDigit = false ∧ c ∉ ['?', '"', '_', '.', '↡'] := by
  rw [← Glyph.toChar_of_ofChar? h]
  cases g <;> first | decide | exact absurd (List.mem_of_find?_eq_some h) (by decide)

theorem glyph_of_pair {d : Char} {op : Comparison} (h : Comparison.ofPair? c d = some op) :
    ∃ g, Glyph.ofChar? c = some g ∧ c ≠ '▼' ∧ d = '=' := by
  unfold Comparison.ofPair? at h
  split at h
  · exact ⟨.greater, rfl, by decide, rfl⟩
  · exact ⟨.less, rfl, by decide, rfl⟩
  · exact ⟨.bang, rfl, by decide, rfl⟩
  · cases h

theorem pair_eq_none (h : Glyph.ofChar? c = none) (r : Text) :
    r.head?.bind (Comparison.ofPair? c) = none := by
  refine Option.bind_eq_none_iff.2 fun d _ => ?_
  cases hop : Comparison.ofPair? c d with
  | none => rfl
  | some op =>
    obtain ⟨g, hg, -⟩ := glyph_of_pair hop
    cases h.symm.trans hg

@[simp] theorem glyph_eq_none (x : Name) : Glyph.ofChar? x.letter = none := by
  cases h : Glyph.ofChar? x.letter with
  | none => rfl
  | some g => cases x.isLetter.symm.trans (start_of_glyph h).1

@[simp] theorem not_isDigit_letter (x : Name) : ¬x.letter.isDigit = true := by
  intro hd
  have hx : (x.letter.isUpper || x.letter.isLower) = true := x.isLetter
  have hle : x.letter.toNat ≤ 57 := decide_eq_true_iff.1 (Bool.and_eq_true_iff.1 hd).2
  rcases Bool.or_eq_true_iff.1 hx with hx | hx
  · have hge : 65 ≤ x.letter.toNat := (decide_eq_true_iff.1 hx).1
    omega
  · have hge : 97 ≤ x.letter.toNat := decide_eq_true_iff.1 (Bool.and_eq_true_iff.1 hx).1
    omega

private theorem readDot_eq_dot (h : r.head? ≠ some '$') : readDot r = ⟨some (.glyph .dot), 0⟩ := by
  unfold readDot
  split
  · exact absurd rfl h
  · rfl

theorem read_eq_readMark (hstart : c ∉ ['?', '"', '_', '.']) (hdigit : ¬c.isDigit = true)
    (hblock : c = '>' → Name.leading? r = none)
    (hdrop : c = '↡' ∨ c = '▼' → r.head? ≠ some '[') :
    read limit breaks offset c r = readMark offset c r := by
  simp only [List.mem_cons, List.not_mem_nil, or_false, not_or] at hstart
  obtain ⟨hquestion, hquote, hdebug, hdot⟩ := hstart
  simp only [read, hquestion, hquote, hdigit, hdebug, hdot, if_false, Bool.false_eq_true]
  split
  · next h => cases (hblock rfl).symm.trans h
  · next h => cases (hblock rfl).symm.trans h
  · exact absurd rfl (hdrop (.inl rfl))
  · exact absurd rfl (hdrop (.inr rfl))
  · rfl

theorem read_eq_readNumber (hc : c.isDigit = true) :
    read limit breaks offset c r = readNumber breaks offset c r := by
  have hquestion : c ≠ '?' := by
    rintro rfl
    cases hc
  have hquote : c ≠ '"' := by
    rintro rfl
    cases hc
  simp only [read, if_neg hquestion, if_neg hquote, if_pos hc]

private theorem read_expression (x : Name) (h : r.head? ≠ some '<') :
    read limit breaks offset '>' (x.letter :: r) = .ok (readExpression x r) := by
  cases r with
  | nil => simp [read, Name.leading?]
  | cons d r =>
    have hd : d ≠ '<' := fun hd => h (congrArg some hd)
    simp [read, Name.leading?, hd]

/-- Only one rule applies. -/
theorem read_eq_of_reads {x : Except Fault Reading} (h : Reads limit breaks offset c r x) :
    read limit breaks offset c r = x := by
  cases h with
  | number hc hv | badLiteral hc hv => rw [read_eq_readNumber hc, readNumber, hv]
  | string h | openString h => simp [read, readString, h]
  | debug => rfl
  | rotate x r => simp [read, readDot, Name.leading?]
  | nameless h => simp [read, readDot, h]
  | dot h => simp [read, readDot_eq_dot h]
  | expression x h => exact read_expression x h
  | block x h | openBlock x h | deepBlock x h => simp [read, Name.leading?, readBlock, h]
  | drop hc h => rcases hc with rfl | rfl <;> simp [read, readDrop, takeTo?_append h]
  | openDrop hc h => rcases hc with rfl | rfl <;> simp [read, readDrop, takeTo?_eq_none h]
  | headless h => simp [read, readConditional, h]
  | conditional hk hp h | openConditional hk hp h | deepConditional hk hp h =>
    simp [read, readConditional, heading_of_parts hk hp, h]
  | comparison h =>
    obtain ⟨g, hg, hdiscard, rfl⟩ := glyph_of_pair h
    obtain ⟨-, hdigit, hstart⟩ := start_of_glyph hg
    rw [read_eq_readMark (by simp_all) (by simp [hdigit]) (fun _ => rfl) (by simp)]
    simp [readMark, h]
  | glyph hpair hblock hdrop hg =>
    obtain ⟨-, hdigit, hstart⟩ := start_of_glyph hg
    rw [read_eq_readMark (by simp_all) (by simp [hdigit]) hblock (by simp_all)]
    simp [readMark, hpair, hg]
  | mention x r =>
    have hne : ∀ d : Char, d.isAlpha = false → x.letter ≠ d := fun _ => x.letter_ne
    rw [read_eq_readMark (by simp [hne]) (not_isDigit_letter x) (by simp [hne]) (by simp [hne])]
    simp [readMark, glyph_eq_none x, pair_eq_none (glyph_eq_none x)]
  | unknown hstart hdigit hdrop hglyph hname =>
    have hblock : c ≠ '>' := by
      rintro rfl
      cases hglyph
    have hdiscard : c ≠ '▼' := by
      rintro rfl
      cases hglyph
    rw [read_eq_readMark hstart hdigit (absurd · hblock) (by simpa [hdiscard] using hdrop)]
    simp [readMark, hglyph, hname, pair_eq_none hglyph]

end BlueNexus.Form
