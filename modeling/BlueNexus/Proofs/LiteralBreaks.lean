import BlueNexus.Proofs.ScanStretches
import BlueNexus.Proofs.SignedNumerals
import Mathlib.Data.List.SplitBy
import Mathlib.Data.List.TakeWhile

/-!
# What breaks do to the tokens

A break parts the digits of a number in front of the one that stands at it. It has no other effect
but that code within the text carries it on. So the tokens with breaks are those without, each
number parted into as many as its digits have pieces (`breaks_part_numbers_only`).
-/

namespace BlueNexus

namespace Form

/-- The form as it is read where there are breaks, if it is no number. -/
def withBreaks (breaks : List Nat) : Form → Form
  | .block x body => .block x (.code breaks body.offset body.text)
  | .conditional kind predicate command =>
    .conditional kind predicate (.code breaks command.offset command.text)
  | form => form

def Reading.withBreaks (breaks : List Nat) (x : Reading) : Reading :=
  ⟨x.form.map (Form.withBreaks breaks), x.extent⟩

end Form

namespace Fragment

/-- The digits from `offset` on, each with its own offset, parted in front of those at a break. -/
def pieces (breaks : List Nat) (offset : Nat) (digits : Text) : List (List (Char × Nat)) :=
  (digits.zipIdx offset).splitBy fun _ d => !breaks.contains d.2

/-- The digits of a piece without their offsets. -/
def pieceText (piece : List (Char × Nat)) : Text := piece.map Prod.fst

/-- The number that a piece is, at the offset of its first digit. -/
def number? (piece : List (Char × Nat)) : Option Token :=
  piece.head?.map fun d => ⟨.number (.ofInt (Numeral.digitsValue (pieceText piece))), d.2⟩

/-- The digits that stand in a fragment from `offset` on. -/
def digitsAt (f : Fragment) (offset : Nat) : Text :=
  (f.text.drop (offset - f.offset)).takeWhile Char.isDigit

end Fragment

open Fragment

/-- The tokens that a token of the fragment becomes where there are breaks. -/
def Token.parted (breaks : List Nat) (f : Fragment) (t : Token) : List Token :=
  match t.form with
  | .number _ => (pieces breaks t.offset (f.digitsAt t.offset)).filterMap number?
  | form => [⟨form.withBreaks breaks, t.offset⟩]

namespace Form

variable {limit offset : Nat} {breaks : List Nat} {c : Char} {r : Text}

theorem Reads.withBreaks {x : Except Fault Reading} (h : Reads limit [] offset c r x)
    (hc : ¬c.isDigit = true) (breaks : List Nat) :
    Reads limit breaks offset c r (x.map (Reading.withBreaks breaks)) := by
  cases h with
  | number hd hv | badLiteral hd hv => exact absurd hd hc
  | string h => exact .string h
  | openString h => exact .openString h
  | debug r => exact .debug r
  | rotate x r => exact .rotate x r
  | nameless h => exact .nameless h
  | dot h => exact .dot h
  | expression x h => exact .expression x h
  | block x h => exact .block x h
  | openBlock x h => exact .openBlock x h
  | deepBlock x h => exact .deepBlock x h
  | drop hc h => exact .drop hc h
  | openDrop hc h => exact .openDrop hc h
  | headless h => exact .headless h
  | conditional hk hp h => exact .conditional hk hp h
  | openConditional hk hp h => exact .openConditional hk hp h
  | deepConditional hk hp h => exact .deepConditional hk hp h
  | comparison h => exact .comparison h
  | glyph hpair hblock hdrop h => exact .glyph hpair hblock hdrop h
  | mention x r => exact .mention x r
  | unknown hstart hdigit hdrop hglyph hname => exact .unknown hstart hdigit hdrop hglyph hname

theorem Reads.of_isDigit {x : Except Fault Reading} (h : Reads limit breaks offset c r x)
    (hc : c.isDigit = true) :
    (∃ v n, x = .ok ⟨some (.number v), n⟩) ∨ x = .error (.badLiteral offset) := by
  rw [← read_eq_of_reads h, read_eq_readNumber hc, readNumber]
  split
  · exact .inl ⟨_, _, rfl⟩
  · exact .inr rfl

@[simp] theorem digitRun_nil (offset : Nat) (t : Text) :
    digitRun [] offset t = (t.takeWhile Char.isDigit).length := by
  induction t generalizing offset with
  | nil => rfl
  | cons c r ih =>
    rw [digitRun, List.takeWhile_cons, ih]
    cases c.isDigit <;> simp

theorem digitRun_append_left (breaks : List Nat) (offset : Nat) (d : Text) {u : Text}
    (hu : ∀ c ∈ u.head?, c.isDigit = false) :
    digitRun breaks offset (d ++ u) = digitRun breaks offset d := by
  induction d generalizing offset with
  | nil =>
    cases u with
    | nil => rfl
    | cons c u => simp [digitRun, hu c rfl]
  | cons c d ih => simp only [List.cons_append, digitRun, ih]

theorem read_digits {u : Text} (hc : c.isDigit = true) (hu : ∀ d ∈ u.head?, d.isDigit = false)
    (hv : Numeral.digitsValue (c :: r) ≤ Int64.maxValue.toInt) (limit : Nat) (breaks : List Nat)
    (offset : Nat) :
    read limit breaks offset c (r ++ u) =
      .ok ⟨some (.number
        (.ofInt (Numeral.digitsValue (c :: r.take (digitRun breaks (offset + 1) r))))),
        digitRun breaks (offset + 1) r⟩ := by
  have hrun := digitRun_append_left breaks (offset + 1) r hu
  have hle := digitRun_le_length breaks (offset + 1) r
  generalize digitRun breaks (offset + 1) r = k at hrun hle
  have htake : (r ++ u).take k = r.take k := List.take_append_of_le_length hle
  have hmono := Numeral.digitsValue_mono ((List.prefix_cons_inj c).2 (List.take_prefix k r))
  have hvalue := Numeral.signed?_of_le (List.cons_ne_nil c (r.take k)) (by omega)
  simp only [read_eq_readNumber hc, readNumber, hrun, htake, hvalue]

end Form

namespace Fragment

variable {limit p q offset : Nat} {breaks : List Nat} {c : Char} {r d u text : Text}

private theorem not_mem_of_digitRun {a : Char × Nat}
    (ha : a ∈ (r.take (Form.digitRun breaks offset r)).zipIdx offset) : a.2 ∉ breaks := by
  induction r generalizing offset with
  | nil => simp at ha
  | cons c r ih =>
    rw [Form.digitRun] at ha
    split at ha
    · next hc =>
      rw [List.take_succ_cons, List.zipIdx_cons] at ha
      rcases List.mem_cons.1 ha with rfl | ha
      · simpa using (Bool.and_eq_true_iff.1 hc).2
      · exact ih ha
    · simp at ha

theorem mem_of_digitRun {r' : Text} (hd : ∀ c ∈ r, c.isDigit = true)
    (h : r.drop (Form.digitRun breaks offset r) = c :: r') :
    offset + Form.digitRun breaks offset r ∈ breaks := by
  induction r generalizing offset with
  | nil => simp at h
  | cons b r ih =>
    obtain ⟨hb, hd⟩ := List.forall_mem_cons.1 hd
    rw [Form.digitRun] at h ⊢
    split at h
    · next hrun =>
      rw [if_pos hrun]
      have hmem := ih hd h
      rwa [show offset + (Form.digitRun breaks (offset + 1) r + 1) =
        offset + 1 + Form.digitRun breaks (offset + 1) r by omega]
    · next hrun =>
      rw [if_neg hrun]
      simpa [hb] using hrun

theorem pieces_cons (hd : ∀ d ∈ r, d.isDigit = true) (breaks : List Nat) (offset : Nat) (c : Char) :
    pieces breaks offset (c :: r) =
      ((c :: r.take (Form.digitRun breaks (offset + 1) r)).zipIdx offset) ::
        pieces breaks (offset + 1 + Form.digitRun breaks (offset + 1) r)
          (r.drop (Form.digitRun breaks (offset + 1) r)) := by
  have hle := Form.digitRun_le_length breaks (offset + 1) r
  generalize hn : Form.digitRun breaks (offset + 1) r = n at hle
  have hsplit : (c :: r).zipIdx offset =
      (c :: r.take n).zipIdx offset ++ (r.drop n).zipIdx (offset + 1 + n) := by
    have hlength : offset + (c :: r.take n).length = offset + 1 + n := by
      rw [List.length_cons, List.length_take]
      omega
    rw [← hlength, ← List.zipIdx_append, List.cons_append, List.take_append_drop]
  have hchain : ((c :: r.take n).zipIdx offset).IsChain fun _ d => !breaks.contains d.2 := by
    rw [List.zipIdx_cons]
    have hfree : ∀ d ∈ (r.take n).zipIdx (offset + 1), (!breaks.contains d.2) = true := by
      subst hn
      intro d hd
      simpa using not_mem_of_digitRun hd
    refine List.Pairwise.isChain (List.pairwise_cons.2 ⟨hfree, ?_⟩)
    exact List.pairwise_of_forall_mem_list fun _ _ d hd => hfree d hd
  rw [pieces, hsplit, List.splitBy_append, List.splitBy_of_isChain (by simp) hchain]
  · rfl
  · intro a _ b hb
    cases hdrop : r.drop n with
    | nil => simp [hdrop] at hb
    | cons d r' =>
      rw [hdrop, List.zipIdx_cons] at hb
      cases hb
      subst hn
      simpa using mem_of_digitRun hd hdrop

private theorem pieceText_zipIdx (d : Text) (offset : Nat) : pieceText (d.zipIdx offset) = d :=
  List.zipIdx_map_fst offset d

private theorem number?_zipIdx (c : Char) (r : Text) (offset : Nat) :
    number? ((c :: r).zipIdx offset) =
      some ⟨.number (.ofInt (Numeral.digitsValue (c :: r))), offset⟩ := by
  rw [number?, pieceText_zipIdx]
  rfl

private theorem isInfix_pieceText {piece : List (Char × Nat)} (h : piece ∈ pieces breaks offset d) :
    pieceText piece <:+: d := by
  have hinfix := (List.infix_of_mem_flatten h).map Prod.fst
  rw [pieces, List.flatten_splitBy] at hinfix
  rwa [List.zipIdx_map_fst] at hinfix

/-- Digits are read piece by piece. -/
theorem tokensFrom_digits (hd : ∀ c ∈ d, c.isDigit = true)
    (hu : ∀ c ∈ u.head?, c.isDigit = false)
    (hv : Numeral.digitsValue d ≤ Int64.maxValue.toInt) (limit : Nat) (breaks : List Nat)
    (offset : Nat) :
    tokensFrom limit breaks 0 offset (d ++ u) =
      (tokensFrom limit breaks 0 (offset + d.length) u).map
        ((pieces breaks offset d).filterMap number? ++ ·) := by
  -- Every piece takes a digit, and no piece is worth more than all of the digits.
  induction hn : d.length using Nat.strongRecOn generalizing d offset with
  | ind n ih =>
    cases d with
    | nil =>
      subst hn
      cases htokens : tokensFrom limit breaks 0 offset u <;>
        simp [pieces, Except.map, htokens]
    | cons c r =>
      obtain ⟨hc, hr⟩ := List.forall_mem_cons.1 hd
      have hle := Form.digitRun_le_length breaks (offset + 1) r
      have hread := Form.read_digits hc hu hv limit breaks offset
      have hpieces := pieces_cons hr breaks offset c
      generalize Form.digitRun breaks (offset + 1) r = k at hle hread hpieces
      have hlast : Numeral.digitsValue (r.drop k) ≤ Int64.maxValue.toInt := by
        have hsuffix := (List.drop_suffix k r).trans (List.suffix_cons c r)
        have hmono := Numeral.digitsValue_le_of_infix hsuffix.isInfix
        omega
      have hdrop : (r ++ u).drop k = r.drop k ++ u := List.drop_append_of_le_length hle
      have hlength : offset + 1 + k + (r.drop k).length = offset + n := by
        rw [← hn, List.length_drop, List.length_cons]
        omega
      have hlt : (r.drop k).length < n := by
        rw [← hn, List.length_drop, List.length_cons]
        omega
      have hrest := ih _ hlt (fun d hd => hr d (List.mem_of_mem_drop hd)) hlast
        (offset + 1 + k) rfl
      rw [List.cons_append, tokensFrom_of_ok hread, hdrop, hrest, hlength, hpieces,
        List.filterMap_cons_some (number?_zipIdx c (r.take k) offset)]
      cases tokensFrom limit breaks 0 (offset + n) u <;> rfl

theorem digitsValue_of_reads {v : Int64} {n : Nat}
    (h : Form.Reads limit [] offset c r (.ok ⟨some (.number v), n⟩)) :
    n = (r.takeWhile Char.isDigit).length ∧
      v.toInt = Numeral.digitsValue ((c :: r).takeWhile Char.isDigit) := by
  cases h with
  | number hc hv =>
    have htake : r.take (Form.digitRun [] (offset + 1) r) = r.takeWhile Char.isDigit := by
      rw [Form.digitRun_nil]
      exact (List.prefix_iff_eq_take.1 (List.takeWhile_prefix _)).symm
    rw [htake] at hv
    rw [List.takeWhile_cons_of_pos hc]
    exact ⟨Form.digitRun_nil _ _, (Numeral.signed?_eq_some_iff (List.cons_ne_nil _ _)).1 hv⟩

/-- A number is read piece by piece where there are breaks. -/
theorem tokensFrom_number {v : Int64} {n : Nat}
    (h : Form.Reads limit [] offset c r (.ok ⟨some (.number v), n⟩)) (breaks : List Nat) :
    tokensFrom limit breaks 0 offset (c :: r) =
      (tokensFrom limit breaks 0 (offset + 1 + n) (r.drop n)).map
        ((pieces breaks offset ((c :: r).takeWhile Char.isDigit)).filterMap number? ++ ·) := by
  obtain ⟨hn, hv⟩ := digitsValue_of_reads h
  have hc : c.isDigit = true := by cases h; assumption
  have htail : (c :: r).dropWhile Char.isDigit = r.drop n := by
    rw [List.dropWhile_cons_of_pos hc]
    calc r.dropWhile Char.isDigit
        = (r.takeWhile Char.isDigit ++ r.dropWhile Char.isDigit).drop n := by
          rw [hn, List.drop_left]
      _ = r.drop n := by rw [List.takeWhile_append_dropWhile]
  have hlength : ((c :: r).takeWhile Char.isDigit).length = 1 + n := by
    rw [List.takeWhile_cons_of_pos hc, List.length_cons, hn]
    omega
  have hhead : ∀ d ∈ ((c :: r).dropWhile Char.isDigit).head?, d.isDigit = false := by
    intro d hd
    have hnot := List.head?_dropWhile_not Char.isDigit (c :: r)
    rw [Option.mem_def.1 hd] at hnot
    exact hnot
  have hdigits := tokensFrom_digits (fun d hd => List.mem_takeWhile_imp hd) hhead (hv ▸ v.toInt_le)
    limit breaks offset
  rw [List.takeWhile_append_dropWhile, hlength, htail, ← Nat.add_assoc] at hdigits
  exact hdigits

/-- But for a number, what is read at a place is read with breaks as it is without. -/
theorem readAt?_withBreaks {x : Except Fault Form.Reading} (hr : text.drop p = c :: r)
    (hc : ¬c.isDigit = true) (h : (⟨text, offset, []⟩ : Fragment).readAt? limit p = some x)
    (breaks : List Nat) : (⟨text, offset, breaks⟩ : Fragment).readAt? limit p =
      some (x.map (Form.Reading.withBreaks breaks)) := by
  simp only [readAt?, hr] at h ⊢
  cases h
  have hreads := Form.reads_read limit [] (offset + p) c r
  exact congrArg some (Form.read_eq_of_reads (hreads.withBreaks hc breaks))

/-- A form is read with breaks as it is without, but for a number, which is parted. -/
theorem tokens_behind_parted {x : Form.Reading}
    (h : (⟨text, offset, []⟩ : Fragment).readAt? limit p = some (.ok x)) (breaks : List Nat) :
    ((⟨text, offset, breaks⟩ : Fragment).behind p).tokens limit =
      (((⟨text, offset, breaks⟩ : Fragment).behind (p + 1 + x.extent)).tokens limit).map
        ((x.form.map fun form => ⟨form, offset + p⟩).toList.flatMap
          (Token.parted breaks ⟨text, offset, []⟩) ++ ·) := by
  obtain ⟨c, r, hr, hreads⟩ := reads_of_readAt? h
  have hr' : (⟨text, offset, breaks⟩ : Fragment).text.drop p = c :: r := hr
  by_cases hc : c.isDigit = true
  · obtain ⟨v, n, rfl⟩ : ∃ v n, x = ⟨some (.number v), n⟩ := by
      simpa using hreads.of_isDigit hc
    have hdigits : digitsAt ⟨text, offset, []⟩ (offset + p) = (c :: r).takeWhile Char.isDigit := by
      rw [digitsAt, Nat.add_sub_cancel_left, hr]
    have hparted : (Option.map (fun form => (⟨form, offset + p⟩ : Token))
        (some (.number v))).toList.flatMap (Token.parted breaks ⟨text, offset, []⟩) =
          (pieces breaks (offset + p) ((c :: r).takeWhile Char.isDigit)).filterMap number? := by
      rw [← hdigits]
      exact List.append_nil _
    have hoffset : offset + (p + 1 + n) = offset + p + 1 + n := by omega
    simp only [tokens, behind, hr', drop_behind hr', hoffset, hparted]
    exact tokensFrom_number hreads breaks
  · have hread : (⟨text, offset, breaks⟩ : Fragment).readAt? limit p =
        some (.ok (x.withBreaks breaks)) := readAt?_withBreaks hr hc h breaks
    have hparted : (x.form.map fun form => (⟨form, offset + p⟩ : Token)).toList.flatMap
        (Token.parted breaks ⟨text, offset, []⟩) =
          ((x.withBreaks breaks).form.map fun form => ⟨form, offset + p⟩).toList := by
      cases hreads with
      | number hd hv => exact absurd hd hc
      | _ => rfl
    rw [tokens_behind_of_ok hread, hparted]
    rfl

theorem Passes.tokens_parted {ss : List Stretch}
    (h : Passes limit ⟨text, offset, []⟩ p ss q) (breaks : List Nat) :
    ((⟨text, offset, breaks⟩ : Fragment).behind p).tokens limit =
      (((⟨text, offset, breaks⟩ : Fragment).behind q).tokens limit).map
        ((ss.filterMap (·.token? ⟨text, offset, []⟩)).flatMap
          (Token.parted breaks ⟨text, offset, []⟩) ++ ·) := by
  induction h with
  | here p => cases ((⟨text, offset, breaks⟩ : Fragment).behind p).tokens limit <;> rfl
  | @step p x ss q hx h ih =>
    rw [tokens_behind_parted hx, ih]
    cases ((⟨text, offset, breaks⟩ : Fragment).behind q).tokens limit with
    | error e => rfl
    | ok ts => cases hform : x.form <;> simp [Except.map, Stretch.token?]

theorem toInt_eq_of_mem {f : Fragment} {ts : List Token} {t : Token} {v : Int64}
    (h : f.tokens limit = .ok ts) (hf : f.breaks = []) (ht : t ∈ ts) (hv : t.form = .number v) :
    v.toInt = Numeral.digitsValue (f.digitsAt t.offset) := by
  obtain ⟨ss, hpasses, rfl⟩ := exists_passes_of_tokens h
  obtain ⟨s, hs, hst⟩ := List.mem_filterMap.1 ht
  obtain ⟨form, hform, rfl⟩ := Option.map_eq_some_iff.1 hst
  obtain rfl : form = .number v := hv
  obtain ⟨⟨_, n⟩, hx, he⟩ := hpasses.of_mem hs
  obtain rfl := (congrArg Stretch.form he).symm.trans hform
  obtain ⟨c, r, hr, hreads⟩ := reads_of_readAt? hx
  rw [hf] at hreads
  rw [digitsAt, Nat.add_sub_cancel_left, hr]
  exact (digitsValue_of_reads hreads).2

theorem tokens_parted {ts : List Token}
    (h : (⟨text, offset, []⟩ : Fragment).tokens limit = .ok ts) (breaks : List Nat) :
    (⟨text, offset, breaks⟩ : Fragment).tokens limit =
      .ok (ts.flatMap (Token.parted breaks ⟨text, offset, []⟩)) := by
  obtain ⟨ss, hpasses, rfl⟩ := exists_passes_of_tokens h
  have hparted := hpasses.tokens_parted breaks
  have hend : ((⟨text, offset, breaks⟩ : Fragment).behind text.length).tokens limit = .ok [] :=
    tokens_behind_of_none (readAt?_eq_none_iff.2 (Nat.le_refl _))
  rw [behind_zero, hend] at hparted
  rw [hparted]
  exact congrArg Except.ok (List.append_nil _)

private theorem error_kept {e : Fault} (h : (⟨text, offset, []⟩ : Fragment).tokens limit = .error e)
    (he : ∀ o, e ≠ .badLiteral o) (breaks : List Nat) :
    (⟨text, offset, breaks⟩ : Fragment).tokens limit = .error e := by
  obtain ⟨ss, p, hpasses, -, hflaw⟩ := exists_passes_of_error h
  obtain ⟨c, r, hr, hreads⟩ := reads_of_readAt? hflaw
  have hc : ¬c.isDigit = true := fun hc => he (offset + p) (by simpa using hreads.of_isDigit hc)
  have hparted := hpasses.tokens_parted breaks
  rw [behind_zero, tokens_behind_of_error (readAt?_withBreaks hr hc hflaw breaks)] at hparted
  exact hparted

theorem pieces_within {f : Fragment} {ts : List Token} {t : Token} {v : Int64}
    (h : f.tokens limit = .ok ts) (hf : f.breaks = []) (ht : t ∈ ts) (hv : t.form = .number v)
    {piece : List (Char × Nat)} (hpiece : piece ∈ pieces breaks t.offset (f.digitsAt t.offset)) :
    Numeral.digitsValue (pieceText piece) ≤ Int64.maxValue.toInt := by
  have hvalue := toInt_eq_of_mem h hf ht hv
  have hle := Numeral.digitsValue_le_of_infix (isInfix_pieceText hpiece)
  have hmax := v.toInt_le
  omega

end Fragment

open Fragment

/-- With breaks a fragment has the tokens that it has without, but each number is parted at the
breaks within its digits, and what is code carries those that lie in it. No piece of a number is
beyond 64 bits. A flawed fragment has the same fault, unless this is a number beyond 64 bits. -/
theorem breaks_part_numbers_only (limit : Nat) (text : Text) (offset : Nat) (breaks : List Nat) :
    let f : Fragment := ⟨text, offset, []⟩
    let broken : Fragment := ⟨text, offset, breaks⟩
    (∀ ts, f.tokens limit = .ok ts →
      broken.tokens limit = .ok (ts.flatMap (Token.parted breaks f)) ∧
      ∀ t ∈ ts, ∀ v, t.form = .number v →
        v.toInt = Numeral.digitsValue (f.digitsAt t.offset) ∧
        ∀ piece ∈ pieces breaks t.offset (f.digitsAt t.offset),
          Numeral.digitsValue (pieceText piece) ≤ Int64.maxValue.toInt) ∧
    ∀ e, f.tokens limit = .error e → (∀ o, e ≠ .badLiteral o) → broken.tokens limit = .error e := by
  intro f broken
  refine ⟨fun ts h => ⟨tokens_parted h breaks, fun t ht v hv => ⟨?_, ?_⟩⟩,
    fun e h he => error_kept h he breaks⟩
  · exact toInt_eq_of_mem h rfl ht hv
  · exact fun piece hpiece => pieces_within h rfl ht hv hpiece

theorem breaks_part_numbers_only_around_quotation :
    let text : Text := ['1', '2', '3', '"', '4', '5', '"', '>', 'a', '<', '6', '7', '<']
    let flawed : Text := ['1', '2', '"', '3']
    let ts : List Token :=
      [⟨.number 123, 2⟩, ⟨.string ['4', '5'], 5⟩, ⟨.block ⟨'a', rfl⟩ ⟨['6', '7'], 12, []⟩, 9⟩]
    let us : List Token :=
      [⟨.number 1, 2⟩, ⟨.number 23, 3⟩, ⟨.string ['4', '5'], 5⟩,
        ⟨.block ⟨'a', rfl⟩ ⟨['6', '7'], 12, [13]⟩, 9⟩]
    (⟨text, 2, []⟩ : Fragment).tokens 64 = .ok ts ∧
      (⟨text, 2, [3, 7, 13]⟩ : Fragment).tokens 64 = .ok us ∧
      (123 : Int64).toInt = Numeral.digitsValue ['1', '2', '3'] ∧
      (⟨flawed, 2, []⟩ : Fragment).tokens 64 = .error (.malformed 4) ∧
      (⟨flawed, 2, [3]⟩ : Fragment).tokens 64 = .error (.malformed 4) := by
  intro text flawed ts us
  obtain ⟨hok, -⟩ := breaks_part_numbers_only 64 text 2 [3, 7, 13]
  obtain ⟨-, herror⟩ := breaks_part_numbers_only 64 flawed 2 [3]
  obtain ⟨htokens, hnumbers⟩ := hok ts rfl
  obtain ⟨hvalue, -⟩ := hnumbers ⟨.number 123, 2⟩ List.mem_cons_self 123 rfl
  exact ⟨rfl, htokens, hvalue, rfl, herror (.malformed 4) rfl (by simp)⟩

end BlueNexus
