import BlueNexus.Form.Meaning
import BlueNexus.Proofs.SignedNumerals
import BlueNexus.Proofs.SpacedTokens
import BlueNexus.Proofs.TokenScan

/-!
# Predicates as comparisons

Two operands with an operator between them are read as three tokens, and the predicate holds if the
comparison does (`predicate_compares_operands`). But a `>` in front of a letter begins an
assignment, and such a predicate never holds.
-/

namespace BlueNexus

open Form Fragment

/-- An operand of a comparison: the top of the stack, a variable, or a numeral within 64 bits. -/
inductive Operand where
  | top
  | letter (x : Name)
  | numeral (digits : Text) (hne : digits ≠ []) (hdigits : ∀ d ∈ digits, d.isDigit = true)
      (hle : Numeral.digitsValue digits ≤ Int64.maxValue.toInt)

namespace Operand

/-- The operand as it is written. -/
def text : Operand → Text
  | .top => ['~']
  | .letter x => [x.letter]
  | .numeral digits _ _ _ => digits

/-- The value of the operand. A sequence counts as its front element, and what is not there counts
as zero. -/
def value (s : State) : Operand → Int64
  | .top => s.stack.peek?.getD 0
  | .letter x =>
    match s.variables.get? x with
    | some (.scalar n) => n
    | some (.sequence (n :: _)) => n
    | some (.sequence []) => 0
    | none => 0
  | .numeral digits _ _ _ => .ofInt (Numeral.digitsValue digits)

def form : Operand → Form
  | .top => .glyph .peek
  | .letter x => .variable x
  | .numeral digits _ _ _ => .number (.ofInt (Numeral.digitsValue digits))

@[simp] theorem operand?_form (s : State) (o : Operand) :
    Condition.operand? s o.form = some (o.value s) := by
  cases o with
  | top | numeral => rfl
  | letter x =>
    simp only [form, value, Condition.operand?]
    cases s.variables.get? x with
    | none => rfl
    | some v =>
      cases v with
      | scalar n => rfl
      | sequence items => cases items <;> rfl

end Operand

namespace Comparison

def form : Comparison → Form
  | .less => .glyph .less
  | .greater => .glyph .greater
  | .equal => .glyph .equal
  | op => .comparison op

@[simp] theorem comparison?_form (op : Comparison) : Condition.comparison? op.form = some op := by
  cases op <;> rfl

end Comparison

namespace Fragment

/-- Without breaks, the text `t` in front of `u` is read as one form. -/
def ReadBefore (u t : Text) (form : Form) : Prop :=
  ∀ limit offset, tokens limit ⟨t ++ u, offset, []⟩ =
    (tokens limit ⟨u, offset + t.length, []⟩).map (⟨form, offset⟩ :: ·)

variable {u r : Text} {form : Form} {c : Char}

theorem ReadBefore.of_reads
    (h : ∀ limit offset, Reads limit [] offset c (r ++ u) (.ok ⟨some form, r.length⟩)) :
    ReadBefore u (c :: r) form := by
  intro limit offset
  have hoffset : offset + 1 + r.length = offset + (c :: r).length := by
    rw [List.length_cons]
    omega
  rw [List.cons_append, tokens_of_reads (h limit offset), List.drop_left, hoffset]

end Fragment

variable {u : Text}

theorem Operand.readBefore (o : Operand) (hu : ∀ c r, u = c :: r → c.isDigit = false) :
    ReadBefore u o.text o.form := by
  cases o with
  | top =>
    have hpair : u.head?.bind (Comparison.ofPair? '~') = none := by cases u <;> rfl
    exact .of_reads fun limit offset =>
      .glyph hpair (absurd · (by decide)) (absurd · (by decide)) rfl
  | letter x => exact .of_reads fun limit offset => .mention x _
  | numeral digits hne hdigits hle =>
    obtain ⟨c, r, rfl⟩ := List.exists_cons_of_ne_nil hne
    refine .of_reads fun limit offset => ?_
    -- The rest of the numeral is a run of digits, which stops where `u` begins.
    have hstop : digitRun [] (offset + 1 + r.length) u = 0 := by
      refine digitRun_eq_zero fun d r hr hd => ?_
      cases (hu d r hr).symm.trans hd
    have hrun : digitRun [] (offset + 1) (r ++ u) = r.length :=
      digitRun_append (fun d hd => hdigits d (List.mem_cons_of_mem c hd)) (by simp) hstop
    have hread := read_number limit (hdigits c List.mem_cons_self) (Numeral.signed?_of_le hne hle)
      hrun
    exact hread ▸ reads_read limit [] offset c (r ++ u)

/-- An operator is read as it is written, unless what follows makes another form of it. -/
theorem Comparison.readBefore (op : Comparison) (hu : u.head? ≠ some '=')
    (hname : op = .greater → Name.leading? u = none) : ReadBefore u op.symbol op.form := by
  have hpair : ∀ c, u.head?.bind (Comparison.ofPair? c) = none := by
    intro c
    refine Option.bind_eq_none_iff.2 fun d hd => ?_
    cases hop : Comparison.ofPair? c d with
    | none => rfl
    | some op =>
      obtain ⟨-, -, -, rfl⟩ := glyph_of_pair hop
      exact absurd hd hu
  cases op with
  | less =>
    exact .of_reads fun limit offset =>
      .glyph (hpair '<') (absurd · (by decide)) (absurd · (by decide)) rfl
  | greater =>
    exact .of_reads fun limit offset =>
      .glyph (hpair '>') (fun _ => hname rfl) (absurd · (by decide)) rfl
  | equal =>
    exact .of_reads fun limit offset =>
      .glyph (hpair '=') (absurd · (by decide)) (absurd · (by decide)) rfl
  | atMost | atLeast | notEqual => exact .of_reads fun limit offset => .comparison rfl

namespace Operand

private theorem head?_text_ne (o : Operand) : o.text.head? ≠ some '=' := by
  cases o with
  | top => decide
  | letter x => exact fun h => x.letter_ne rfl (Option.some.inj h)
  | numeral digits hne hdigits hle =>
    intro h
    cases hdigits '=' (List.mem_of_head? h)

private theorem leading?_text {o : Operand} (h : ∀ x, o ≠ .letter x) :
    Name.leading? o.text = none := by
  cases o with
  | top => rfl
  | letter x => exact absurd rfl (h x)
  | numeral digits hne hdigits hle =>
    cases hx : Name.leading? digits with
    | none => exact hx
    | some x =>
      obtain ⟨r, rfl⟩ := eq_of_leading? hx
      exact absurd (hdigits x.letter List.mem_cons_self) (not_isDigit_letter x)

@[simp] theorem tokens_text (o : Operand) (limit offset : Nat) :
    Fragment.tokens limit ⟨o.text, offset, []⟩ = .ok [⟨o.form, offset⟩] := by
  have h := o.readBefore (u := []) (by simp) limit offset
  rwa [List.append_nil] at h

end Operand

theorem Comparison.not_digit_of_symbol (op : Comparison) (u : Text) :
    ∀ c r, op.symbol ++ u = c :: r → c.isDigit = false := by
  intro c r h
  cases op <;> cases h <;> rfl

theorem tokens_comparison (limit offset : Nat) {l r : Operand} {op : Comparison}
    (h : op = .greater → ∀ x, r ≠ .letter x) :
    Fragment.tokens limit ⟨l.text ++ (op.symbol ++ r.text), offset, []⟩ =
      .ok [⟨l.form, offset⟩, ⟨op.form, offset + l.text.length⟩,
        ⟨r.form, offset + l.text.length + op.symbol.length⟩] := by
  rw [l.readBefore (op.not_digit_of_symbol r.text) limit offset,
    op.readBefore r.head?_text_ne (fun hop => Operand.leading?_text (h hop)), r.tokens_text]
  rfl

private theorem tokens_assignment (limit offset : Nat) (l : Operand) (x : Name) :
    Fragment.tokens limit ⟨l.text ++ ['>', x.letter], offset, []⟩ =
      .ok [⟨l.form, offset⟩, ⟨.expression x [], offset + l.text.length⟩] := by
  have hexpression : Fragment.tokens limit ⟨['>', x.letter], offset + l.text.length, []⟩ =
      .ok [⟨.expression x [], offset + l.text.length⟩] :=
    tokens_of_reads (.expression x (by simp))
  rw [l.readBefore (fun c r h => by cases h; rfl) limit offset, hexpression]
  rfl

/-- The predicate holds exactly if the comparison of the two values does, and there is no fault. The
one exception is a `>` in front of a letter, which with the letter is an expression: then the
predicate has two tokens and does not hold. -/
theorem predicate_compares_operands (limit offset : Nat) (s : State) (l r : Operand)
    (op : Comparison) :
    ((op = .greater → ∀ x, r ≠ .letter x) →
      Condition.holds limit s ⟨l.text ++ op.symbol ++ r.text, offset, []⟩ =
        .ok (op.holds (l.value s) (r.value s))) ∧
    ∀ x, op = .greater → r = .letter x →
      Fragment.tokens limit ⟨l.text ++ op.symbol ++ r.text, offset, []⟩ =
        .ok [⟨l.form, offset⟩, ⟨.expression x [], offset + l.text.length⟩] ∧
      Condition.holds limit s ⟨l.text ++ op.symbol ++ r.text, offset, []⟩ = .ok false := by
  rw [List.append_assoc]
  constructor
  · intro h
    simp only [Condition.holds, tokens_comparison limit offset h, Except.map, Condition.judge,
      Operand.operand?_form, Comparison.comparison?_form]
  · rintro x rfl rfl
    have htokens := tokens_assignment limit offset l x
    refine ⟨htokens, ?_⟩
    rw [Condition.holds]
    exact congrArg (Except.map (Condition.judge s)) htokens

/-- A numeral with a zero in front, compared with the top of the stack and with a letter. -/
theorem predicate_compares_operands_by_greater :
    let s : State := { stack := ⟨[5]⟩ }
    let digits : Text := ['0', '1', '2']
    let numeral : Operand := .numeral digits (by decide) (List.all_eq_true.1 rfl) (by decide)
    (∀ x, Operand.top ≠ .letter x) ∧ numeral.value s = 12 ∧ Operand.top.value s = 5 ∧
    Condition.holds 64 s ⟨digits ++ ['>', '~'], 3, []⟩ = .ok true ∧
    Fragment.tokens 64 ⟨digits ++ ['>', 'a'], 3, []⟩ =
      .ok [⟨.number 12, 3⟩, ⟨.expression ⟨'a', rfl⟩ [], 6⟩] ∧
    Condition.holds 64 s ⟨digits ++ ['>', 'a'], 3, []⟩ = .ok false := by
  intro s digits numeral
  have htop : ∀ x, Operand.top ≠ .letter x := by simp
  obtain ⟨hcompares, -⟩ := predicate_compares_operands 64 3 s numeral .top .greater
  obtain ⟨-, hassigns⟩ := predicate_compares_operands 64 3 s numeral (.letter ⟨'a', rfl⟩) .greater
  obtain ⟨htokens, hfails⟩ := hassigns ⟨'a', rfl⟩ rfl rfl
  exact ⟨htop, rfl, rfl, (hcompares fun _ => htop).trans rfl, htokens, hfails⟩

end BlueNexus
