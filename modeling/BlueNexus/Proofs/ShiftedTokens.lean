import BlueNexus.Form.Reading

/-!
# Reading a fragment elsewhere

The tokens of a fragment that is moved on in its source are moved on with it, and so is its fault.
A larger limit changes nothing, except where the smaller one is the fault (`tokens_shift`).
-/

namespace BlueNexus

/-- The result is cut off by its limit only if both limits are one. -/
def Fits {α : Type} (limit limit' : Nat) (x : Except Fault α) : Prop :=
  ∀ o l, x = .error (.nestingTooDeep o l) → limit = limit'

/-- The result changed by `f`, or its fault moved on by `d`. -/
def shiftResult {α β : Type} (d : Nat) (f : α → β) : Except Fault α → Except Fault β
  | .ok a => .ok (f a)
  | .error e => .error (e.shift d)

namespace Nesting

/-- A larger limit leaves an extent as it is unless the smaller one cuts it off. -/
theorem extent_of_le (p : Pairing) {limit limit' : Nat} (inner : Nat) (t : Text)
    (hle : limit ≤ limit') (hfits : ∀ n, extent p limit inner t = .tooDeep n → limit = limit') :
    extent p limit' inner t = extent p limit inner t := by
  by_cases heq : limit = limit'
  · rw [heq]
  have h : ∀ n, extent p limit inner t ≠ .tooDeep n := fun n hn => heq (hfits n hn)
  clear hfits
  induction t generalizing inner with
  | nil => rfl
  | cons c r ih =>
    have later : ∀ {i : Nat}, (∀ n, (extent p limit i r).later ≠ .tooDeep n) →
        (extent p limit' i r).later = (extent p limit i r).later := by
      intro i hi
      rw [ih i fun n hn => hi (n + 1) (by rw [hn]; rfl)]
    unfold extent at h ⊢
    by_cases ho : p.opens c r = true
    · simp only [if_pos ho] at h ⊢
      by_cases hl : limit ≤ inner + 1
      · rw [if_pos hl] at h
        exact absurd rfl (h 0)
      · have hl' : ¬limit' ≤ inner + 1 := by omega
        rw [if_neg hl] at h ⊢
        rw [if_neg hl']
        exact later h
    · simp only [if_neg ho] at h ⊢
      by_cases hc : c = p.close
      · simp only [if_pos hc] at h ⊢
        cases inner with
        | zero => rfl
        | succ i => exact later h
      · simp only [if_neg hc] at h ⊢
        exact later h

end Nesting

namespace Fragment

@[simp] theorem code_shift (breaks : List Nat) (offset d : Nat) (text : Text) :
    (code breaks offset text).shift d = code (breaks.map (· + d)) (offset + d) text := by
  simp only [shift, code, List.filter_map]
  congr 2
  apply List.filter_congr
  intro b _
  simp only [Function.comp]
  congr 1
  · simp
  · simp only [decide_eq_decide]
    omega

end Fragment

namespace Form

variable {limit limit' offset : Nat} {breaks : List Nat} {c : Char} {r : Text}

/-- The reading moved on by `d`. -/
def Reading.shift (d : Nat) (x : Reading) : Reading := ⟨x.form.map (Form.shift d), x.extent⟩

variable (d : Nat)

@[simp] private theorem digitRun_shift (breaks : List Nat) (offset : Nat) (t : Text) :
    digitRun (breaks.map (· + d)) (offset + d) t = digitRun breaks offset t := by
  induction t generalizing offset with
  | nil => rfl
  | cons c r ih =>
    have hb : (breaks.map (· + d)).contains (offset + d) = breaks.contains offset := by
      rw [Bool.eq_iff_iff]
      simp
    have hr := ih (offset + 1)
    rw [show offset + 1 + d = offset + d + 1 by omega] at hr
    rw [digitRun, digitRun, hb, hr]

@[simp] private theorem readNumber_shift :
    readNumber (breaks.map (· + d)) (offset + d) c r =
      shiftResult d (Reading.shift d) (readNumber breaks offset c r) := by
  have hrun := digitRun_shift d breaks (offset + 1) r
  rw [show offset + 1 + d = offset + d + 1 by omega] at hrun
  unfold readNumber
  simp only [hrun]
  cases Numeral.signed? false (c :: r.take (digitRun breaks (offset + 1) r)) <;> rfl

@[simp] private theorem readString_shift :
    readString (offset + d) r = shiftResult d (Reading.shift d) (readString offset r) := by
  unfold readString
  cases Quotation.read? r <;> rfl

@[simp] theorem readDrop_shift :
    readDrop (offset + d) r = shiftResult d (Reading.shift d) (readDrop offset r) := by
  unfold readDrop
  cases takeTo? ']' r <;> rfl

@[simp] private theorem readMark_shift :
    readMark (offset + d) c r = shiftResult d (Reading.shift d) (readMark offset c r) := by
  unfold readMark
  cases r.head?.bind (Comparison.ofPair? c) with
  | some op => rfl
  | none =>
    cases Glyph.ofChar? c with
    | some g => rfl
    | none => cases Name.ofChar? c <;> rfl

@[simp] private theorem readDot_shift : (readDot r).shift d = readDot r := by
  unfold readDot
  split
  · cases Name.leading? _ <;> rfl
  · rfl

@[simp] private theorem readBlock_shift (x : Name) (hle : limit ≤ limit')
    (hfits : Fits limit limit' (readBlock limit breaks offset x r)) :
    readBlock limit' (breaks.map (· + d)) (offset + d) x r =
      shiftResult d (Reading.shift d) (readBlock limit breaks offset x r) := by
  have hext := Nesting.extent_of_le Nesting.blocks 0 r hle <|
    fun n hn => hfits (offset + 3 + n) limit (by simp [readBlock, hn])
  have hstart : offset + d + 3 = offset + 3 + d := by omega
  unfold readBlock
  rw [hext, hstart]
  cases he : Nesting.extent Nesting.blocks limit 0 r with
  | closed n | unclosed =>
    simp [shiftResult, Reading.shift, shift]
  | tooDeep n =>
    have heq := hfits (offset + 3 + n) limit (by simp [readBlock, he])
    simp only [shiftResult, Fault.shift, Except.error.injEq, Fault.nestingTooDeep.injEq]
    omega

@[simp] private theorem readConditional_shift (hle : limit ≤ limit')
    (hfits : Fits limit limit' (readConditional limit breaks offset r)) :
    readConditional limit' (breaks.map (· + d)) (offset + d) r =
      shiftResult d (Reading.shift d) (readConditional limit breaks offset r) := by
  unfold readConditional at hfits ⊢
  cases hh : Heading.ofText? r with
  | none => rfl
  | some h =>
    simp only [hh] at hfits ⊢
    have hext := Nesting.extent_of_le Nesting.parentheses 0 h.rest hle <|
      fun n hn => hfits _ limit (by rw [hn])
    have hstart : offset + d + 6 + h.kind.length + h.predicate.length =
        offset + 6 + h.kind.length + h.predicate.length + d := by omega
    rw [hext, hstart]
    cases he : Nesting.extent Nesting.parentheses limit 0 h.rest with
    | closed n =>
      have hpredicate : offset + d + 4 + h.kind.length = offset + 4 + h.kind.length + d := by omega
      simp only [shiftResult, Reading.shift, shift, Fragment.code_shift, Option.map_some,
        hpredicate]
      rfl
    | unclosed => rfl
    | tooDeep n =>
      have heq := hfits _ limit (by rw [he])
      simp only [shiftResult, Fault.shift, Except.error.injEq, Fault.nestingTooDeep.injEq]
      omega

theorem read_shift (hle : limit ≤ limit')
    (hfits : Fits limit limit' (read limit breaks offset c r)) :
    read limit' (breaks.map (· + d)) (offset + d) c r =
      shiftResult d (Reading.shift d) (read limit breaks offset c r) := by
  unfold read at hfits ⊢
  by_cases h₁ : c = '?'
  · simp only [if_pos h₁] at hfits ⊢
    exact readConditional_shift d hle hfits
  by_cases h₂ : c = '"'
  · simp only [if_neg h₁, if_pos h₂]
    exact readString_shift d
  by_cases h₃ : c.isDigit = true
  · simp only [if_neg h₁, if_neg h₂, if_pos h₃]
    exact readNumber_shift d
  by_cases h₄ : c = '_'
  · simp only [if_neg h₁, if_neg h₂, if_neg h₃, if_pos h₄]
    rfl
  by_cases h₅ : c = '.'
  · simp only [if_neg h₁, if_neg h₂, if_neg h₃, if_neg h₄, if_pos h₅]
    simp only [shiftResult, readDot_shift]
  simp only [if_neg h₁, if_neg h₂, if_neg h₃, if_neg h₄, if_neg h₅] at hfits ⊢
  revert hfits
  split <;> intro hfits
  · exact readBlock_shift d _ hle hfits
  · rfl
  · exact readDrop_shift d
  · exact readDrop_shift d
  · exact readMark_shift d

end Form

namespace Fragment

variable {limit limit' : Nat} (d : Nat)

private theorem tokensFrom_shift (hle : limit ≤ limit') {breaks : List Nat} {skip offset : Nat}
    {t : Text} (hfits : Fits limit limit' (tokensFrom limit breaks skip offset t)) :
    tokensFrom limit' (breaks.map (· + d)) skip (offset + d) t =
      shiftResult d (List.map (Token.shift d)) (tokensFrom limit breaks skip offset t) := by
  induction t generalizing skip offset with
  | nil =>
    cases skip <;> rfl
  | cons c r ih =>
    have hstart : offset + d + 1 = offset + 1 + d := by omega
    cases skip with
    | succ skip =>
      unfold tokensFrom at hfits ⊢
      rw [hstart]
      exact ih hfits
    | zero =>
      have hread : Fits limit limit' (Form.read limit breaks offset c r) :=
        fun o l hr => hfits o l (by simp [tokensFrom, hr])
      unfold tokensFrom at hfits ⊢
      rw [Form.read_shift d hle hread]
      cases hr : Form.read limit breaks offset c r with
      | error e => rfl
      | ok x =>
        rw [hr] at hfits
        have hrest : Fits limit limit' (tokensFrom limit breaks x.extent (offset + 1) r) :=
          fun o l ht => hfits o l (by simp [ht])
        have hts := ih hrest
        rw [← hstart] at hts
        simp only [shiftResult, Form.Reading.shift, hts]
        cases tokensFrom limit breaks x.extent (offset + 1) r with
        | error e => rfl
        | ok ts =>
          obtain ⟨form, extent⟩ := x
          cases form <;> rfl

theorem tokens_shift (hle : limit ≤ limit') {f : Fragment}
    (hfits : Fits limit limit' (f.tokens limit)) :
    (f.shift d).tokens limit' = shiftResult d (List.map (Token.shift d)) (f.tokens limit) :=
  tokensFrom_shift d hle hfits

end Fragment

end BlueNexus
