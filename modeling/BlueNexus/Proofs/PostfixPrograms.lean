import BlueNexus.Host.Recorder
import BlueNexus.Proofs.FloorDivision
import BlueNexus.Proofs.PushMarkers
import BlueNexus.Proofs.SessionRuns
import BlueNexus.Proofs.SignedNumerals
import BlueNexus.Proofs.SpacedTokens

/-!
# Arithmetic expressions as programs

An expression written in postfix order, with separators between its elements, is a program that
pushes the value of the expression and does nothing else (`written_expression_computes`).
-/

namespace BlueNexus

inductive Operator where
  | add | subtract | multiply | divide | modulo
deriving DecidableEq

namespace Operator

def symbol : Operator → Char
  | .add => '+'
  | .subtract => '-'
  | .multiply => '×'
  | .divide => '÷'
  | .modulo => '%'

/-- The result on the integers, taken modulo `2 ^ 64`. The quotient is rounded down, and the
remainder is that of the quotient rounded toward zero. Neither exists for a zero divisor. -/
def result? (op : Operator) (a b : Int64) : Option Int64 :=
  match op with
  | .add => some (.ofInt (a.toInt + b.toInt))
  | .subtract => some (.ofInt (a.toInt - b.toInt))
  | .multiply => some (.ofInt (a.toInt * b.toInt))
  | .divide => if b = 0 then none else some (.ofInt (a.toInt.fdiv b.toInt))
  | .modulo => if b = 0 then none else some (.ofInt (a.toInt.tmod b.toInt))

def glyph : Operator → Glyph
  | .add => .add
  | .subtract => .subtract
  | .multiply => .multiply
  | .divide => .divide
  | .modulo => .modulo

@[simp] theorem toChar_glyph (op : Operator) : op.glyph.toChar = op.symbol := by
  cases op <;> rfl

@[simp] theorem arithmetic?_glyph (op : Operator) :
    Stack.arithmetic? op.glyph = some op.result? := by
  cases op <;> apply congrArg some <;> funext a b
  case add => simp [result?, Int64.ofInt_add]
  case subtract => simp [result?, Int64.ofInt_sub]
  case multiply => simp [result?, Int64.ofInt_mul]
  case divide =>
    by_cases hb : b = 0
    · simp [Division.floor?, result?, hb]
    · simp [Division.floor?_eq hb, result?, hb]
  case modulo =>
    by_cases hb : b = 0
    · simp [Division.remainder?, result?, hb]
    · simp [Division.remainder?_eq hb, result?, hb]

private theorem operate_glyph {op : Operator} {a b c : Int64} (h : op.result? a b = some c)
    (s : Stack) : ((s.push a).push b).operate op.glyph = s.push c := by
  have hoperate (s : Stack) : s.operate op.glyph =
      ((Stack.arithmetic? op.glyph).bind s.binary?).getD s := by
    cases op <;> rfl
  rw [hoperate, arithmetic?_glyph, Option.bind_some]
  simp [Stack.binary?, Stack.push, h]

end Operator

/-- Arithmetic on literals, which have no sign. -/
inductive Expression where
  | literal (n : Int64) (hn : 0 ≤ n)
  | apply (op : Operator) (left right : Expression)

namespace Expression

/-- The value, if no divisor has the value zero. -/
def value? : Expression → Option Int64
  | .literal n _ => some n
  | .apply op left right => do op.result? (← left.value?) (← right.value?)

/-- No divisor has the value zero. -/
def NoZeroDivisor : Expression → Prop
  | .literal _ _ => True
  | .apply op left right =>
    left.NoZeroDivisor ∧ right.NoZeroDivisor ∧
      (op = .divide ∨ op = .modulo → right.value? ≠ some 0)

private theorem NoZeroDivisor.exists_value {e : Expression} (h : e.NoZeroDivisor) :
    ∃ v, e.value? = some v := by
  induction e with
  | literal n hn => exact ⟨_, rfl⟩
  | apply op left right hl hr =>
    obtain ⟨hleft, hright, hdivisor⟩ := h
    obtain ⟨a, ha⟩ := hl hleft
    obtain ⟨b, hb⟩ := hr hright
    rw [hb] at hdivisor
    cases op <;> simp_all [value?, Operator.result?]

/-- The elements of the expression in postfix order, where a literal may begin with zeros. -/
inductive Written : Expression → List Text → Prop
  | literal (n : Int64) (hn : 0 ≤ n) (zeros : Nat) :
    Written (.literal n hn) [List.replicate zeros '0' ++ Nat.toDigits 10 n.toInt.toNat]
  | apply {op : Operator} {left right : Expression} {es fs : List Text} (hl : Written left es)
      (hr : Written right fs) : Written (.apply op left right) (es ++ fs ++ [[op.symbol]])

/-- The forms of the elements. -/
def forms : Expression → List Form
  | .literal n _ => [.number n]
  | .apply op left right => left.forms ++ right.forms ++ [.glyph op.glyph]

private theorem digitsValue_literal (n zeros : Nat) :
    Numeral.digitsValue (List.replicate zeros '0' ++ Nat.toDigits 10 n) = n := by
  have hzeros : Nat.ofDigitChars 10 (List.replicate zeros '0') 0 = 0 := by
    induction zeros with
    | zero => rfl
    | succ zeros ih =>
      rw [List.replicate_succ, Nat.ofDigitChars_cons]
      exact ih
  rw [Numeral.digitsValue, Nat.ofDigitChars_append, hzeros]
  exact Nat.ofDigitChars_toDigits (by decide) (by decide)

private theorem element_literal {n : Int64} (hn : 0 ≤ n) (zeros : Nat) :
    Element (List.replicate zeros '0' ++ Nat.toDigits 10 n.toInt.toNat) (.number n) := by
  have hdigits : ∀ d ∈ List.replicate zeros '0' ++ Nat.toDigits 10 n.toInt.toNat,
      d.isDigit = true := by
    intro d hd
    rcases List.mem_append.1 hd with hd | hd
    · rw [List.eq_of_mem_replicate hd]
      rfl
    · exact Nat.isDigit_of_mem_toDigits (by decide) (by decide) hd
  have hvalue := digitsValue_literal n.toInt.toNat zeros
  have hne : List.replicate zeros '0' ++ Nat.toDigits 10 n.toInt.toNat ≠ [] := by
    simp [Nat.toDigits_ne_nil]
  generalize List.replicate zeros '0' ++ Nat.toDigits 10 n.toInt.toNat = digits at *
  cases digits with
  | nil => exact absurd rfl hne
  | cons c r =>
    refine .number hdigits ?_
    have hcast : (n.toInt.toNat : Int) = n.toInt :=
      Int.toNat_of_nonneg (Int64.le_iff_toInt_le.1 hn)
    rw [Numeral.signed?_eq_some_iff hne, hvalue, hcast]

theorem Written.elements {e : Expression} {es : List Text} (h : e.Written es) :
    List.Forall₂ Element es e.forms := by
  induction h with
  | literal n hn zeros => exact .cons (element_literal hn zeros) .nil
  | @apply op left right es fs _ _ hl hr =>
    have hop : Element [op.symbol] (.glyph op.glyph) := by
      rw [← op.toChar_glyph]
      exact .operator (by simp)
    exact List.rel_append (List.rel_append hl hr) (.cons hop .nil)

private theorem push_not_mem_forms (e : Expression) : Form.glyph .push ∉ e.forms := by
  induction e with
  | literal n hn => simp [forms]
  | apply op left right hl hr => cases op <;> simp [forms, hl, hr, Operator.glyph]

private theorem fuse_of_forms (e : Expression) {ts : List Token} (h : ts.map (·.form) = e.forms) :
    PushMarker.fuse ts = ts := by
  apply PushMarker.fuse_eq_self
  intro t ht hpush
  apply e.push_not_mem_forms
  rw [← h, ← hpush]
  exact List.mem_map_of_mem ht

section Execution

variable {σ : Type} [Host σ] {limit depth : Nat} {rest : List Task} {s : State} {host : σ}
  {calls : List Call}

private theorem next_number {t : Token} {n : Int64} (ht : t.form = .number n)
    (hs : s.halted = false) (us : List Token) :
    Session.Next limit ⟨⟨.code depth (t :: us) :: rest, s⟩, host, calls⟩
      ⟨⟨.code depth us :: rest, s.push n⟩, host, calls⟩ := by
  simp [Session.Next, Session.step, Session.move, Machine.step, Machine.perform, hs, ht]

private theorem next_operator {t : Token} {op : Operator} {a b c : Int64}
    (ht : t.form = .glyph op.glyph) (hs : s.halted = false) (hc : op.result? a b = some c)
    (us : List Token) :
    Session.Next limit ⟨⟨.code depth (t :: us) :: rest, (s.push a).push b⟩, host, calls⟩
      ⟨⟨.code depth us :: rest, s.push c⟩, host, calls⟩ := by
  have hstack := Operator.operate_glyph hc s.stack
  cases op <;>
    simp_all [Session.Next, Session.step, Session.move, Machine.step, Machine.perform, State.push,
      Operator.glyph]

theorem reaches_value (e : Expression) {v : Int64} (hv : e.value? = some v) {ts : List Token}
    (hts : ts.map (·.form) = e.forms) (hs : s.halted = false) (us : List Token) :
    Session.Reaches limit ⟨⟨.code depth (ts ++ us) :: rest, s⟩, host, calls⟩
      ⟨⟨.code depth us :: rest, s.push v⟩, host, calls⟩ := by
  induction e generalizing v ts s us with
  | literal n hn =>
    obtain ⟨t, rfl, ht⟩ := List.map_eq_singleton_iff.1 hts
    cases hv
    exact .single (next_number ht hs us)
  | apply op left right hl hr =>
    obtain ⟨a, ha, b, hb, hop⟩ : ∃ a, left.value? = some a ∧ ∃ b, right.value? = some b ∧
        op.result? a b = some v := by
      simpa [value?, Option.bind_eq_some_iff] using hv
    obtain ⟨front, last, rfl, hfront, hlast⟩ := List.map_eq_append_iff.1 hts
    obtain ⟨ls, rs, rfl, hls, hrs⟩ := List.map_eq_append_iff.1 hfront
    obtain ⟨t, rfl, ht⟩ := List.map_eq_singleton_iff.1 hlast
    simp only [List.append_assoc, List.cons_append, List.nil_append]
    have hleft := hl ha hls hs (rs ++ t :: us)
    have hright := hr hb hrs (s := s.push a) hs (t :: us)
    exact (hleft.trans hright).tail (next_operator ht hs hop us)

end Execution

end Expression

open Expression

/-- A program that is an expression in postfix order, with separators between its elements, ends
with just the value of the expression on the stack and no variables. Wherever its tokens are
executed, they push that value and change nothing else. -/
theorem written_expression_computes {σ : Type} [Host σ] (settings : Settings) (host : σ)
    {e : Expression} {es : List Text} {source : Text} (hes : e.Written es)
    (hspaced : Spaced es source) (hdivisors : e.NoZeroDivisor) :
    ∃ v, e.value? = some v ∧
      (∃ steps report, runProgram settings source host steps = some report ∧
        report.fault = none ∧ report.state.stack.toList = [v] ∧ report.state.variables = {}) ∧
      ∃ ts, (Fragment.ofSource source).tokens settings.limit = .ok ts ∧
        programTokens settings.limit source = .ok ts ∧
        ∀ depth rest s (host : σ) calls, s.halted = false →
          Session.Reaches settings.limit ⟨⟨.code depth ts :: rest, s⟩, host, calls⟩
            ⟨⟨rest, { s with stack := s.stack.push v }⟩, host, calls⟩ := by
  obtain ⟨v, hv⟩ := hdivisors.exists_value
  obtain ⟨ts, hts, hforms⟩ := Fragment.tokens_of_spaced settings.limit hspaced hes.elements
  have hprogram : programTokens settings.limit source = .ok ts :=
    programTokens_eq_ok_iff.2 ⟨ts, hts, e.fuse_of_forms hforms⟩
  have hreaches : ∀ depth rest s (host : σ) calls, s.halted = false →
      Session.Reaches settings.limit ⟨⟨.code depth ts :: rest, s⟩, host, calls⟩
        ⟨⟨rest, { s with stack := s.stack.push v }⟩, host, calls⟩ := by
    intro depth rest s host calls hs
    have hvalue : Session.Reaches settings.limit ⟨⟨.code depth (ts ++ []) :: rest, s⟩, host, calls⟩
        ⟨⟨.code depth [] :: rest, s.push v⟩, host, calls⟩ := e.reaches_value hv hforms hs []
    rw [List.append_nil] at hvalue
    refine hvalue.tail ?_
    simp [Session.Next, Session.step, Session.move, Machine.step, State.push, hs]
  refine ⟨v, hv, ?_, ts, hts, hprogram, hreaches⟩
  have hends : (Session.start ts host).Ends settings.limit
      ⟨⟨[], { stack := Stack.push v {} }⟩, host, []⟩ none :=
    ⟨hreaches 0 [] {} host [] rfl, rfl⟩
  obtain ⟨steps, hrun⟩ := exists_runProgram_iff.2 (.inr ⟨ts, _, none, hprogram, hends, rfl⟩)
  refine ⟨steps, _, hrun, rfl, ?_⟩
  unfold Session.report Session.conclude
  dsimp only
  split
  · exact ⟨rfl, rfl⟩
  · exact ⟨rfl, rfl⟩

theorem written_expression_computes_floor :
    let e : Expression := .apply .divide
      (.apply .subtract (.literal 7 (by decide)) (.literal 10 (by decide))) (.literal 2 (by decide))
    let source := ['0', '0', '7', ' ', '1', '0', ',', '-', '\n', ',', '2', ' ', '÷']
    let host : Recorder := { queue := [] }
    e.value? = some (-2) ∧
      ∃ steps report, runProgram {} source host steps = some report ∧ report.fault = none ∧
        report.state.stack.toList = [-2] ∧ report.state.variables = {} := by
  intro e source host
  have hvalue : e.value? = some (-2) := by decide
  have hdivisors : e.NoZeroDivisor :=
    ⟨⟨trivial, trivial, by simp⟩, trivial, fun _ => by decide⟩
  have hes : e.Written [['0', '0', '7'], ['1', '0'], ['-'], ['2'], ['÷']] :=
    .apply (.apply (.literal 7 _ 2) (.literal 10 _ 0)) (.literal 2 _ 0)
  have hspaced : Spaced [['0', '0', '7'], ['1', '0'], ['-'], ['2'], ['÷']] source := by
    have last : Spaced [['÷']] [' ', '÷'] :=
      @Spaced.cons [' '] _ [] _ rfl (.nil rfl) (by simp)
    have divisor : Spaced [['2'], ['÷']] ['\n', ',', '2', ' ', '÷'] :=
      @Spaced.cons ['\n', ','] _ _ _ rfl last fun _ => ⟨_, _, rfl, rfl⟩
    have minus : Spaced [['-'], ['2'], ['÷']] [',', '-', '\n', ',', '2', ' ', '÷'] :=
      @Spaced.cons [','] _ _ _ rfl divisor fun _ => ⟨_, _, rfl, rfl⟩
    have ten := @Spaced.cons [' '] ['1', '0'] _ _ rfl minus fun _ => ⟨_, _, rfl, rfl⟩
    exact @Spaced.cons [] ['0', '0', '7'] _ _ rfl ten fun _ => ⟨_, _, rfl, rfl⟩
  obtain ⟨v, hv, hrun, -⟩ := written_expression_computes {} host hes hspaced hdivisors
  cases hvalue.symm.trans hv
  exact ⟨hvalue, hrun⟩

end BlueNexus
