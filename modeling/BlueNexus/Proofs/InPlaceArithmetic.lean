import BlueNexus.Form.Meaning
import BlueNexus.Proofs.LeadingNumerals

/-!
# Arithmetic in place

An expression does to a variable what the glyph of its operator does to two values on the stack
(`expression_agrees_with_stack`). Without an operator or an operand it changes nothing, but for an
unbound name, which is bound to zero first.
-/

namespace BlueNexus

open Numeral

/-- The operators of an expression. -/
def Glyph.operators : List Glyph := [.add, .subtract, .multiply, .divide]

private theorem Stack.binary?_ofList (op : Int64 → Int64 → Option Int64) (a b : Int64) :
    (ofList [a, b]).binary? op = (op a b).map fun c => ofList [c] := rfl

private theorem Stack.ofList_inj {a b : List Int64} : ofList a = ofList b ↔ a = b := by
  rw [ofList, ofList, mk.injEq, List.reverse_inj]

namespace Assignment

variable {g : Glyph} {x y : Name} {c : Int64} {t : Text} {w : Value} {vars : Bindings}

private theorem exists_arithmetic (hg : g ∈ Glyph.operators) : ∃ op, Stack.arithmetic? g = some op ∧
    ∀ c r, changed? c (g.toChar :: r) = (leading? r).bind (op c) := by
  simp only [Glyph.operators, List.mem_cons, List.not_mem_nil, or_false] at hg
  obtain rfl | rfl | rfl | rfl := hg <;> refine ⟨_, rfl, fun c r => ?_⟩ <;>
    cases h : leading? r <;> simp [changed?, Glyph.toChar, h]

private theorem changed?_of_no_operator (h : ∀ g ∈ Glyph.operators, t.head? ≠ some g.toChar) :
    changed? c t = none := by
  unfold changed?
  split
  · rfl
  · split
    · exact absurd rfl (h .add (by decide))
    · exact absurd rfl (h .subtract (by decide))
    · exact absurd rfl (h .multiply (by decide))
    · exact absurd rfl (h .divide (by decide))
    · rfl

private theorem changed?_of_no_operand (h : leading? t.tail = none) : changed? c t = none := by
  cases t with
  | nil => rfl
  | cons d r =>
    rw [List.tail_cons] at h
    simp [changed?, h]

theorem change_of_bound (h : vars.get? x = some w) (t : Text) :
    change x t vars = vars.set x (w.mapScalar fun n => (changed? n t).getD n) := by
  rw [change, Bindings.init, h]
  exact Bindings.update_of_get? h _

theorem change_of_unchanged (h : vars.get? x = some (.scalar c)) (ht : changed? c t = none) :
    change x t vars = vars := by
  rw [change_of_bound h, Value.mapScalar, ht]
  exact Bindings.set_eq_self h

private theorem change_of_sequence {items : List Int64} (h : vars.get? x = some (.sequence items))
    (t : Text) : change x t vars = vars := by
  rw [change_of_bound h]
  exact Bindings.set_eq_self h

theorem change_of_unbound (h : vars.get? x = none) (t : Text) :
    change x t vars = change x t (vars.set x (.scalar 0)) := by
  have hbound : (vars.set x (.scalar 0)).get? x = some (.scalar 0) := by simp
  simp only [change, Bindings.init, h, hbound]

private theorem get?_change_of_ne (hy : y ≠ x) (t : Text) :
    (change x t vars).get? y = vars.get? y := by
  simp [change, hy.symm]

/-- An operator with an operand leaves in a scalar what its glyph leaves of the scalar and the
operand on a stack, and where the glyph declines them it leaves the scalar as it is. An unbound name
counts as zero and is bound by any expression. Other expressions change no scalar, and no expression
changes a sequence or another name. -/
theorem expression_agrees_with_stack (x : Name) (vars : Bindings) :
    (∀ g ∈ Glyph.operators, ∃ op, Stack.arithmetic? g = some op ∧
      ∀ (c n : Int64) (suffix : Text), (∀ d ∈ suffix.head?, d.isDigit = false) →
        vars.get? x = some (.scalar c) →
        (∀ v, (Stack.ofList [c, n]).binary? op = some (.ofList [v]) →
          change x (g.toChar :: (decimal n ++ suffix)) vars = vars.set x (.scalar v)) ∧
        ((Stack.ofList [c, n]).binary? op = none →
          change x (g.toChar :: (decimal n ++ suffix)) vars = vars)) ∧
    (∀ t, vars.get? x = none → change x t vars = change x t (vars.set x (.scalar 0)) ∧
      ∃ n, (change x t vars).get? x = some (.scalar n)) ∧
    (∀ t c, vars.get? x = some (.scalar c) →
      ((∀ g ∈ Glyph.operators, t.head? ≠ some g.toChar) ∨ ∀ n : Int64, ¬Leads t.tail n.toInt) →
      change x t vars = vars) ∧
    (∀ t items, vars.get? x = some (.sequence items) → change x t vars = vars) ∧
    ∀ t y, y ≠ x → (change x t vars).get? y = vars.get? y := by
  refine ⟨fun g hg => ?_, fun t h => ⟨change_of_unbound h t, ?_⟩, fun t c h ht => ?_,
    fun t items h => change_of_sequence h t, fun t y hy => get?_change_of_ne hy t⟩
  · obtain ⟨op, hop, hchanged⟩ := exists_arithmetic hg
    refine ⟨op, hop, fun c n suffix hsuffix h => ?_⟩
    have hresult : changed? c (g.toChar :: (decimal n ++ suffix)) = op c n := by
      rw [hchanged, leading?_decimal_append n hsuffix, Option.bind_some]
    rw [Stack.binary?_ofList]
    constructor
    · intro v hv
      obtain ⟨a, ha, hstack⟩ := Option.map_eq_some_iff.1 hv
      obtain rfl : a = v := by simpa [Stack.ofList_inj] using hstack
      rw [change_of_bound h, Value.mapScalar, hresult, ha, Option.getD_some]
    · intro hnone
      exact change_of_unchanged h (hresult.trans (Option.map_eq_none_iff.1 hnone))
  · have hbound : (vars.set x (.scalar 0)).get? x = some (.scalar 0) := by simp
    rw [change_of_unbound h, change_of_bound hbound, Bindings.get?_set, if_pos rfl]
    exact ⟨_, rfl⟩
  · obtain hoperator | hoperand := ht
    · exact change_of_unchanged h (changed?_of_no_operator hoperator)
    · exact change_of_unchanged h (changed?_of_no_operand (leading?_eq_none_iff.2 hoperand))

/-- Quotients of the least integer: one that is rounded down, the one that wraps around, and the one
that does not exist. -/
theorem expression_agrees_with_stack_at_minimum :
    let x : Name := ⟨'x', rfl⟩
    let vars : Bindings := ({} : Bindings).set x (.scalar .minValue)
    vars.get? x = some (.scalar .minValue) ∧ .divide ∈ Glyph.operators ∧
    change x ['÷', '1', '0', 'x'] vars = vars.set x (.scalar (-922337203685477581)) ∧
    change x ['÷', '-', '1'] vars = vars.set x (.scalar .minValue) ∧
    change x ['÷', '0', '-', '1'] vars = vars := by
  intro x vars
  have hbound : vars.get? x = some (.scalar .minValue) := rfl
  have hdivide : .divide ∈ Glyph.operators := by decide
  obtain ⟨op, hop, hchange⟩ := (expression_agrees_with_stack x vars).1 .divide hdivide
  obtain rfl : Division.floor? = op := Option.some.inj hop
  have hfloor := (hchange .minValue 10 ['x'] (by simp) hbound).1 (-922337203685477581) (by decide)
  have hwrap := (hchange .minValue (-1) [] (by simp) hbound).1 .minValue (by decide)
  have hnone := (hchange .minValue 0 ['-', '1'] (by simp) hbound).2 (by decide)
  have hten : decimal 10 ++ ['x'] = ['1', '0', 'x'] := by decide +kernel
  have hminus : decimal (-1) ++ [] = ['-', '1'] := by decide +kernel
  have hzero : decimal 0 ++ ['-', '1'] = ['0', '-', '1'] := by decide +kernel
  rw [hten] at hfloor
  rw [hminus] at hwrap
  rw [hzero] at hnone
  exact ⟨hbound, hdivide, hfloor, hwrap, hnone⟩

end Assignment

end BlueNexus
