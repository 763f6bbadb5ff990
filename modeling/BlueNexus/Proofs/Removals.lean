import BlueNexus.Proofs.LeadingNumerals
import BlueNexus.Proofs.MachineRules

/-!
# Removals

The parameter of a removal says what is removed: everything from the stack, the front of one
sequence, or so many values from the top (`removal_acts_on_one_thing`). What it removes comes from
the stack or from a variable but not from both, and a parameter that says nothing removes nothing.
-/

namespace BlueNexus

open Numeral

variable {param : Text} {x : Name} {s : State} {n : Int64}

theorem Stack.exists_drop (n : Nat) (s : Stack) :
    ∃ kept removed, s.toList = kept ++ removed ∧ removed.length = min n s.size ∧
      s.drop n = .ofList kept := by
  refine ⟨(s.values.drop n).reverse, (s.values.take n).reverse, ?_, ?_, ?_⟩
  · rw [toList, ← List.reverse_append, List.take_append_drop]
  · rw [List.length_reverse, List.length_take, size]
  · rw [ofList, List.reverse_reverse, drop]

namespace State

private theorem drop_dot (s : State) : s.drop ['.'] = { s with stack := {} } := if_pos rfl

private theorem drop_front {a : Int64} {items : List Int64}
    (h : s.variables.get? x = some (.sequence (a :: items))) :
    s.drop [x.letter] = s.assign x (.sequence items) := by
  rw [drop_letter, Bindings.update_of_get? h]
  rfl

private theorem drop_frontless (h : ∀ a items, s.variables.get? x ≠ some (.sequence (a :: items))) :
    s.drop [x.letter] = s := by
  rw [drop_letter, Bindings.update_eq_self]
  intro v hv
  match v with
  | .scalar _ => rfl
  | .sequence [] => rfl
  | .sequence (a :: items) => exact absurd hv (h a items)

theorem drop_letters (h : ∃ c ∈ param, c.isAlpha = true) (hx : ∀ x : Name, param ≠ [x.letter]) :
    s.drop param = s := by
  have hdot : param ≠ ['.'] := by
    rintro rfl
    simp at h
  have hname : Name.ofText? param = none := by
    rw [Option.eq_none_iff_forall_ne_some]
    exact fun x h => hx x (Name.eq_of_ofText? h)
  rw [drop, if_neg hdot, if_pos (List.any_eq_true.2 h), hname]

theorem drop_letterless (hdot : param ≠ ['.']) (h : ∀ c ∈ param, c.isAlpha = false) (s : State) :
    s.drop param = (leading? param).elim s fun n =>
      { s with stack := s.stack.drop n.toInt.toNat } := by
  have hany : ¬param.any Char.isAlpha = true := by
    rw [List.any_eq_true]
    rintro ⟨c, hc, halpha⟩
    cases halpha.symm.trans (h c hc)
  rw [drop, if_neg hdot, if_neg hany]
  cases leading? param with
  | none => rfl
  | some n => rfl

private theorem drop_countless (hdot : param ≠ ['.']) (h : ∀ c ∈ param, c.isAlpha = false)
    (hn : ∀ n : Int64, Leads param n.toInt → n.toInt ≤ 0) : s.drop param = s := by
  rw [drop_letterless hdot h]
  cases hread : leading? param with
  | none => rfl
  | some n =>
    have hzero : n.toInt.toNat = 0 := Int.toNat_of_nonpos (hn n (leading?_eq_some_iff.1 hread))
    rw [Option.elim_some, hzero]
    rfl

/-- A dot removes the whole stack, the name of a sequence its front, and a positive integer so many
values from the top, or all if there are fewer. All other parameters remove nothing. No removal
changes both the stack and a variable, binds or unbinds a name, prints or fails. -/
theorem removal_acts_on_one_thing (param : Text) (s : State) :
    (param = ['.'] → s.drop param = { s with stack := {} }) ∧
    ((∃ c ∈ param, c.isAlpha = true) →
      (∀ (x : Name) a items, param = [x.letter] →
        s.variables.get? x = some (.sequence (a :: items)) →
        s.drop param = s.assign x (.sequence items)) ∧
      ((∀ (x : Name) a items, param = [x.letter] →
        s.variables.get? x ≠ some (.sequence (a :: items))) → s.drop param = s)) ∧
    (param ≠ ['.'] → (∀ c ∈ param, c.isAlpha = false) →
      (∀ n : Int64, Leads param n.toInt → 0 < n.toInt →
        ∃ kept removed, s.stack.toList = kept ++ removed ∧
          removed.length = min n.toInt.toNat s.stack.size ∧
          s.drop param = { s with stack := .ofList kept }) ∧
      ((∀ n : Int64, Leads param n.toInt → n.toInt ≤ 0) → s.drop param = s)) ∧
    ((s.drop param).stack = s.stack ∨ (s.drop param).variables = s.variables) ∧
    (∀ x, (s.drop param).variables.get? x = none ↔ s.variables.get? x = none) ∧
    (s.drop param).output = s.output ∧ (s.drop param).halted = s.halted ∧
    ∀ limit depth offset tokens rest, s.halted = false →
      Machine.step limit ⟨.code depth (⟨.drop param, offset⟩ :: tokens) :: rest, s⟩ =
        .silent ⟨.code depth tokens :: rest, s.drop param⟩ := by
  refine ⟨?_, fun h => ⟨?_, fun hx => ?_⟩, fun hdot h => ⟨fun n hn _ => ?_, drop_countless hdot h⟩,
    ?_, fun x => ?_, ?_, ?_, ?_⟩
  · rintro rfl
    exact drop_dot s
  · rintro x a items rfl hitems
    exact drop_front hitems
  · by_cases hname : ∃ x : Name, param = [x.letter]
    · obtain ⟨x, rfl⟩ := hname
      exact drop_frontless fun a items => hx x a items rfl
    · exact drop_letters h (not_exists.1 hname)
  · obtain ⟨kept, removed, hstack, hlength, hdrop⟩ := s.stack.exists_drop n.toInt.toNat
    refine ⟨kept, removed, hstack, hlength, ?_⟩
    rw [drop_letterless hdot h, leading?_eq_some_iff.2 hn, Option.elim_some, hdrop]
  · obtain ⟨stack, h⟩ | ⟨y, -, h⟩ := drop_cases param s
    · exact .inr (by rw [h])
    · exact .inl (by rw [h])
  · obtain ⟨stack, h⟩ | ⟨y, -, h⟩ := drop_cases param s
    · rw [h]
    · rw [h, Bindings.get?_update]
      split
      · exact Option.map_eq_none_iff
      · rfl
  · obtain ⟨stack, h⟩ | ⟨y, -, h⟩ := drop_cases param s <;> rw [h] <;> rfl
  · obtain ⟨stack, h⟩ | ⟨y, -, h⟩ := drop_cases param s <;> rw [h]
  · intro limit depth offset tokens rest hs
    exact Machine.step_eq_of_steps (.act depth tokens rest (.drop param s)) hs

/-- A count with a sign in front and a character behind it, and names alone and with a digit. -/
theorem removal_acts_on_signed_count :
    let x : Name := ⟨'x', rfl⟩
    let s : State :=
      { stack := .ofList [7, 8, 9], «variables» := ({} : Bindings).set x (.sequence [72, 105]) }
    ((∀ c ∈ ['+', '2', 'é'], c.isAlpha = false) ∧ Leads ['+', '2', 'é'] (2 : Int64).toInt ∧
      ∃ kept removed, [7, 8, 9] = kept ++ removed ∧ removed.length = 2 ∧
        s.drop ['+', '2', 'é'] = { s with stack := .ofList kept }) ∧
    s.drop ['x'] = s.assign x (.sequence [105]) ∧ s.drop ['x', '1'] = s := by
  intro x s
  have hletters : ∀ c ∈ ['+', '2', 'é'], c.isAlpha = false := by simp
  have hn : Leads ['+', '2', 'é'] (2 : Int64).toInt := leading?_eq_some_iff.1 (by decide)
  have hcount := ((removal_acts_on_one_thing ['+', '2', 'é'] s).2.2.1 (by decide) hletters).1
  have hname := ((removal_acts_on_one_thing ['x'] s).2.1 (by simp)).1
  have hnames := ((removal_acts_on_one_thing ['x', '1'] s).2.1 (by simp)).2
  refine ⟨⟨hletters, hn, hcount 2 hn (by decide)⟩, hname x 72 [105] rfl (by decide), hnames ?_⟩
  intro y a items hy
  simp at hy

end State

end BlueNexus
