import BlueNexus.Host.Recorder
import BlueNexus.Proofs.SourceBreaks

/-!
# Separators in a source

Separators that are added to a source change nothing, unless a digit stands right before and right
behind them. Then they make one more break (`separators_matter_between_digits`).
-/

namespace BlueNexus

namespace Fragment

/-- The one text ends in a digit, and the other begins with one. -/
def DigitsMeet (u v : Text) : Prop :=
  ∃ c ∈ u.getLast?, ∃ d ∈ v.head?, c.isDigit = true ∧ d.isDigit = true

variable {u v w : Text}

theorem sourceBreaks_gap {afterDigit : Bool}
    (h : afterDigit = true → ∀ d ∈ v.head?, d.isDigit = false) (kept : Nat) (gap : Bool) :
    sourceBreaks kept afterDigit true v = sourceBreaks kept afterDigit gap v := by
  cases v with
  | nil => rfl
  | cons d r =>
    cases hd : isSeparator d with
    | true => rw [sourceBreaks, sourceBreaks, if_pos hd, if_pos hd]
    | false =>
      have hplain : (afterDigit && d.isDigit) = false := by
        cases afterDigit with
        | true => simpa using h rfl d rfl
        | false => rfl
      simp only [sourceBreaks_cons hd, Bool.and_assoc, hplain, Bool.and_false]

theorem ofSource_separated_text (hw : ∀ c ∈ w, isSeparator c = true) (u v : Text) :
    (ofSource (u ++ w ++ v)).text = (ofSource (u ++ v)).text := by
  simp only [ofSource, List.filter_append, filter_separators hw, List.append_nil]

theorem breaks_append (u v : Text) :
    (ofSource (u ++ v)).breaks = (ofSource u).breaks ++
      sourceBreaks (ofSource u).text.length (endsInDigit false (ofSource u).text)
        (u.foldl (fun _ c => isSeparator c) false) v := by
  simp only [ofSource, sourceBreaks_append 0 false false u v, Nat.zero_add]

theorem breaks_separated (hne : w ≠ []) (hw : ∀ c ∈ w, isSeparator c = true) (u v : Text) :
    (ofSource (u ++ w ++ v)).breaks = (ofSource u).breaks ++
      sourceBreaks (ofSource u).text.length (endsInDigit false (ofSource u).text) true v := by
  have hgap : (!w.isEmpty) = true := by simpa using hne
  rw [List.append_assoc, breaks_append, sourceBreaks_separators hw, hgap, Bool.or_true]

theorem endsInDigit_ofSource_concat {c : Char} (hc : isSeparator c = false) (u : Text) :
    endsInDigit false (ofSource (u ++ [c])).text = c.isDigit := by
  rw [ofSource_text_append]
  simp [ofSource, hc]

/-- Separators are without effect, but between digits. -/
theorem ofSource_separated (hne : w ≠ []) (hw : ∀ c ∈ w, isSeparator c = true)
    (h : ¬DigitsMeet u v) : ofSource (u ++ w ++ v) = ofSource (u ++ v) := by
  have hbreaks : (ofSource (u ++ w ++ v)).breaks = (ofSource (u ++ v)).breaks := by
    rw [breaks_separated hne hw, breaks_append]
    congr 1
    -- Behind a separator there is a gap already, so what counts is a last character that is kept.
    rcases List.eq_nil_or_concat u with rfl | ⟨t, c, rfl⟩
    · exact sourceBreaks_gap Bool.noConfusion _ _
    · rw [List.concat_eq_append] at h ⊢
      cases hc : isSeparator c with
      | true => rw [List.foldl_append, List.foldl_cons, List.foldl_nil, hc]
      | false =>
        rw [endsInDigit_ofSource_concat hc]
        refine sourceBreaks_gap (fun hdigit d hd => Bool.eq_false_iff.2 fun hd' => ?_) _ _
        exact h ⟨c, by simp, d, hd, hdigit, hd'⟩
  rw [ofSource, ofSource, Fragment.mk.injEq]
  exact ⟨ofSource_separated_text hw u v, rfl, hbreaks⟩

theorem breaks_between_digits (hne : w ≠ []) (hw : ∀ c ∈ w, isSeparator c = true)
    (h : DigitsMeet u v) :
    ∃ before behind, (ofSource (u ++ v)).breaks = before ++ behind ∧
      (ofSource (u ++ w ++ v)).breaks = before ++ (ofSource u).text.length :: behind ∧
      (∀ b ∈ before, b < (ofSource u).text.length) ∧
      ∀ b ∈ behind, (ofSource u).text.length < b := by
  obtain ⟨c, hc, d, hd, hcd, hdd⟩ := h
  obtain ⟨t, rfl⟩ := List.getLast?_eq_some_iff.1 hc
  obtain ⟨r, rfl⟩ := List.head?_eq_some_iff.1 hd
  have hcs := isSeparator_of_isDigit hcd
  have hds := isSeparator_of_isDigit hdd
  refine ⟨(ofSource (t ++ [c])).breaks,
    sourceBreaks ((ofSource (t ++ [c])).text.length + 1) true false r, ?_, ?_, fun b hb => ?_,
    fun b hb => (lt_of_mem_sourceBreaks hb).1⟩
  · rw [breaks_append, List.foldl_append, List.foldl_cons, List.foldl_nil, hcs,
      sourceBreaks_cons hds, hdd]
    rfl
  · rw [breaks_separated hne hw, endsInDigit_ofSource_concat hcs, hcd, sourceBreaks_cons hds, hdd]
    rfl
  · have hlt := (lt_of_mem_sourceBreaks hb).2
    rwa [Nat.zero_add] at hlt

theorem digits_of_mem_breaks {source : Text} {b : Nat} (h : b ∈ (ofSource source).breaks) :
    ∃ t c d r, (ofSource source).text = t ++ c :: d :: r ∧ b = t.length + 1 ∧
      c.isDigit = true ∧ d.isDigit = true := by
  obtain ⟨t, d, r, htext, rfl, hd, hend⟩ := digit_of_mem_sourceBreaks h
  rcases List.eq_nil_or_concat t with rfl | ⟨t, c, rfl⟩
  · cases hend
  · rw [List.concat_eq_append] at *
    rw [endsInDigit_concat] at hend
    refine ⟨t, c, d, r, ?_, ?_, hend, hd⟩
    · rw [ofSource, htext, List.append_assoc]
      rfl
    · rw [List.length_append, List.length_singleton, Nat.zero_add]

theorem ofSource_ofSource (source : Text) :
    ofSource (ofSource source).text = ⟨(ofSource source).text, 0, []⟩ :=
  ofSource_of_kept fun _ => ofSource_text_mem

end Fragment

open Fragment

/-- Separators that are added to a source change nothing of it, and so nothing of its run, unless
they part two digits: then there is one more break, between them. No source keeps a separator, its
breaks go up and part two digits each, and what is left of it holds nothing more to take away. -/
theorem separators_matter_between_digits {u v w : Text} (hne : w ≠ [])
    (hw : ∀ c ∈ w, isSeparator c = true) :
    (ofSource (u ++ w ++ v)).text = (ofSource (u ++ v)).text ∧
    (¬DigitsMeet u v → ofSource (u ++ w ++ v) = ofSource (u ++ v) ∧
      ∀ (σ : Type) [Host σ] (settings : Settings) (host : σ) (steps : Nat),
        runProgram settings (u ++ w ++ v) host steps = runProgram settings (u ++ v) host steps) ∧
    (DigitsMeet u v → ∃ before behind, (ofSource (u ++ v)).breaks = before ++ behind ∧
      (ofSource (u ++ w ++ v)).breaks = before ++ (ofSource u).text.length :: behind ∧
      (∀ b ∈ before, b < (ofSource u).text.length) ∧
      ∀ b ∈ behind, (ofSource u).text.length < b) ∧
    ∀ source : Text,
      (∀ c ∈ (ofSource source).text, isSeparator c = false) ∧
      (ofSource source).breaks.Pairwise (· < ·) ∧
      (∀ b ∈ (ofSource source).breaks, ∃ t c d r, (ofSource source).text = t ++ c :: d :: r ∧
        b = t.length + 1 ∧ c.isDigit = true ∧ d.isDigit = true) ∧
      ofSource (ofSource source).text = ⟨(ofSource source).text, 0, []⟩ := by
  refine ⟨ofSource_separated_text hw u v, fun h => ?_, breaks_between_digits hne hw, fun source =>
    ⟨fun c hc => ofSource_text_mem hc, pairwise_sourceBreaks ..,
      fun b hb => digits_of_mem_breaks hb, ofSource_ofSource source⟩⟩
  have hsource := ofSource_separated hne hw h
  refine ⟨hsource, fun σ _ settings host steps => ?_⟩
  simp only [runProgram, programTokens, hsource]

theorem separators_matter_between_digits_in_sum :
    let u : Text := ['1', ',', '2']
    let w : Text := [' ', ',']
    let v : Text := ['3', ' ', '4', '+']
    ofSource (u ++ w ++ ['+']) = ofSource (u ++ ['+']) ∧
      runProgram {} (u ++ w ++ ['+']) ({ queue := [] } : Recorder) 9 =
        runProgram {} (u ++ ['+']) ({ queue := [] } : Recorder) 9 ∧
      (ofSource (u ++ v)).breaks = [1, 3] ∧ (ofSource (u ++ w ++ v)).breaks = [1, 2, 3] ∧
      ∃ before behind, (ofSource (u ++ v)).breaks = before ++ behind ∧
        (ofSource (u ++ w ++ v)).breaks = before ++ 2 :: behind := by
  intro u w v
  have hw : ∀ c ∈ w, isSeparator c = true := List.all_eq_true.1 rfl
  have hplus : ¬DigitsMeet u ['+'] := by
    rintro ⟨c, -, d, hd, -, hdigit⟩
    cases hd
    cases hdigit
  obtain ⟨-, hsame, -, -⟩ :=
    separators_matter_between_digits (u := u) (v := ['+']) (List.cons_ne_nil _ _) hw
  obtain ⟨-, -, hmore, -⟩ :=
    separators_matter_between_digits (u := u) (v := v) (List.cons_ne_nil _ _) hw
  obtain ⟨hsource, hrun⟩ := hsame hplus
  obtain ⟨before, behind, hbreaks, hbreaks', -, -⟩ := hmore ⟨'2', rfl, '3', rfl, rfl, rfl⟩
  exact ⟨hsource, hrun _ _ _ _, rfl, rfl, before, behind, hbreaks, hbreaks'⟩

end BlueNexus
