import BlueNexus.Fragment

/-!
# The breaks of a source

The breaks lie within the text that is left of a source, and count from its front. Each stands
between two digits, and none is found where nothing separates. The breaks of a source that goes on
depend on what was before in two ways only: whether it ended in a digit, and whether a separator
came last (`sourceBreaks_append`).
-/

namespace BlueNexus.Fragment

theorem isSeparator_of_range {c : Char} (h : 48 ≤ c.toNat ∧ c.toNat ≤ 122) :
    isSeparator c = false := by
  have hcomma : c ≠ ',' := by
    rintro rfl
    exact absurd h.1 (by decide)
  have hblank : Text.isBlank c = false := by
    simp only [Text.isBlank, Text.within, Text.blanks, List.any_cons, List.any_nil,
      Bool.or_eq_false_iff, Bool.and_eq_false_iff, decide_eq_false_iff_not, and_true]
    omega
  simp [isSeparator, hblank, hcomma]

@[simp] theorem isSeparator_of_isDigit {c : Char} (h : c.isDigit = true) :
    isSeparator c = false := by
  have hrange : 48 ≤ c.toNat ∧ c.toNat ≤ 57 := by
    simp only [Char.isDigit, Bool.and_eq_true, decide_eq_true_eq, ge_iff_le,
      UInt32.le_iff_toNat_le] at h
    exact h
  exact isSeparator_of_range (by omega)

@[simp] theorem isSeparator_of_isAlpha {c : Char} (h : c.isAlpha = true) :
    isSeparator c = false := by
  have hcases : (c.isUpper || c.isLower) = true := h
  rcases Bool.or_eq_true_iff.1 hcases with hc | hc
  · have hrange : 65 ≤ c.toNat ∧ c.toNat ≤ 90 := decide_eq_true_iff.1 hc
    exact isSeparator_of_range (by omega)
  · have hrange : 97 ≤ c.toNat ∧ c.toNat ≤ 122 :=
      ⟨decide_eq_true_iff.1 (Bool.and_eq_true_iff.1 hc).1,
        decide_eq_true_iff.1 (Bool.and_eq_true_iff.1 hc).2⟩
    exact isSeparator_of_range (by omega)

variable {kept b : Nat} {afterDigit gap : Bool} {c : Char} {source : Text}

/-- Whether the last of the characters is a digit, or `afterDigit` if there is none. -/
def endsInDigit (afterDigit : Bool) (t : Text) : Bool := t.foldl (fun _ c => c.isDigit) afterDigit

@[simp] theorem endsInDigit_concat (afterDigit : Bool) (t : Text) (c : Char) :
    endsInDigit afterDigit (t ++ [c]) = c.isDigit := by
  rw [endsInDigit, List.foldl_append]
  rfl

/-- A character that is kept may stand at a break, and the others are those of what follows it. -/
theorem sourceBreaks_cons (hc : isSeparator c = false) (kept : Nat) (afterDigit gap : Bool)
    (r : Text) : sourceBreaks kept afterDigit gap (c :: r) =
      (if gap && afterDigit && c.isDigit then [kept] else []) ++
        sourceBreaks (kept + 1) c.isDigit false r := by
  rw [sourceBreaks, if_neg (by simp [hc])]
  split
  · next hbreak =>
    rw [(Bool.and_eq_true_iff.1 hbreak).2]
    rfl
  · rfl

@[simp] theorem filter_separators {g : Text} (hg : ∀ c ∈ g, isSeparator c = true) :
    g.filter (!isSeparator ·) = [] := by
  refine List.filter_eq_nil_iff.2 fun c hc => ?_
  simp [hg c hc]

theorem sourceBreaks_add (kept d : Nat) (afterDigit gap : Bool) (source : Text) :
    sourceBreaks (kept + d) afterDigit gap source =
      (sourceBreaks kept afterDigit gap source).map (· + d) := by
  induction source generalizing kept afterDigit gap with
  | nil => rfl
  | cons c r ih =>
    have hkept : kept + d + 1 = kept + 1 + d := by omega
    simp only [sourceBreaks, hkept, ih]
    split
    · rfl
    · split
      · rfl
      · rfl

theorem sourceBreaks_append (kept : Nat) (afterDigit gap : Bool) (u v : Text) :
    sourceBreaks kept afterDigit gap (u ++ v) = sourceBreaks kept afterDigit gap u ++
      sourceBreaks (kept + (u.filter (!isSeparator ·)).length)
        (endsInDigit afterDigit (u.filter (!isSeparator ·)))
        (u.foldl (fun _ c => isSeparator c) gap) v := by
  induction u generalizing kept afterDigit gap with
  | nil => rfl
  | cons c r ih =>
    cases hc : isSeparator c with
    | true => simp [sourceBreaks, hc, ih]
    | false =>
      have hlength : kept + 1 + (r.filter (!isSeparator ·)).length =
          kept + ((r.filter (!isSeparator ·)).length + 1) := by omega
      rw [List.cons_append, sourceBreaks_cons hc, sourceBreaks_cons hc, ih, hlength]
      simp [endsInDigit, hc]

theorem sourceBreaks_concat {c : Char} (hs : isSeparator c = false) (hd : c.isDigit = false)
    (kept : Nat) (afterDigit gap : Bool) (source : Text) :
    sourceBreaks kept afterDigit gap (source ++ [c]) = sourceBreaks kept afterDigit gap source := by
  rw [sourceBreaks_append]
  simp [sourceBreaks, hs, hd]

theorem sourceBreaks_separators {g : Text} (hg : ∀ c ∈ g, isSeparator c = true) (t : Text) :
    sourceBreaks kept afterDigit gap (g ++ t) =
      sourceBreaks kept afterDigit (gap || !g.isEmpty) t := by
  induction g generalizing gap with
  | nil => simp
  | cons c g ih =>
    obtain ⟨hc, hg⟩ := List.forall_mem_cons.1 hg
    rw [List.cons_append, sourceBreaks, if_pos hc, ih hg]
    simp

theorem sourceBreaks_of_kept (h : ∀ c ∈ source, isSeparator c = false) (kept : Nat)
    (afterDigit : Bool) : sourceBreaks kept afterDigit false source = [] := by
  induction source generalizing kept afterDigit with
  | nil => rfl
  | cons c r ih =>
    obtain ⟨hc, hr⟩ := List.forall_mem_cons.1 h
    simp [sourceBreaks, hc, ih hr]

theorem ofSource_of_kept (h : ∀ c ∈ source, isSeparator c = false) :
    ofSource source = ⟨source, 0, []⟩ := by
  have hfilter : source.filter (!isSeparator ·) = source :=
    List.filter_eq_self.2 fun c hc => by simp [h c hc]
  rw [ofSource, hfilter, sourceBreaks_of_kept h]

theorem lt_of_mem_sourceBreaks (h : b ∈ sourceBreaks kept afterDigit gap source) :
    kept ≤ b ∧ b < kept + (source.filter (!isSeparator ·)).length := by
  induction source generalizing kept afterDigit gap with
  | nil => cases h
  | cons c r ih =>
    cases hc : isSeparator c with
    | true =>
      rw [sourceBreaks, if_pos hc] at h
      simpa [hc] using ih h
    | false =>
      have hlength : ((c :: r).filter (!isSeparator ·)).length =
          (r.filter (!isSeparator ·)).length + 1 := by simp [hc]
      rw [sourceBreaks_cons hc] at h
      rcases List.mem_append.1 h with h | h
      · have hb : b = kept := by
          split at h
          · exact List.mem_singleton.1 h
          · cases h
        omega
      · obtain ⟨hle, hlt⟩ := ih h
        omega

theorem pairwise_sourceBreaks (kept : Nat) (afterDigit gap : Bool) (source : Text) :
    (sourceBreaks kept afterDigit gap source).Pairwise (· < ·) := by
  induction source generalizing kept afterDigit gap with
  | nil => exact .nil
  | cons c r ih =>
    cases hc : isSeparator c with
    | true =>
      rw [sourceBreaks, if_pos hc]
      exact ih ..
    | false =>
      rw [sourceBreaks_cons hc]
      split
      · exact (ih ..).cons fun b hb => (lt_of_mem_sourceBreaks hb).1
      · exact ih ..

theorem pairwise_code {breaks : List Nat} (h : breaks.Pairwise (· < ·)) (offset : Nat) (t : Text) :
    (code breaks offset t).breaks.Pairwise (· < ·) := h.filter _

theorem pairwise_shift {f : Fragment} (h : f.breaks.Pairwise (· < ·)) (d : Nat) :
    (f.shift d).breaks.Pairwise (· < ·) :=
  h.map _ fun _ _ hlt => Nat.add_lt_add_right hlt d

theorem digit_of_mem_sourceBreaks (h : b ∈ sourceBreaks kept afterDigit gap source) :
    ∃ t d u, source.filter (!isSeparator ·) = t ++ d :: u ∧ b = kept + t.length ∧
      d.isDigit = true ∧ endsInDigit afterDigit t = true := by
  induction source generalizing kept afterDigit gap with
  | nil => cases h
  | cons c r ih =>
    cases hc : isSeparator c with
    | true =>
      rw [sourceBreaks, if_pos hc] at h
      rw [List.filter_cons_of_neg (by simp [hc])]
      exact ih h
    | false =>
      rw [sourceBreaks_cons hc] at h
      rw [List.filter_cons_of_pos (by simp [hc])]
      rcases List.mem_append.1 h with h | h
      · obtain ⟨⟨⟨-, ha⟩, hd⟩, rfl⟩ :
            ((gap = true ∧ afterDigit = true) ∧ c.isDigit = true) ∧ b = kept := by simpa using h
        exact ⟨[], c, _, rfl, rfl, hd, ha⟩
      · obtain ⟨t, d, u, ht, rfl, hd, hend⟩ := ih h
        refine ⟨c :: t, d, u, by rw [ht, List.cons_append], ?_, hd, hend⟩
        rw [List.length_cons]
        omega

/-- Every break of a source lies in its text. -/
@[simp] theorem code_ofSource (source : Text) :
    code (ofSource source).breaks 0 (ofSource source).text = ofSource source := by
  have hfilter : (ofSource source).breaks.filter
      (fun b => 0 ≤ b && b < 0 + (ofSource source).text.length) = (ofSource source).breaks := by
    refine List.filter_eq_self.2 fun b hb => ?_
    have hlt := (lt_of_mem_sourceBreaks hb).2
    simpa [ofSource] using hlt
  rw [code, hfilter]
  rfl

end BlueNexus.Fragment
