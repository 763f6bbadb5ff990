import BlueNexus.Form.Reading
import BlueNexus.Proofs.FormRules
import BlueNexus.Proofs.SourceBreaks
import BlueNexus.Stack
import Mathlib.Data.List.Forall2

/-!
# Elements with separators between them

Numerals and arithmetic operators with separators between them are read one by one: the breaks of
the source part neighbouring numerals, and nothing else parts a numeral (`tokens_of_spaced`).
-/

namespace BlueNexus

open Form

/-- The elements in turn, with separators around them, and some between any two. -/
inductive Spaced : List Text → Text → Prop
  | nil {gap : Text} (hgap : gap.all Fragment.isSeparator = true) : Spaced [] gap
  | cons {gap e t : Text} {es : List Text} (hgap : gap.all Fragment.isSeparator = true)
      (h : Spaced es t) (hparted : es ≠ [] → ∃ c r, t = c :: r ∧ Fragment.isSeparator c = true) :
      Spaced (e :: es) (gap ++ e ++ t)

/-- A text that is read as one form if nothing follows on it. -/
inductive Element : Text → Form → Prop
  | number {c : Char} {r : Text} {n : Int64} (hdigits : ∀ d ∈ c :: r, d.isDigit = true)
      (hn : Numeral.signed? false (c :: r) = some n) : Element (c :: r) (.number n)
  | operator {g : Glyph} (hg : (Stack.arithmetic? g).isSome = true) : Element [g.toChar] (.glyph g)

namespace Fragment

variable {breaks : List Nat} {kept limit : Nat} {afterDigit gap : Bool} {t r u : Text}

private theorem filter_digits (h : ∀ d ∈ r, d.isDigit = true) : r.filter (!isSeparator ·) = r := by
  refine List.filter_eq_self.2 fun d hd => ?_
  simp [isSeparator_of_isDigit (h d hd)]

theorem sourceBreaks_following (hr : ∀ d ∈ r, d.isDigit = true) (kept : Nat) (t : Text) :
    sourceBreaks kept true false (r ++ t) = sourceBreaks (kept + r.length) true false t := by
  induction r generalizing kept with
  | nil => rfl
  | cons c r ih =>
    obtain ⟨hc, hr⟩ := List.forall_mem_cons.1 hr
    rw [List.cons_append, sourceBreaks_cons (isSeparator_of_isDigit hc), hc, ih hr,
      List.length_cons, Nat.add_right_comm]
    rfl

theorem sourceBreaks_numeral (kept : Nat) (afterDigit gap : Bool) {c : Char}
    (h : ∀ d ∈ c :: r, d.isDigit = true) (t : Text) :
    ∃ front, (∀ b ∈ front, b = kept) ∧ sourceBreaks kept afterDigit gap (c :: r ++ t) =
      front ++ sourceBreaks (kept + (r.length + 1)) true false t := by
  obtain ⟨hc, hr⟩ := List.forall_mem_cons.1 h
  have hlength : kept + 1 + r.length = kept + (r.length + 1) := by omega
  rw [List.cons_append, sourceBreaks_cons (isSeparator_of_isDigit hc), hc,
    sourceBreaks_following hr, hlength]
  refine ⟨_, fun b hb => ?_, rfl⟩
  split at hb
  · exact List.mem_singleton.1 hb
  · cases hb

theorem mem_sourceBreaks {d : Char} (h : t.filter (!isSeparator ·) = d :: u)
    (hd : d.isDigit = true) : kept ∈ sourceBreaks kept true true t := by
  induction t with
  | nil => cases h
  | cons c r ih =>
    cases hc : isSeparator c with
    | true =>
      rw [sourceBreaks, if_pos hc]
      refine ih ?_
      simpa [hc] using h
    | false =>
      have hcd : c = d := by
        rw [List.filter_cons_of_pos (by simp [hc])] at h
        exact List.head_eq_of_cons_eq h
      simp [sourceBreaks, hcd ▸ hd]

theorem digitRun_eq_zero (hmem : ∀ d r, u = d :: r → d.isDigit = true → kept ∈ breaks) :
    digitRun breaks kept u = 0 := by
  cases u with
  | nil => rfl
  | cons d r =>
    rw [digitRun]
    cases hd : d.isDigit with
    | false => rfl
    | true => simp [hmem d r rfl hd]

theorem digitRun_append (hr : ∀ d ∈ r, d.isDigit = true)
    (hbreaks : ∀ b ∈ breaks, b < kept ∨ kept + r.length ≤ b)
    (hstop : digitRun breaks (kept + r.length) u = 0) :
    digitRun breaks kept (r ++ u) = r.length := by
  induction r generalizing kept with
  | nil => exact hstop
  | cons c r ih =>
    obtain ⟨hc, hr⟩ := List.forall_mem_cons.1 hr
    have hlength : kept + (c :: r).length = kept + 1 + r.length := by
      rw [List.length_cons]
      omega
    rw [hlength] at hstop
    have hkept : kept ∉ breaks := by
      intro h
      have hb := hbreaks kept h
      rw [hlength] at hb
      omega
    have hrest : digitRun breaks (kept + 1) (r ++ u) = r.length := by
      refine ih hr (fun b hb => ?_) hstop
      have hb := hbreaks b hb
      rw [hlength] at hb
      omega
    simp [digitRun, hc, hkept, hrest]

end Fragment

namespace Form

theorem read_number {c : Char} {r u : Text} {n : Int64} {breaks : List Nat} {offset : Nat}
    (limit : Nat) (hc : c.isDigit = true) (hn : Numeral.signed? false (c :: r) = some n)
    (hrun : digitRun breaks (offset + 1) (r ++ u) = r.length) :
    read limit breaks offset c (r ++ u) = .ok ⟨some (.number n), r.length⟩ := by
  have htake : (r ++ u).take r.length = r := List.take_left
  simp only [read_eq_readNumber hc, readNumber, hrun, htake, hn]

private theorem read_operator {g : Glyph} (hg : (Stack.arithmetic? g).isSome = true) (limit : Nat)
    (breaks : List Nat) (offset : Nat) (u : Text) :
    read limit breaks offset g.toChar u = .ok ⟨some (.glyph g), 0⟩ := by
  cases u <;> cases g <;> first | rfl | cases hg

end Form

namespace Fragment

variable {breaks : List Nat} {kept limit : Nat} {afterDigit gap : Bool} {t r u : Text}

theorem tokensFrom_cons {c : Char} {f : Form} {ts : List Token}
    (hread : Form.read limit breaks kept c (r ++ u) = .ok ⟨some f, r.length⟩)
    (hts : tokensFrom limit breaks 0 (kept + (r.length + 1)) u = .ok ts) :
    tokensFrom limit breaks 0 kept (c :: (r ++ u)) = .ok (⟨f, kept⟩ :: ts) := by
  have hkept : kept + 1 + r.length = kept + (r.length + 1) := by omega
  rw [tokensFrom_of_ok hread, List.drop_left, hkept, hts]
  rfl

theorem digitRun_of_spaced {es : List Text} (h : Spaced es t)
    (hparted : es ≠ [] → ∃ c r, t = c :: r ∧ isSeparator c = true)
    (hbreaks : sourceBreaks kept true false t ⊆ breaks) :
    digitRun breaks kept (t.filter (!isSeparator ·)) = 0 := by
  apply digitRun_eq_zero
  intro d r hr hd
  apply hbreaks
  cases h with
  | nil hgap =>
    rw [filter_separators (List.all_eq_true.1 hgap)] at hr
    cases hr
  | cons _ _ _ =>
    obtain ⟨c, r', ht, hc⟩ := hparted (List.cons_ne_nil _ _)
    rw [ht] at hr ⊢
    rw [List.filter_cons_of_neg (by simp [hc])] at hr
    rw [sourceBreaks, if_pos hc]
    exact mem_sourceBreaks hr hd

/-- Wherever the text stands behind characters that are read, what is kept of it is read into the
forms. -/
def ReadsTo (limit : Nat) (t : Text) (fs : List Form) : Prop :=
  ∀ kept afterDigit gap before, (∀ b ∈ before, b ≤ kept) →
    ∃ ts, tokensFrom limit (before ++ sourceBreaks kept afterDigit gap t) 0 kept
      (t.filter (!isSeparator ·)) = .ok ts ∧ ts.map (·.form) = fs

namespace ReadsTo

variable {fs : List Form}

theorem nil (limit : Nat) : ReadsTo limit [] [] := fun _ _ _ _ _ => ⟨[], rfl, rfl⟩

theorem separators {g : Text} (hg : ∀ c ∈ g, isSeparator c = true) (h : ReadsTo limit t fs) :
    ReadsTo limit (g ++ t) fs := by
  intro kept afterDigit gap before hbefore
  rw [sourceBreaks_separators hg, List.filter_append, filter_separators hg, List.nil_append]
  exact h kept afterDigit _ before hbefore

theorem number {es : List Text} {c : Char} {n : Int64} (hdigits : ∀ d ∈ c :: r, d.isDigit = true)
    (hn : Numeral.signed? false (c :: r) = some n) (hspaced : Spaced es t)
    (hparted : es ≠ [] → ∃ c r, t = c :: r ∧ isSeparator c = true) (h : ReadsTo limit t fs) :
    ReadsTo limit (c :: r ++ t) (.number n :: fs) := by
  intro kept afterDigit gap before hbefore
  obtain ⟨front, hfront, hbreaks⟩ := sourceBreaks_numeral kept afterDigit gap hdigits t
  have hbefore' : ∀ b ∈ before ++ front, b ≤ kept := by
    intro b hb
    rcases List.mem_append.1 hb with hb | hb
    · exact hbefore b hb
    · exact Nat.le_of_eq (hfront b hb)
  obtain ⟨ts, hts, hforms⟩ := h (kept + (r.length + 1)) true false (before ++ front)
    fun b hb => Nat.le_add_right_of_le (hbefore' b hb)
  rw [hbreaks, List.filter_append, filter_digits hdigits, ← List.append_assoc, List.cons_append]
  refine ⟨_, tokensFrom_cons ?_ hts, by rw [List.map_cons, hforms]⟩
  apply read_number limit (hdigits c List.mem_cons_self) hn
  have hkept : kept + 1 + r.length = kept + (r.length + 1) := by omega
  apply digitRun_append fun d hd => hdigits d (List.mem_cons_of_mem c hd)
  · intro b hb
    rw [hkept]
    rcases List.mem_append.1 hb with hb | hb
    · exact .inl (Nat.lt_succ_of_le (hbefore' b hb))
    · exact .inr (lt_of_mem_sourceBreaks hb).1
  · rw [hkept]
    exact digitRun_of_spaced hspaced hparted (List.subset_append_right _ _)

theorem operator {g : Glyph} (hg : (Stack.arithmetic? g).isSome = true) (h : ReadsTo limit t fs) :
    ReadsTo limit ([g.toChar] ++ t) (.glyph g :: fs) := by
  intro kept afterDigit gap before hbefore
  have hplain : isSeparator g.toChar = false ∧ g.toChar.isDigit = false := by cases g <;> decide
  have hbreaks : sourceBreaks kept afterDigit gap ([g.toChar] ++ t) =
      sourceBreaks (kept + 1) false false t := by
    simp [sourceBreaks, hplain]
  have hfilter : ([g.toChar] ++ t).filter (!isSeparator ·) =
      g.toChar :: ([] ++ t.filter (!isSeparator ·)) := by
    simp [hplain]
  obtain ⟨ts, hts, hforms⟩ := h (kept + 1) false false before
    fun b hb => Nat.le_add_right_of_le (hbefore b hb)
  rw [hbreaks, hfilter]
  exact ⟨_, tokensFrom_cons (read_operator hg limit _ kept _) hts, by rw [List.map_cons, hforms]⟩

private theorem of_spaced {es : List Text} (limit : Nat) (hspaced : Spaced es t)
    (hes : List.Forall₂ Element es fs) : ReadsTo limit t fs := by
  induction hspaced generalizing fs with
  | nil hgap =>
    cases hes
    simpa using (nil limit).separators (List.all_eq_true.1 hgap)
  | cons hgap hspaced hparted ih =>
    rw [List.append_assoc]
    cases hes with
    | cons he hes =>
      apply separators (List.all_eq_true.1 hgap)
      cases he with
      | number hdigits hn => exact number hdigits hn hspaced hparted (ih hes)
      | operator hg => exact operator hg (ih hes)

end ReadsTo

theorem tokens_of_spaced {es : List Text} {fs : List Form} {source : Text} (limit : Nat)
    (hspaced : Spaced es source) (hes : List.Forall₂ Element es fs) :
    ∃ ts, (ofSource source).tokens limit = .ok ts ∧ ts.map (·.form) = fs :=
  ReadsTo.of_spaced limit hspaced hes 0 false false [] (by simp)

end Fragment

end BlueNexus
