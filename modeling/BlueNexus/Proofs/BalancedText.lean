import BlueNexus.Form.Nesting

/-!
# Balanced parentheses

A text whose parentheses are balanced, and not too deep, is the whole command when a closing
parenthesis comes after it (`extent_of_balanced`), and no other text is a command
(`balanced_of_extent_closed`).
-/

namespace BlueNexus.Nesting

/-- No front part of the text closes more parentheses than it opens or leaves more than `depth`
open, and all of it leaves none open. -/
def Balanced (depth : Nat) (t : Text) : Prop :=
  (∀ n ≤ t.length, (t.take n).count ')' ≤ (t.take n).count '(' ∧
    (t.take n).count '(' ≤ (t.take n).count ')' + depth) ∧ t.count '(' = t.count ')'

instance (depth : Nat) (t : Text) : Decidable (Balanced depth t) :=
  inferInstanceAs (Decidable (_ ∧ _))

/-- The same of a text with `inner` parentheses open in front of it, which it closes. -/
structure Closes (depth inner : Nat) (t : Text) : Prop where
  front : ∀ n ≤ t.length, (t.take n).count ')' ≤ (t.take n).count '(' + inner ∧
    (t.take n).count '(' + inner ≤ (t.take n).count ')' + depth
  whole : t.count '(' + inner = t.count ')'

variable {depth limit inner n : Nat} {c : Char} {t r : Text}

private theorem Balanced.closes (h : Balanced depth t) : Closes depth 0 t := ⟨h.1, h.2⟩

private theorem Closes.open_cons (h : Closes depth inner ('(' :: t)) :
    inner < depth ∧ Closes depth (inner + 1) t := by
  have hfirst := h.front 1 (by simp)
  have hwhole := h.whole
  simp at hfirst hwhole
  refine ⟨by omega, fun n hn => ?_, by omega⟩
  have hn' := h.front (n + 1) (Nat.succ_le_succ hn)
  simp at hn'
  omega

private theorem Closes.close_cons (h : Closes depth inner (')' :: t)) :
    ∃ i, inner = i + 1 ∧ Closes depth i t := by
  have hfirst := h.front 1 (by simp)
  have hwhole := h.whole
  simp at hfirst hwhole
  refine ⟨inner - 1, by omega, fun n hn => ?_, by omega⟩
  have hn' := h.front (n + 1) (Nat.succ_le_succ hn)
  simp at hn'
  omega

private theorem Closes.other_cons (ho : c ≠ '(') (hc : c ≠ ')') (h : Closes depth inner (c :: t)) :
    Closes depth inner t := by
  have hwhole := h.whole
  simp [ho, hc] at hwhole
  refine ⟨fun n hn => ?_, hwhole⟩
  have hn' := h.front (n + 1) (Nat.succ_le_succ hn)
  simpa [ho, hc] using hn'

theorem extent_open (h : inner + 1 < limit) : extent parentheses limit inner ('(' :: r) =
    (extent parentheses limit (inner + 1) r).later := by
  rw [extent.eq_def]
  exact (if_pos rfl).trans (if_neg (by omega))

@[simp] theorem extent_close : extent parentheses limit (inner + 1) (')' :: r) =
    (extent parentheses limit inner r).later := by
  rw [extent.eq_def]
  exact (if_neg (by simp [parentheses])).trans (if_pos rfl)

theorem extent_other (ho : c ≠ '(') (hc : c ≠ ')') :
    extent parentheses limit inner (c :: r) = (extent parentheses limit inner r).later := by
  rw [extent.eq_def]
  exact (if_neg (by simpa [parentheses] using ho)).trans (if_neg hc)

theorem Closes.extent (h : Closes depth inner t) (r : Text) :
    extent parentheses (depth + 1) inner (t ++ ')' :: r) = .closed t.length := by
  induction t generalizing inner with
  | nil =>
    have hinner : inner = 0 := by simpa using h.whole
    subst hinner
    rfl
  | cons c t ih =>
    rw [List.cons_append]
    by_cases ho : c = '('
    · subst ho
      obtain ⟨hlt, ht⟩ := h.open_cons
      rw [extent_open (by omega), ih ht]
      rfl
    by_cases hc : c = ')'
    · subst hc
      obtain ⟨i, rfl, ht⟩ := h.close_cons
      rw [extent_close, ih ht]
      rfl
    · rw [extent_other ho hc, ih (h.other_cons ho hc)]
      rfl

@[simp] theorem extent_of_balanced (h : Balanced depth t) (r : Text) :
    extent parentheses (depth + 1) 0 (t ++ ')' :: r) = .closed t.length :=
  h.closes.extent r

private theorem Closes.cons_open (hi : inner < depth) (h : Closes depth (inner + 1) t) :
    Closes depth inner ('(' :: t) where
  front n hn := by
    cases n with
    | zero => exact ⟨Nat.zero_le _, by simpa using Nat.le_of_lt hi⟩
    | succ n =>
      have hn' := h.front n (Nat.le_of_succ_le_succ hn)
      simp only [List.take_succ_cons, ne_eq, Char.reduceEq, not_false_eq_true,
        List.count_cons_of_ne, List.count_cons_self]
      omega
  whole := by
    have hwhole := h.whole
    simp only [ne_eq, Char.reduceEq, not_false_eq_true, List.count_cons_of_ne,
      List.count_cons_self]
    omega

private theorem Closes.cons_close (hi : inner < depth) (h : Closes depth inner t) :
    Closes depth (inner + 1) (')' :: t) where
  front n hn := by
    cases n with
    | zero => exact ⟨Nat.zero_le _, by simpa using Nat.succ_le_of_lt hi⟩
    | succ n =>
      have hn' := h.front n (Nat.le_of_succ_le_succ hn)
      simp only [List.take_succ_cons, ne_eq, Char.reduceEq, not_false_eq_true,
        List.count_cons_of_ne, List.count_cons_self]
      omega
  whole := by
    have hwhole := h.whole
    simp only [ne_eq, Char.reduceEq, not_false_eq_true, List.count_cons_of_ne,
      List.count_cons_self]
    omega

private theorem Closes.cons_other (ho : c ≠ '(') (hc : c ≠ ')') (h : Closes depth inner t) :
    Closes depth inner (c :: t) where
  front n hn := by
    cases n with
    | zero => simpa using h.front 0 (Nat.zero_le _)
    | succ n => simpa [ho, hc] using h.front n (Nat.le_of_succ_le_succ hn)
  whole := by simpa [ho, hc] using h.whole

private theorem extent_open_tooDeep {r : Text} (h : limit ≤ inner + 1) :
    extent parentheses limit inner ('(' :: r) = .tooDeep 0 := by
  rw [extent.eq_def]
  exact (if_pos rfl).trans (if_pos h)

theorem closes_of_extent_closed (h : extent parentheses limit inner t = .closed n)
    (hi : inner < limit) : Closes (limit - 1) inner (t.take n) := by
  induction t generalizing inner n with
  | nil => cases h
  | cons c r ih =>
    by_cases ho : c = '('
    · subst ho
      by_cases hl : inner + 1 < limit
      · rw [extent_open hl] at h
        obtain ⟨m, hm, rfl⟩ := Extent.later_eq_closed h
        exact (ih hm hl).cons_open (by omega)
      · rw [extent_open_tooDeep (by omega)] at h
        cases h
    by_cases hc : c = ')'
    · subst hc
      cases inner with
      | zero =>
        have hn : 0 = n := by simpa [extent, parentheses] using h
        subst hn
        exact ⟨by simp, rfl⟩
      | succ i =>
        rw [extent_close] at h
        obtain ⟨m, hm, rfl⟩ := Extent.later_eq_closed h
        exact (ih hm (by omega)).cons_close (by omega)
    · rw [extent_other ho hc] at h
      obtain ⟨m, hm, rfl⟩ := Extent.later_eq_closed h
      exact (ih hm hi).cons_other ho hc

theorem balanced_of_extent_closed (h : extent parentheses limit 0 t = .closed n)
    (hl : 0 < limit) : Balanced (limit - 1) (t.take n) := by
  obtain ⟨hfront, hwhole⟩ := closes_of_extent_closed h hl
  exact ⟨hfront, hwhole⟩

end BlueNexus.Nesting
