import BlueNexus.Form
import Mathlib.Data.List.Chain
import Mathlib.Data.List.Forall2

/-!
# Fused push markers

A push marker is fused with an input request, a number or a variable, and with nothing else
(`fused?_cases`). No fused token carries a fragment, and none is a variable. Behind the fusion no
marker stands before what it takes, so there is nothing left to fuse, and the tokens can be taken
apart again: only the offset of what a marker has taken is gone (`fusion_forgets_taken_offsets`).
-/

namespace BlueNexus.PushMarker

theorem fused?_cases {f g : Form} (h : fused? f = some g) :
    (f = .glyph .input ∧ g = .pushInput) ∨ (∃ n, f = .number n ∧ g = .pushNumber n) ∨
      ∃ x, f = .variable x ∧ g = .pushVariable x := by
  unfold fused? at h
  split at h
  · cases h
    exact .inl ⟨rfl, rfl⟩
  · next n =>
    cases h
    exact .inr (.inl ⟨n, rfl, rfl⟩)
  · next x =>
    cases h
    exact .inr (.inr ⟨x, rfl, rfl⟩)
  · cases h

/-- What a token of the fusion comes from, with the tokens that follow it there. -/
inductive Arises (ts : List Token) (t : Token) : List Token → Prop
  | kept {us} (h : t :: us <:+ ts) : Arises ts t (fuse us)
  | fused {m u us} (h : m :: u :: us <:+ ts) (hm : m.form = .glyph .push)
      (hu : fused? u.form = some t.form) : Arises ts t (fuse us)

theorem Arises.of_suffix {ts ts' us : List Token} {t : Token} (h : Arises ts t us)
    (hs : ts <:+ ts') : Arises ts' t us := by
  cases h with
  | kept h => exact .kept (h.trans hs)
  | fused h hm hu => exact .fused (h.trans hs) hm hu

theorem arises_of_suffix_fuse {t : Token} {ts us : List Token} (h : t :: us <:+ fuse ts) :
    Arises ts t us := by
  fun_induction fuse ts with
  | case1 => simp at h
  | case2 m =>
    rcases List.suffix_cons_iff.1 h with he | h
    · cases he
      exact .kept List.suffix_rfl
    · simp at h
  | case3 m u r hm f hf ih =>
    rcases List.suffix_cons_iff.1 h with he | h
    · cases he
      exact .fused List.suffix_rfl hm hf
    · exact (ih h).of_suffix (List.suffix_append [m, u] r)
  | case4 m u r hm hf ih | case5 m u r hm ih =>
    rcases List.suffix_cons_iff.1 h with he | h
    · cases he
      exact .kept List.suffix_rfl
    · exact (ih h).of_suffix (List.suffix_cons m (u :: r))

theorem mem_fuse {t : Token} {ts : List Token} (h : t ∈ fuse ts) :
    t ∈ ts ∨ ∃ u ∈ ts, fused? u.form = some t.form := by
  obtain ⟨s, us, hs⟩ := List.append_of_mem h
  cases arises_of_suffix_fuse ⟨s, hs.symm⟩ with
  | kept h => exact .inl (h.mem List.mem_cons_self)
  | @fused m u vs h hm hu => exact .inr ⟨u, h.mem (by simp), hu⟩

theorem eq_of_fuse_variable {x : Name} {o : Nat} {ts us : List Token}
    (h : fuse ts = ⟨.variable x, o⟩ :: us) :
    ∃ vs, ts = ⟨.variable x, o⟩ :: vs ∧ us = fuse vs := by
  unfold fuse at h
  split at h
  · cases h
  · cases h
    exact ⟨[], rfl, rfl⟩
  · next t u r =>
    split at h
    · split at h
      · next f hf =>
        cases h
        rcases fused?_cases hf with ⟨_, hx⟩ | ⟨n, _, hx⟩ | ⟨y, _, hx⟩ <;> cases hx
      · cases h
        exact ⟨u :: r, rfl, rfl⟩
    · cases h
      exact ⟨u :: r, rfl, rfl⟩

/-- What a push marker takes. -/
inductive Operand : Form → Prop
  | input : Operand (.glyph .input)
  | number (n) : Operand (.number n)
  | variable (x) : Operand (.variable x)

@[simp] theorem fused?_eq_none_iff {f : Form} : fused? f = none ↔ ¬Operand f := by
  constructor
  · rintro h (_ | _ | _) <;> cases h
  · intro h
    unfold fused?
    split
    · exact absurd .input h
    · exact absurd (.number _) h
    · exact absurd (.variable _) h
    · rfl

/-- No push marker stands right before what it takes. -/
def Settled (ts : List Token) : Prop :=
  ts.IsChain fun t u => t.form = .glyph .push → ¬Operand u.form

/-- A marker takes no fused token, so the fusion brings nothing to the front that it could take. -/
theorem not_operand_head_fuse {ts : List Token} (h : ∀ u ∈ ts.head?, ¬Operand u.form) :
    ∀ u ∈ (fuse ts).head?, ¬Operand u.form := by
  unfold fuse
  split
  · exact h
  · exact h
  · split
    · split
      · next f hf =>
        rintro _ ⟨⟩ hoperand
        rcases fused?_cases hf with ⟨_, rfl⟩ | ⟨n, _, rfl⟩ | ⟨x, _, rfl⟩ <;> cases hoperand
      · exact h
    · exact h

theorem settled_fuse (ts : List Token) : Settled (fuse ts) := by
  fun_induction fuse ts with
  | case1 => exact .nil
  | case2 t => exact .singleton t
  | case3 t u r ht f hf ih =>
    refine List.isChain_cons.2 ⟨fun v _ hmark => ?_, ih⟩
    rcases fused?_cases hf with ⟨_, rfl⟩ | ⟨n, _, rfl⟩ | ⟨x, _, rfl⟩ <;> cases hmark
  | case4 t u r ht hf ih =>
    have hu : ∀ v ∈ (u :: r).head?, ¬Operand v.form := by
      rintro _ ⟨⟩
      exact fused?_eq_none_iff.1 hf
    exact List.isChain_cons.2 ⟨fun v hv _ => not_operand_head_fuse hu v hv, ih⟩
  | case5 t u r ht ih => exact List.isChain_cons.2 ⟨fun v _ hmark => absurd hmark ht, ih⟩

theorem fuse_of_settled {ts : List Token} (h : Settled ts) : fuse ts = ts := by
  fun_induction fuse ts with
  | case1 => rfl
  | case2 t => rfl
  | case3 t u r ht f hf =>
    have hu := (List.isChain_cons_cons.1 h).1 ht
    cases hf.symm.trans (fused?_eq_none_iff.2 hu)
  | case4 t u r ht hf ih | case5 t u r ht ih => rw [ih (List.isChain_cons_cons.1 h).2]

@[simp] theorem fuse_eq_self {ts : List Token} (h : ∀ t ∈ ts, t.form ≠ .glyph .push) :
    fuse ts = ts := by
  refine fuse_of_settled (List.isChain_iff_forall_rel_of_append_cons_cons.2 ?_)
  intro t u a b hts hmark
  exact absurd hmark (h t (by simp [hts]))

/-- What a push marker has taken in a fused form. -/
def taken? : Form → Option Form
  | .pushInput => some (.glyph .input)
  | .pushNumber n => some (.number n)
  | .pushVariable x => some (.variable x)
  | _ => none

private theorem taken?_of_fused? {f g : Form} (h : fused? f = some g) : taken? g = some f := by
  rcases fused?_cases h with ⟨rfl, rfl⟩ | ⟨n, rfl, rfl⟩ | ⟨x, rfl, rfl⟩ <;> rfl

/-- The forms that are fused in a token, with the offsets of which it still knows. -/
def parts (t : Token) : List (Form × Option Nat) :=
  match taken? t.form with
  | some f => [(.glyph .push, some t.offset), (f, none)]
  | none => [(t.form, some t.offset)]

/-- The form is that of the token, and so is the offset if there is one. -/
def PartOf (p : Form × Option Nat) (t : Token) : Prop := p.1 = t.form ∧ ∀ o ∈ p.2, o = t.offset

theorem parts_of_taken?_eq_none {t : Token} (h : taken? t.form = none) :
    parts t = [(t.form, some t.offset)] := by
  rw [parts, h]

private theorem parts_of_fused? {f g : Form} (h : fused? f = some g) (o : Nat) :
    parts ⟨g, o⟩ = [(.glyph .push, some o), (f, none)] := by
  rw [parts, taken?_of_fused? h]

theorem partOf_self (t : Token) : PartOf (t.form, some t.offset) t := by
  refine ⟨rfl, ?_⟩
  rintro _ ⟨⟩
  rfl

private theorem partOf_taken (t : Token) : PartOf (t.form, none) t := ⟨rfl, by simp⟩

private theorem parts_fuse {ts : List Token} (h : ∀ t ∈ ts, taken? t.form = none) :
    List.Forall₂ PartOf ((fuse ts).flatMap parts) ts := by
  fun_induction fuse ts with
  | case1 => exact .nil
  | case2 t =>
    rw [List.flatMap_singleton, parts_of_taken?_eq_none (h t List.mem_cons_self)]
    exact .cons (partOf_self t) .nil
  | case3 t u r ht f hf ih =>
    have hr := ih fun v hv => h v (List.mem_cons_of_mem t (List.mem_cons_of_mem u hv))
    rw [List.flatMap_cons, parts_of_fused? hf, ← ht]
    exact .cons (partOf_self t) (.cons (partOf_taken u) hr)
  | case4 t u r ht hf ih | case5 t u r ht ih =>
    have hr := ih fun v hv => h v (List.mem_cons_of_mem t hv)
    rw [List.flatMap_cons, parts_of_taken?_eq_none (h t List.mem_cons_self)]
    exact .cons (partOf_self t) hr

/-- Fused tokens taken apart are the tokens before the fusion, in order: they have the same forms,
and the same offsets except where a push marker has taken what is behind it. After the fusion no
marker stands right before what it takes, and fusing once more changes nothing. -/
theorem fusion_forgets_taken_offsets (ts : List Token) :
    ((∀ t ∈ ts, taken? t.form = none) → List.Forall₂ PartOf ((fuse ts).flatMap parts) ts) ∧
      Settled (fuse ts) ∧ fuse (fuse ts) = fuse ts :=
  ⟨parts_fuse, settled_fuse ts, fuse_of_settled (settled_fuse ts)⟩

/-- A marker before a marker, a marker with nothing behind it, and all three that a marker takes. -/
theorem fusion_forgets_taken_offsets_among_markers :
    let x : Name := ⟨'x', rfl⟩
    let ts : List Token :=
      [⟨.glyph .push, 0⟩, ⟨.glyph .push, 1⟩, ⟨.number 5, 2⟩, ⟨.glyph .push, 3⟩, ⟨.variable x, 4⟩,
        ⟨.number 7, 5⟩, ⟨.glyph .push, 6⟩, ⟨.glyph .input, 7⟩, ⟨.glyph .push, 8⟩]
    let us : List Token :=
      [⟨.glyph .push, 0⟩, ⟨.pushNumber 5, 1⟩, ⟨.pushVariable x, 3⟩, ⟨.number 7, 5⟩, ⟨.pushInput, 6⟩,
        ⟨.glyph .push, 8⟩]
    fuse ts = us ∧ (∀ t ∈ ts, taken? t.form = none) ∧
      List.Forall₂ PartOf (us.flatMap parts) ts ∧ Settled us ∧ fuse us = us := by
  intro x ts us
  have hus : fuse ts = us := rfl
  have hts : ∀ t ∈ ts, taken? t.form = none := by decide
  have hfusion := fusion_forgets_taken_offsets ts
  rw [hus] at hfusion
  exact ⟨hus, hts, hfusion.1 hts, hfusion.2⟩

end BlueNexus.PushMarker
