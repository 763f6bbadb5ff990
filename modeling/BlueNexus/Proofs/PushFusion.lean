import BlueNexus.Host.Recorder
import BlueNexus.Proofs.ExecutionRuns
import BlueNexus.Proofs.Lookahead
import BlueNexus.Proofs.PushMarkers
import Mathlib.Data.List.Chain

/-!
# Executing fused push markers

A push marker in front of a number does nothing, and the number is pushed all the same. So code in
which no marker stands right before an input request or a variable is executed alike before it is
fused and after (`fused_code_executes_alike`). Where the fused code takes one step over a marker,
the unfused code takes two.
-/

namespace BlueNexus

open Token

namespace PushMarker

/-- No push marker stands right before what it could take, numbers apart. -/
def Inert (ts : List Token) : Prop :=
  ts.IsChain fun t u => t.form = .glyph .push → u.form ≠ .glyph .input ∧ ∀ x, u.form ≠ .variable x

instance (f : Form) : Decidable (∀ x, f ≠ .variable x) :=
  decidable_of_iff (mention? [⟨f, 0⟩] = none) (by cases f <;> simp [mention?])

instance (ts : List Token) : Decidable (Inert ts) := inferInstanceAs (Decidable (List.IsChain _ _))

variable {t : Token} {ts : List Token}

theorem Inert.of_suffix {us : List Token} (h : Inert ts) (hs : us <:+ ts) : Inert us := h.suffix hs

@[simp] theorem fuse_variable (x : Name) (o : Nat) (us : List Token) :
    fuse (⟨.variable x, o⟩ :: us) = ⟨.variable x, o⟩ :: fuse us := by
  cases us with
  | nil => rfl
  | cons u us => rw [fuse, if_neg (by simp)]

theorem Inert.fuse_cons (h : Inert (t :: ts)) :
    fuse (t :: ts) = t :: fuse ts ∨ ∃ n o us, t.form = .glyph .push ∧ ts = ⟨.number n, o⟩ :: us ∧
      fuse (t :: ts) = ⟨.pushNumber n, t.offset⟩ :: fuse us := by
  cases ts with
  | nil => exact .inl rfl
  | cons u us =>
    obtain ⟨form, o⟩ := u
    have hu := (List.isChain_cons_cons.1 h).1
    rw [fuse]
    split
    · next ht =>
      split
      · next f hf =>
        rcases fused?_cases hf with ⟨hi, _⟩ | ⟨n, hn, hp⟩ | ⟨x, hx, _⟩
        · exact absurd hi (hu ht).1
        · dsimp only at hn
          subst hn hp
          exact .inr ⟨n, o, us, ht, rfl, rfl⟩
        · exact absurd hx ((hu ht).2 x)
      · exact .inl rfl
    · exact .inl rfl

@[simp] theorem mention?_fuse (ts : List Token) : mention? (fuse ts) = mention? ts := by
  cases h : mention? ts with
  | some p =>
    obtain ⟨us, rfl⟩ := mention?_eq_some_iff.1 h
    rw [fuse_variable]
    rfl
  | none =>
    refine mention?_eq_none fun x o us hf => ?_
    obtain ⟨vs, rfl, -⟩ := eq_of_fuse_variable hf
    cases h

private theorem leave_fuse (t : Token) (ts : List Token) :
    t.leave (fuse ts) = fuse (t.leave ts) := by
  unfold leave
  rw [mention?_fuse]
  split
  · next h =>
    obtain ⟨⟨x, o⟩, hm⟩ := Option.isSome_iff_exists.1 h.2
    obtain ⟨us, rfl⟩ := mention?_eq_some_iff.1 hm
    rw [fuse_variable]
    rfl
  · rfl

/-- Fused code, and the same code before it is fused. -/
inductive Fuses : List Task → List Task → Prop
  | code (depth) {ts : List Token} (h : Inert ts) :
      Fuses [.code depth (fuse ts)] [.code depth ts]

variable {σ : Type} [Host σ] {limit : Nat}

open Machine Session

theorem sideBySide_fuses : SideBySide limit (@Behind σ Fuses) := by
  refine sideBySide_behind ?_
  rintro _ _ (@⟨depth, ts, h⟩) s host calls hs
  cases ts with
  | nil => exact .inStep (.refl .same _)
  | cons t ts =>
    rcases h.fuse_cons with hf | ⟨k, o, us, hmark, rfl, hf⟩
    · obtain ⟨m, hm, htoken⟩ := (steps_step limit ⟨[.code depth (t :: fuse ts)], s⟩).token
      have hplain : step limit ⟨[.code depth (t :: ts)], s⟩ =
          m.before [.code depth (t.leave ts)] :=
        step_eq_of_steps (htoken ts [] fun _ => (mention?_fuse ts).symm) hs
      have hleave : t.leave ts <:+ t :: ts := leave_suffix_of.trans (List.suffix_cons t ts)
      rw [leave_fuse] at hm
      rw [hf]
      exact .inStep (.of_moves (s := ⟨⟨[], s⟩, host, calls⟩) hm hplain fun s' =>
        .over s' (.code depth (h.of_suffix hleave)))
    · obtain ⟨form, p⟩ := t
      dsimp only at hmark
      subst hmark
      -- The unfused code steps over the marker first and then pushes the number.
      have hfused : step limit ⟨[.code depth (⟨.pushNumber k, p⟩ :: fuse us)], s⟩ =
          .silent ⟨[.code depth (fuse us)], s.push k⟩ :=
        step_eq_of_steps (.act depth _ [] (.pushNumber k s)) hs
      have hmarker : step limit ⟨[.code depth (⟨.glyph .push, p⟩ :: ⟨.number k, o⟩ :: us)], s⟩ =
          .silent ⟨[.code depth (⟨.number k, o⟩ :: us)], s⟩ :=
        step_eq_of_steps (.act depth _ [] (.operate s (by simp))) hs
      have hnumber : step limit ⟨[.code depth (⟨.number k, o⟩ :: us)], s⟩ =
          .silent ⟨[.code depth us], s.push k⟩ :=
        step_eq_of_steps (.act depth _ [] (.number k s)) hs
      have hus : us <:+ ⟨.glyph .push, p⟩ :: ⟨.number k, o⟩ :: us :=
        (List.suffix_cons _ us).trans (List.suffix_cons _ _)
      rw [hf]
      refine .behind ⟨rfl, rfl, rfl⟩ (congrArg (move _) hmarker) ?_
      exact .of_moves (s := ⟨⟨[], s⟩, host, calls⟩) (m := .silent ⟨[], s.push k⟩) hfused hnumber
        fun s' => .over s' (.code depth (h.of_suffix hus))

end PushMarker

open PushMarker

variable {σ : Type} [Host σ]

/-- Fusing the push markers changes nothing that the code does, whether it ends or not, unless a
marker stands right before an input request or a variable. -/
theorem fused_code_executes_alike (limit : Nat) (c : Context σ) (ts : List Token) (h : Inert ts) :
    (∀ c' r, Executes limit (.code (fuse ts)) c c' r ↔ Executes limit (.code ts) c c' r) ∧
      ∀ c', c.ComesTo limit (fuse ts) c' ↔ c.ComesTo limit ts c' := by
  have hbeside : Session.Beside limit (Session.Behind Fuses) (c.session [.code c.depth (fuse ts)])
      (c.session [.code c.depth ts]) := sideBySide_fuses (.over (c.session []) (.code c.depth h))
  constructor
  · intro c' r
    rw [executes_iff_ends, executes_iff_ends, hbeside.ends_iff sideBySide_fuses]
  · exact fun c' => hbeside.reaches_iff sideBySide_fuses

theorem fused_code_executes_alike_before_print :
    let c : Context Recorder := ⟨0, {}, { queue := [] }, []⟩
    let x : Name := ⟨'x', rfl⟩
    let ts : List Token :=
      [⟨.glyph .push, 0⟩, ⟨.number 5, 1⟩, ⟨.glyph .printNumber, 2⟩, ⟨.variable x, 3⟩]
    Inert ts ∧ (fuse ts).length = 3 ∧ ∃ c' : Context Recorder, c'.state.stack.toList = [5] ∧
      Executes 1 (.code ts) c c' (some (.undefinedVariable 3 x)) ∧
      Executes 1 (.code (fuse ts)) c c' (some (.undefinedVariable 3 x)) := by
  intro c x ts
  have hfused : Executes 1 (.code (fuse ts)) c (c.put (c.state.push 5))
      (some (.undefinedVariable 3 x)) :=
    .does rfl (.act _ (.pushNumber 5 c.state)) (.misses rfl (.print 2 3 [] (.inl rfl) rfl))
  have halike := (fused_code_executes_alike 1 c ts (by decide)).1 (c.put (c.state.push 5))
  exact ⟨by decide, rfl, _, rfl, (halike _).1 hfused, hfused⟩

end BlueNexus
