import BlueNexus.Host.Recorder
import BlueNexus.Proofs.ExecutionRuns
import BlueNexus.Proofs.Lookahead

/-!
# Code executed in sequence

Code may be cut in two wherever no print is parted from the variable behind it: to execute the
whole is to execute the one part and, if it ends well, the other (`code_in_sequence`). Behind a
fault it does not matter what follows.
-/

namespace BlueNexus

open Machine Session Token

namespace Token

/-- No print at the end of the first tokens is about a variable at the front of the others. -/
def Parted (a b : List Token) : Prop :=
  ∀ t ∈ a.getLast?, t.form.prints = true → mention? b = none

instance (a b : List Token) : Decidable (Parted a b) :=
  inferInstanceAs (Decidable (∀ t ∈ a.getLast?, t.form.prints = true → mention? b = none))

variable {t : Token} {a b : List Token}

private theorem mention?_cons_append (t : Token) (a b : List Token) :
    mention? (t :: a ++ b) = mention? (t :: a) := by
  obtain ⟨form, o⟩ := t
  cases form <;> rfl

private theorem mention?_of_prints (h : t.form.prints = true) (a : List Token) :
    mention? (t :: a) = none := by
  refine mention?_eq_none fun x o us he => ?_
  cases he
  cases h

theorem Parted.of_suffix {a' : List Token} (h : Parted a b) (hs : a' <:+ a) : Parted a' b := by
  obtain ⟨front, rfl⟩ := hs
  intro t ht
  refine h t ?_
  rw [Option.mem_def] at ht ⊢
  rw [List.getLast?_append, ht]
  rfl

theorem Parted.mention?_append (h : Parted (t :: a) b) (hp : t.form.prints = true) :
    mention? a = mention? (a ++ b) := by
  cases a with
  | nil => exact (h t rfl hp).symm
  | cons u us => exact (mention?_cons_append u us b).symm

private theorem Parted.leave_append (h : Parted (t :: a) b) :
    t.leave (a ++ b) = t.leave a ++ b := by
  unfold leave
  by_cases hp : t.form.prints = true
  · rw [← h.mention?_append hp]
    cases a with
    | nil => simp [mention?]
    | cons u us =>
      split
      · rfl
      · rfl
  · simp [hp]

/-- Code in one piece, and the same code cut in two. -/
inductive Cut : List Task → List Task → Prop
  | code (depth) {a b : List Token} (h : Parted a b) :
      Cut [.code depth (a ++ b)] [.code depth a, .code depth b]

end Token

variable {σ : Type} [Host σ] {limit : Nat} {c c' : Context σ} {a b : List Token}
  {r : Option Fault}

theorem sideBySide_cut : SideBySide limit (@Behind σ Cut) := by
  refine sideBySide_behind ?_
  rintro _ _ (@⟨depth, a, b, h⟩) s host calls hs
  cases a with
  | nil =>
    have hover : step limit ⟨[.code depth [], .code depth b], s⟩ = .silent ⟨[.code depth b], s⟩ :=
      step_eq_of_steps (.codeOver depth _ s) hs
    exact .behind ⟨rfl, rfl, rfl⟩ (congrArg (move _) hover) (.refl .same _)
  | cons t a =>
    obtain ⟨m, hm, htoken⟩ := (steps_step limit ⟨[.code depth (t :: (a ++ b))], s⟩).token
    have hcut : step limit ⟨[.code depth (t :: a), .code depth b], s⟩ =
        m.before [.code depth (t.leave a), .code depth b] :=
      step_eq_of_steps (htoken a [.code depth b] h.mention?_append) hs
    have hleave : t.leave a <:+ t :: a := leave_suffix_of.trans (List.suffix_cons t a)
    rw [h.leave_append] at hm
    exact .inStep (.of_moves (s := ⟨⟨[], s⟩, host, calls⟩) hm hcut fun s' =>
      .over s' (.code depth (h.of_suffix hleave)))

theorem beside_cut (c : Context σ) (h : Parted a b) :
    Beside limit (Behind Cut) (c.session [.code c.depth (a ++ b)])
      (c.session [.code c.depth a, .code c.depth b]) :=
  sideBySide_cut (.over (c.session []) (.code c.depth h))

theorem executes_append_iff (hc : c.Running) (h : Parted a b) :
    Executes limit (.code (a ++ b)) c c' r ↔
      (∃ e, r = some e ∧ Executes limit (.code a) c c' (some e)) ∨
        ∃ c₁, Executes limit (.code a) c c₁ none ∧ Executes limit (.code b) c₁ c' r := by
  rw [executes_iff_ends, (beside_cut c h).ends_iff sideBySide_cut]
  constructor
  · rintro ⟨hd, hends⟩
    rcases (ends_behind_iff hc hd).1 hends with hfault | ⟨c₁, ha, tasks, hb⟩
    · exact .inl hfault
    · rw [← ha.depth_eq] at hd hb
      exact .inr ⟨c₁, ha, executes_iff_ends.2 ⟨hd, tasks, hb⟩⟩
  · rintro (⟨e, rfl, ha⟩ | ⟨c₁, ha, hb⟩)
    · exact ⟨ha.depth_eq, (ends_behind_iff hc ha.depth_eq).2 (.inl ⟨e, rfl, ha⟩)⟩
    · have hd : c'.depth = c.depth := hb.depth_eq.trans ha.depth_eq
      obtain ⟨-, hends⟩ := executes_iff_ends.1 hb
      rw [ha.depth_eq] at hends
      exact ⟨hd, (ends_behind_iff hc hd).2 (.inr ⟨c₁, ha, hends⟩)⟩

private theorem comesTo_append_iff (hc : c.Running) (h : Parted a b) :
    c.ComesTo limit (a ++ b) c' ↔
      c.ComesTo limit a c' ∨
        ∃ c₁, Executes limit (.code a) c c₁ none ∧ c₁.ComesTo limit b c' := by
  rw [Context.ComesTo, (beside_cut c h).reaches_iff sideBySide_cut, reaches_behind_iff hc]
  constructor
  · rintro (ha | ⟨c₁, ha, hb⟩)
    · exact .inl ha
    · rw [← ha.depth_eq] at hb
      exact .inr ⟨c₁, ha, hb⟩
  · rintro (ha | ⟨c₁, ha, hb⟩)
    · exact .inl ha
    · rw [Context.ComesTo, ha.depth_eq] at hb
      exact .inr ⟨c₁, ha, hb⟩

omit [Host σ] in
theorem Form.Nests.prints {f : Form} {s : State} {w : Work} {after : State → State}
    (h : f.Nests limit s w after) : f.prints = false := by
  cases h <;> rfl

theorem not_fault_of_prints {t : Token} {e : Fault} (ht : t.form.prints = true) :
    ¬Executes limit (.code [t]) c c' (some e) := by
  have alone : ∀ {us : List Token} {c₁ : Context σ}, us <:+ [] →
      ¬Executes limit (.code us) c₁ c' (some e) := by
    intro us c₁ hus h
    obtain rfl := List.suffix_nil.1 hus
    cases (Executes.of_nil.1 h).2
  intro h
  cases h with
  | does _ h hs =>
    cases h with
    | act us h => exact Bool.false_ne_true (h.prints.symm.trans ht)
    | ask us h => exact Bool.false_ne_true (h.prints.symm.trans ht)
    | snapshot us h => exact Bool.false_ne_true (h.prints.symm.trans ht)
    | print o h => exact alone h.suffix hs
    | printNothing o h => exact alone h.suffix hs
  | misses _ h =>
    cases h
    cases ht
  | nests _ h => exact Bool.false_ne_true (h.prints.symm.trans ht)
  | nestsFault _ h => exact Bool.false_ne_true (h.prints.symm.trans ht)

theorem Executes.append_of_fault {e : Fault} (hc : c.Running)
    (h : Executes limit (.code a) c c' (some e)) (us : List Token) :
    Executes limit (.code (a ++ us)) c c' (some e) := by
  by_cases hp : Parted a us
  · exact (executes_append_iff hc hp).2 (.inl ⟨e, rfl, h⟩)
  · -- The last of the tokens is a print, so it is one in front of it that fails.
    obtain ⟨t, ht, hprints, -⟩ : ∃ t ∈ a.getLast?, t.form.prints = true ∧ mention? us ≠ none := by
      simpa [Parted] using hp
    obtain ⟨front, rfl⟩ := List.getLast?_eq_some_iff.1 ht
    have apart : ∀ vs, Parted front (t :: vs) := fun vs _ _ _ => mention?_of_prints hprints vs
    rcases (executes_append_iff hc (apart [])).1 h with ⟨e', he, hfront⟩ | ⟨c₁, -, hlast⟩
    · rw [he, List.append_assoc]
      exact (executes_append_iff hc (apart us)).2 (.inl ⟨e', rfl, hfront⟩)
    · exact absurd hlast (not_fault_of_prints hprints)

/-- To execute tokens is to execute those in front and then, if they end well, those behind, unless
a print is parted from its variable. Behind tokens that fail it does not matter what stands. -/
theorem code_in_sequence (limit : Nat) (c : Context σ) (a b : List Token) (hc : c.Running)
    (hab : Parted a b) :
    (∀ c' r, Executes limit (.code (a ++ b)) c c' r ↔
      (∃ e, r = some e ∧ Executes limit (.code a) c c' (some e)) ∨
        ∃ c₁, Executes limit (.code a) c c₁ none ∧ Executes limit (.code b) c₁ c' r) ∧
    (∀ c', c.ComesTo limit (a ++ b) c' ↔
      c.ComesTo limit a c' ∨
        ∃ c₁, Executes limit (.code a) c c₁ none ∧ c₁.ComesTo limit b c') ∧
    ∀ c' e, Executes limit (.code a) c c' (some e) → ∀ us c'' r,
      Executes limit (.code (a ++ us)) c c'' r ↔ c'' = c' ∧ r = some e := by
  refine ⟨fun _ _ => executes_append_iff hc hab, fun _ => comesTo_append_iff hc hab, ?_⟩
  intro c' e h us c'' r
  have happend := h.append_of_fault hc us
  constructor
  · intro h'
    exact h'.unique happend
  · rintro ⟨rfl, rfl⟩
    exact happend

theorem code_in_sequence_behind_print :
    let c : Context Recorder := ⟨0, {}, { queue := [] }, []⟩
    let a : List Token := [⟨.number 1, 0⟩, ⟨.glyph .printNumber, 1⟩]
    let b : List Token := [⟨.number 2, 2⟩]
    c.Running ∧ Parted a b ∧ ∃ c₁ c' : Context Recorder,
      Executes 1 (.code a) c c₁ none ∧ c₁.calls = [.notice (.output ['1'])] ∧
      Executes 1 (.code b) c₁ c' none ∧ c'.state.stack.toList = [1, 2] ∧
      Executes 1 (.code (a ++ b)) c c' none := by
  intro c a b
  have hprint : Glyph.Prints .printNumber [] (c.state.push 1) (some ['1']) [] (c.state.push 1) :=
    .topNumber (c.state.push 1) (by simp)
  let c₁ : Context Recorder :=
    ((c.put (c.state.push 1)).put ((c.state.push 1).print ['1'])).hear (.notice (.output ['1']))
  have ha : Executes 1 (.code a) c c₁ none :=
    .does rfl (.act _ (.number 1 _)) (.does rfl (.print 1 hprint) (.finished c₁))
  have hb : Executes 1 (.code b) c₁ (c₁.put (c₁.state.push 2)) none :=
    .does rfl (.act [] (.number 2 _)) (.finished _)
  have happend := (code_in_sequence 1 c a b rfl (by decide)).1 (c₁.put (c₁.state.push 2)) none
  exact ⟨rfl, by decide, c₁, _, ha, rfl, hb, rfl, happend.2 (.inr ⟨c₁, ha, hb⟩)⟩

end BlueNexus
