import BlueNexus.Host.Recorder
import BlueNexus.Proofs.ExecutionRuns
import BlueNexus.Proofs.RotatingValues
import BlueNexus.Proofs.VariableMarks

/-!
# What a run leaves of a variable

Code that spares a variable makes no change of it that is not allowed, whatever it nests and however
it ends (`Executes.within`). So without an assignment a variable stays bound or unbound, without a
removal of its front its elements do no more than rotate, and without a rotation it stays as it is
(`variable_framed`).
-/

namespace BlueNexus

/-- The variable is bound in both tables or in neither, and its value has become what it may. -/
def Bindings.Within (l : Leeway) (x : Name) (t t' : Bindings) : Prop :=
  Option.Rel l.rel (t.get? x) (t'.get? x)

variable {l : Leeway} {x y : Name}

namespace Bindings

variable {t t' t'' : Bindings}

theorem Within.refl (l : Leeway) (x : Name) (t : Bindings) : t.Within l x t := by
  rw [Within]
  cases t.get? x with
  | none => exact .none
  | some v => exact .some (l.refl v)

theorem Within.trans (h : t.Within l x t') (h' : t'.Within l x t'') : t.Within l x t'' := by
  rw [Within] at h h' ⊢
  generalize t.get? x = a at *
  generalize t'.get? x = b at *
  generalize t''.get? x = d at *
  cases h with
  | none => exact h'
  | some h =>
    cases h' with
    | some h' => exact .some (l.trans h h')

theorem Within.of_eq (h : t'.get? x = t.get? x) : t.Within l x t' := by
  rw [Within, h]
  exact Within.refl l x t

theorem within_set (hne : y ≠ x) (v : Value) (t : Bindings) : t.Within l x (t.set y v) :=
  .of_eq (by simp [hne])

theorem Stores.within (h : t.Stores y t') (hne : y ≠ x) : t.Within l x t' := by
  cases h with
  | nothing => exact Within.refl l x t
  | scalar n => exact within_set hne _ t

theorem within_init (hne : y ≠ x) (v : Value) (t : Bindings) : t.Within l x (t.init y v) :=
  .of_eq (by simp [hne])

theorem within_update {f : Value → Value} (hf : y = x → ∀ v, l.rel v (f v)) (t : Bindings) :
    t.Within l x (t.update y f) := by
  by_cases hx : y = x
  · rw [Within, get?_update, if_pos hx]
    cases t.get? x with
    | none => exact .none
    | some v => exact .some (hf hx v)
  · exact .of_eq (by simp [hx])

end Bindings

open Bindings

variable {limit : Nat} {s s' : State} {f : Form}

private theorem State.within_drop {param : Text} (hp : param = [x.letter] → l.Drops) (s : State) :
    s.variables.Within l x (s.drop param).variables := by
  obtain ⟨stack, h⟩ | ⟨y, hy, h⟩ := s.drop_cases param
  · rw [h]
    exact Within.refl l x _
  · rw [h]
    apply within_update
    rintro rfl
    exact hp hy

theorem Form.Acts.within (h : f.Acts limit s s') (hf : f.Spares l x) :
    s.variables.Within l x s'.variables := by
  cases h with
  | @pushVariable y s v h =>
    cases v.front? with
    | none => exact Within.refl l x _
    | some n => exact within_update hf _
  | copy y s => exact (s.stores_copyInto y).within hf
  | assign y s => exact within_set hf _ _
  | append y s => exact (within_init hf _ _).trans (within_update (absurd · hf) _)
  | expression y t s => exact (within_init hf _ _).trans (within_update (absurd · hf) _)
  | drop param s => exact s.within_drop hf
  | rotate y s => exact within_update hf _
  | _ => exact Within.refl l x _

theorem Form.Asks.within {resume : Int64 → State} (h : f.Asks limit s resume) (hf : f.Spares l x)
    (n : Int64) : s.variables.Within l x (resume n).variables := by
  cases h with
  | pushInput => exact Within.refl l x _
  | input y => exact within_set hf _ _
  | appendInput y =>
    exact (Assignment.stores_appendInput y n s.variables).within hf

theorem Glyph.Prints.within {g : Glyph} {o : Nat} {ts us : List Token} {t : Option Text}
    (h : g.Prints ts s t us s') (hs : (⟨.glyph g, o⟩ : Token).Spares l x ts) :
    s.variables.Within l x s'.variables := by
  cases h with
  | @front y s v o ts h =>
    apply within_update
    rintro rfl
    exact hs.printed rfl o us rfl
  | _ => exact Within.refl l x _

/-- No work within the work makes a change of the variable that is not allowed. A predicate makes no
change at all. -/
def Work.Spares (l : Leeway) (x : Name) : Work → Prop
  | .code ts => Token.ListSpares l x ts
  | .fragment f => f.text.Spares l x
  | .guarded _ command | .loop _ command | .times _ command => command.text.Spares l x

theorem Form.Nests.spares {w : Work} {after : State → State} {t : Token} {ts : List Token}
    (h : t.form.Nests limit s w after) (ht : t.Spares l x ts) : w.Spares l x := by
  obtain ⟨form, o⟩ := t
  have hcarried := ht.carried
  cases h with
  | block => exact hcarried _ (by simp [fragments])
  | once | whilst | each => exact hcarried _ (by simp [fragments])

theorem Form.Nests.within {w : Work} {after : State → State} (h : f.Nests limit s w after)
    (hf : f.Spares l x) (s' : State) : s'.variables.Within l x (after s').variables := by
  cases h with
  | block y => exact (s'.stores_popInto y).within hf
  | _ => exact Within.refl l x _

variable {σ : Type} [Host σ] {c c' : Context σ} {w : Work} {r : Option Fault}

theorem Token.Does.within {ts us : List Token} (h : Token.Does limit ts c us c')
    (hs : Token.ListSpares l x ts) : c.state.variables.Within l x c'.state.variables := by
  cases h with
  | act us h => exact h.within (hs _ us List.suffix_rfl).form
  | ask us h => exact h.within (hs _ us List.suffix_rfl).form _
  | snapshot => exact Within.refl l x _
  | print o h => exact h.within (hs _ _ List.suffix_rfl)
  | printNothing o h => exact h.within (hs _ _ List.suffix_rfl)

theorem Token.Does.suffix {ts us : List Token} (h : Token.Does limit ts c us c') : us <:+ ts := by
  cases h with
  | act us | ask us | snapshot us => exact List.suffix_cons _ us
  | print o h | printNothing o h => exact h.suffix.trans (List.suffix_cons _ _)

theorem Executes.within (h : Executes limit w c c' r) (hw : w.Spares l x) :
    c.state.variables.Within l x c'.state.variables := by
  induction h with
  | does hc h hs ih => exact (h.within hw).trans (ih (hw.of_suffix h.suffix))
  | @nests t ts c w after c₁ c' r hc h hs hs' ih ih' =>
    -- What is done with the result is up to the form of the token, and not to the work within it.
    have ht := hw t ts List.suffix_rfl
    have hnested := (ih (h.spares ht)).trans (h.within ht.form c₁.state)
    exact hnested.trans (ih' (hw.of_suffix (List.suffix_cons t ts)))
  | nestsFault hc h hs ih => exact ih (h.spares (hw _ _ List.suffix_rfl))
  | entered h hd hs ih => exact ih (Fragment.listSpares_of_tokens h hw)
  | holding h hs ih => exact ih hw
  | again h hs hs' ih ih' => exact (ih hw).trans (ih' hw)
  | againFault h hs ih => exact ih hw
  | times hs hs' ih ih' => exact (ih hw).trans (ih' hw)
  | timesFault n hs ih => exact ih hw
  | _ => exact Within.refl l x _

/-- The same scalar, or a rotation of the sequence. -/
inductive Value.Turns : Value → Value → Prop
  | scalar (n) : Turns (.scalar n) (.scalar n)
  | sequence {a b} (h : a ~r b) : Turns (.sequence a) (.sequence b)

theorem Value.turns_rotate (v : Value) : v.Turns v.rotate := by
  cases v with
  | scalar n => exact .scalar n
  | sequence items =>
    rw [rotate_sequence]
    exact .sequence ⟨1, rfl⟩

namespace Leeway

def still : Leeway := ⟨Eq, fun _ => rfl, Eq.trans⟩

def turning : Leeway where
  rel := Value.Turns
  refl v := by
    cases v with
    | scalar n => exact .scalar n
    | sequence items => exact .sequence (List.IsRotated.refl items)
  trans h h' := by
    cases h with
    | scalar n => exact h'
    | sequence h =>
      cases h' with
      | sequence h' => exact .sequence (h.trans h')

def any : Leeway := ⟨fun _ _ => True, fun _ => trivial, fun _ _ => trivial⟩

end Leeway

namespace Text.Spares

variable {t : Text}

theorem turning (ha : ¬['>', x.letter] <:+: t) (hd : ¬['[', x.letter, ']'] <:+: t) :
    t.Spares .turning x :=
  ⟨ha, fun h => absurd h hd, fun _ => Value.turns_rotate⟩

theorem still (ha : ¬['>', x.letter] <:+: t) (hd : ¬['[', x.letter, ']'] <:+: t)
    (hr : ¬['$', x.letter] <:+: t) : t.Spares .still x :=
  ⟨ha, fun h => absurd h hd, fun h => absurd h hr⟩

theorem any (ha : ¬['>', x.letter] <:+: t) : t.Spares .any x :=
  ⟨ha, fun _ _ => trivial, fun _ _ => trivial⟩

end Text.Spares

theorem Bindings.Within.eq {t t' : Bindings} (h : t.Within .still x t') :
    t'.get? x = t.get? x := by
  rw [Within] at h
  generalize t.get? x = a at *
  generalize t'.get? x = b at *
  cases h with
  | none => rfl
  | some h => exact congrArg some h.symm

private theorem Bindings.Within.eq_none {t t' : Bindings} (h : t.Within l x t')
    (ht : t.get? x = none) : t'.get? x = none := by
  rw [Within, ht] at h
  generalize t'.get? x = b at *
  cases h
  rfl

/-- Without an assignment and a removal from it a variable stays unbound, keeps its integer, or
holds a rotation of its sequence, and without a rotation it stays as it is. So a variable is bound
at the end of a run only if the source assigns to it. -/
theorem variable_framed (limit : Nat) (x : Name) :
    (∀ (f : Fragment) (c c' : Context σ) r, Executes limit (.fragment f) c c' r →
      ¬['>', x.letter] <:+: f.text → ¬['[', x.letter, ']'] <:+: f.text →
        Option.Rel Value.Turns (c.state.variables.get? x) (c'.state.variables.get? x) ∧
        (¬['$', x.letter] <:+: f.text →
          c'.state.variables.get? x = c.state.variables.get? x)) ∧
    (∀ source ts (c c' : Context σ) r, programTokens limit source = .ok ts →
      Executes limit (.code ts) c c' r → ¬['>', x.letter] <:+: (Fragment.ofSource source).text →
      ¬['[', x.letter, ']'] <:+: (Fragment.ofSource source).text →
        Option.Rel Value.Turns (c.state.variables.get? x) (c'.state.variables.get? x) ∧
        (¬['$', x.letter] <:+: (Fragment.ofSource source).text →
          ¬['▲', x.letter] <:+: (Fragment.ofSource source).text →
          c'.state.variables.get? x = c.state.variables.get? x)) ∧
    ∀ settings source (host : σ) steps report,
      runProgram settings source host steps = some report →
      report.state.variables.get? x ≠ none →
        ['>', x.letter] <:+: (Fragment.ofSource source).text := by
  refine ⟨fun f c c' r h ha hd => ⟨?_, fun hr => ?_⟩,
    fun source ts c c' r hts h ha hd => ⟨?_, fun hr hp => ?_⟩, ?_⟩
  · exact h.within (.turning ha hd)
  · exact (h.within (.still ha hd hr)).eq
  · exact h.within (listSpares_of_programTokens hts (.turning ha hd) fun _ => Value.turns_rotate)
  · exact (h.within (listSpares_of_programTokens hts (.still ha hd hr) (absurd · hp))).eq
  · intro settings source host steps report hrun hx
    by_contra ha
    rcases exists_runProgram_iff.1 ⟨steps, hrun⟩ with ⟨e, -, rfl⟩ | ⟨ts, z, r, hts, hz, rfl⟩
    · exact hx rfl
    · have hexec : Executes settings.limit (.code ts) ⟨0, {}, host, []⟩
          ⟨0, z.machine.state, z.host, z.calls⟩ r :=
        executes_iff_ends.2 ⟨rfl, z.machine.tasks, hz⟩
      have hwithin := hexec.within (listSpares_of_programTokens hts (.any ha) fun _ _ => trivial)
      have hreport : (z.report settings r).state.variables = z.machine.state.variables :=
        z.variables_conclude settings r
      rw [hreport] at hx
      exact hx (hwithin.eq_none rfl)

theorem variable_framed_in_rotation :
    let x : Name := ⟨'x', rfl⟩
    let y : Name := ⟨'y', rfl⟩
    let c : Context Recorder :=
      ⟨0, ({} : State).assign x (.sequence [72, 105]), { queue := [] }, []⟩
    (∃ c' r, Executes 64 (.fragment ⟨['$', 'x', '1'], 0, []⟩) c c' r ∧
      c'.state.stack.toList = [1] ∧
      Option.Rel Value.Turns (c.state.variables.get? x) (c'.state.variables.get? x) ∧
      c'.state.variables.get? y = c.state.variables.get? y) ∧
    (∃ ts c' r, programTokens 64 ['▲', 'x'] = .ok ts ∧ Executes 64 (.code ts) c c' r ∧
      c'.state.stack.toList = [72] ∧
      Option.Rel Value.Turns (c.state.variables.get? x) (c'.state.variables.get? x) ∧
      c'.state.variables.get? y = c.state.variables.get? y) ∧
    ∃ report, runProgram {} ['>', ' ', 'x', '5', '<'] ({ queue := [] } : Recorder) 9 = some report ∧
      report.state.variables.get? x ≠ none ∧ ['>', 'x'] <:+: ['>', 'x', '5', '<'] := by
  intro x y c
  refine ⟨?_, ?_, ?_⟩
  · have hread : Fragment.tokens 64 ⟨['$', 'x', '1'], 0, []⟩ =
        .ok [⟨.glyph .printChar, 0⟩, ⟨.variable x, 1⟩, ⟨.number 1, 2⟩] := rfl
    have hbound : c.deeper.state.variables.get? x = some (.sequence [72, 105]) := rfl
    have hprint : Glyph.printChar.Prints [⟨.variable x, 1⟩, ⟨.number 1, 2⟩] c.deeper.state
        (some ['H']) [⟨.number 1, 2⟩] (c.deeper.state.rotate x) := .front 1 _ hbound
    have hexec : Executes 64 (.fragment ⟨['$', 'x', '1'], 0, []⟩) c _ none :=
      .entered hread (by decide) <|
        .does rfl (.print 0 hprint) <| .does rfl (.act [] (.number 1 _)) (.finished _)
    have hx := (variable_framed 64 x).1 _ c _ none hexec (by decide) (by decide)
    have hy := (variable_framed 64 y).1 _ c _ none hexec (by decide) (by decide)
    exact ⟨_, none, hexec, rfl, hx.1, hy.2 (by decide)⟩
  · have hts : programTokens 64 ['▲', 'x'] = .ok [⟨.pushVariable x, 0⟩] := rfl
    have hexec : Executes 64 (.code [⟨.pushVariable x, 0⟩]) c _ none :=
      .does rfl (.act [] (.pushVariable rfl)) (.finished _)
    have hx := (variable_framed 64 x).2.1 _ _ c _ none hts hexec (by decide) (by decide)
    have hy := (variable_framed 64 y).2.1 _ _ c _ none hts hexec (by decide) (by decide)
    exact ⟨_, _, none, hts, hexec, rfl, hx.1, hy.2 (by decide) (by decide)⟩
  · obtain ⟨report, hr, hbound⟩ : ∃ report,
        runProgram {} ['>', ' ', 'x', '5', '<'] ({ queue := [] } : Recorder) 9 = some report ∧
          report.state.variables.get? x ≠ none := ⟨_, rfl, by decide⟩
    exact ⟨report, hr, hbound, (variable_framed 64 x).2.2 {} _ _ 9 report hr hbound⟩

end BlueNexus
