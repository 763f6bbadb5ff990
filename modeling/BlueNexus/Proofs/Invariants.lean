import BlueNexus.Proofs.MachineRules
import BlueNexus.Proofs.PushMarkers
import BlueNexus.Proofs.SessionRuns
import BlueNexus.Proofs.TokenScan

/-!
# Invariants of runs

A condition on states that every form keeps, given a condition on the token and the fragments in it,
holds throughout a run of a program that meets these (`Machine.Invariant.occurs`). What there is to
show of a form is local: what becomes of the state, and what is read from the fragments.
-/

namespace BlueNexus

namespace Machine

/-- Conditions on tokens, on fragments and on states that execution keeps. -/
structure Invariant (limit : Nat) (T : Token → Prop) (F : Fragment → Prop) (S : State → Prop) :
    Prop where
  carried {t} (ht : T t) : ∀ f ∈ t.form.fragments, F f
  read {f ts} (hf : F f) (h : f.tokens limit = .ok ts) : ∀ t ∈ ts, T t
  fused {t u} (hu : T u) (h : PushMarker.fused? u.form = some t.form) : T t
  acts {t s s'} (ht : T t) (hs : S s) (h : t.form.Acts limit s s') : S s'
  asks {t s resume} (ht : T t) (hs : S s) (h : t.form.Asks limit s resume) (n : Int64) :
    S (resume n)
  prints {g ts us s text s'} (hs : S s) (h : Glyph.Prints g ts s text us s') : S s'
  printed {s} (text : Text) (hs : S s) : S (s.print text)
  stores {s} (x : Name) (hs : S s) : S (s.popInto x)

end Machine

variable {limit : Nat} {T : Token → Prop} {F : Fragment → Prop} {S : State → Prop}

def Task.Meets (T : Token → Prop) (F : Fragment → Prop) : Task → Prop
  | .code _ ts => ∀ t ∈ ts, T t
  | .store _ => True
  | .loop _ _ command | .times _ _ command => F command

theorem Task.Meets.front {depth : Nat} {t : Token} {ts : List Token} {rest : List Task}
    (h : ∀ u ∈ Task.code depth (t :: ts) :: rest, u.Meets T F) : T t :=
  h _ List.mem_cons_self _ List.mem_cons_self

/-- So do the tasks that are left behind it, of whose tokens some may be gone too. -/
theorem Task.Meets.behind {depth : Nat} {t : Token} {ts us : List Token} {rest : List Task}
    (hsuffix : us <:+ ts) (h : ∀ u ∈ Task.code depth (t :: ts) :: rest, u.Meets T F) :
    ∀ u ∈ Task.code depth us :: rest, u.Meets T F := by
  obtain ⟨hcode, hrest⟩ := List.forall_mem_cons.1 h
  refine List.forall_mem_cons.2 ⟨?_, hrest⟩
  exact fun u hu => hcode u (List.mem_cons_of_mem t (hsuffix.mem hu))

namespace Machine

open Task.Meets

structure Meets (T : Token → Prop) (F : Fragment → Prop) (S : State → Prop) (m : Machine) :
    Prop where
  tasks : ∀ t ∈ m.tasks, t.Meets T F
  state : S m.state

variable {tasks rest past : List Task} {s : State} {m : Move} {depth : Nat}

theorem Enters.meets {f : Fragment} (h : Enters limit depth f rest s m)
    (hI : Invariant limit T F S) (hf : F f) (hrest : ∀ t ∈ rest, t.Meets T F) (hs : S s) :
    m.Leads (Meets T F S) fun _ => True := by
  cases h with
  | unreadable | tooDeep => trivial
  | entered h => exact ⟨List.forall_mem_cons.2 ⟨hI.read hf h, hrest⟩, hs⟩

theorem EntersIf.meets {predicate command : Fragment}
    (h : EntersIf limit depth predicate command rest past s m) (hI : Invariant limit T F S)
    (hf : F command) (hrest : ∀ t ∈ rest, t.Meets T F) (hpast : ∀ t ∈ past, t.Meets T F)
    (hs : S s) : m.Leads (Meets T F S) fun _ => True := by
  cases h with
  | unreadable => trivial
  | passed => exact ⟨hpast, hs⟩
  | holding _ he => exact he.meets hI hf hrest hs

theorem Steps.meets (h : Steps limit tasks s m) (hI : Invariant limit T F S)
    (ht : ∀ t ∈ tasks, t.Meets T F) (hs : S s) : m.Leads (Meets T F S) fun _ => True := by
  have rest : ∀ {task : Task} {rest : List Task}, (∀ u ∈ task :: rest, u.Meets T F) →
      ∀ u ∈ rest, u.Meets T F := fun h => (List.forall_mem_cons.1 h).2
  cases h with
  | halted | done | printUnbound | pushUnbound => trivial
  | codeOver | timesOver => exact ⟨rest ht, hs⟩
  | act _ _ _ h => exact ⟨behind List.suffix_rfl ht, hI.acts (front ht) hs h⟩
  | ask _ _ _ h => exact fun n => ⟨behind List.suffix_rfl ht, hI.asks (front ht) hs h n⟩
  | snapshot => exact ⟨behind List.suffix_rfl ht, hs⟩
  | print _ _ _ h => exact ⟨behind h.suffix ht, hI.printed _ (hI.prints hs h)⟩
  | printNothing _ _ _ h => exact ⟨behind h.suffix ht, hI.prints hs h⟩
  | @block x body s m depth o ts rest _ h =>
    have hbody : F body := hI.carried (front ht) body List.mem_cons_self
    exact h.meets hI hbody (List.forall_mem_cons.2 ⟨trivial, behind List.suffix_rfl ht⟩) hs
  | @once predicate command s m depth o ts rest h =>
    have hcommand : F command := hI.carried (front ht) command (by simp [Form.fragments])
    exact h.meets hI hcommand (behind List.suffix_rfl ht) (behind List.suffix_rfl ht) hs
  | whilst predicate command | each predicate command =>
    have hcommand : F command := hI.carried (front ht) command (by simp [Form.fragments])
    exact ⟨List.forall_mem_cons.2 ⟨hcommand, behind List.suffix_rfl ht⟩, hs⟩
  | store x => exact ⟨rest ht, hI.stores x hs⟩
  | loop _ _ h => exact h.meets hI (ht _ List.mem_cons_self) ht (rest ht) hs
  | @times command s m depth n rest' h =>
    have hcommand : F command := ht _ List.mem_cons_self
    exact h.meets hI hcommand (List.forall_mem_cons.2 ⟨hcommand, rest ht⟩) hs

end Machine

variable {σ : Type} [Host σ] {settings : Settings} {source : Text} {host : σ} {s : State}

/-- The states of a run: those to which it comes, and the one that is reported. -/
inductive State.OccursIn (settings : Settings) (source : Text) (host : σ) : State → Prop
  | during {ts z} (hts : programTokens settings.limit source = .ok ts)
      (hz : (Session.start ts host).Reaches settings.limit z) :
      OccursIn settings source host z.machine.state
  | reported {steps report} (h : runProgram settings source host steps = some report) :
      OccursIn settings source host report.state

namespace Machine.Invariant

theorem reaches (hI : Invariant limit T F S) {ts : List Token} {z : Session σ}
    (hts : programTokens limit source = .ok ts) (hf : F (.ofSource source)) (hs : S {})
    (hz : (Session.start ts host).Reaches limit z) : z.machine.Meets T F S := by
  obtain ⟨us, hus, rfl⟩ := programTokens_eq_ok_iff.1 hts
  refine hz.invariant (Q := fun _ => True) (fun m hm => ?_) ⟨?_, hs⟩
  · exact (steps_step limit m).meets hI hm.tasks hm.state
  · refine List.forall_mem_singleton.2 fun t ht => ?_
    rcases PushMarker.mem_fuse ht with ht | ⟨u, hu, hfused⟩
    · exact hI.read hf hus t ht
    · exact hI.fused (hI.read hf hus u hu) hfused

theorem conclude (hI : Invariant limit T F S)
    (halts : ∀ s, S s → S { s with halted := true }) {z : Session σ} (hs : S z.machine.state)
    (settings : Settings) (fault : Option Fault) :
    S (z.conclude settings fault).machine.state := by
  cases fault with
  | some e => exact halts _ (hI.printed _ hs)
  | none =>
    unfold Session.conclude
    dsimp only
    split
    · exact hI.printed _ hs
    · exact hs

/-- A condition that every form keeps, and a halt too, holds of all states of a run. -/
theorem occurs (hI : Invariant settings.limit T F S)
    (halts : ∀ s, S s → S { s with halted := true }) (hf : F (.ofSource source)) (hs : S {})
    (h : s.OccursIn settings source host) : S s := by
  cases h with
  | during hts hz => exact (hI.reaches hts hf hs hz).state
  | reported h =>
    rcases exists_runProgram_iff.1 ⟨_, h⟩ with ⟨e, -, rfl⟩ | ⟨ts, z, fault, hts, hz, rfl⟩
    · exact hI.conclude (z := Session.start [] host) halts hs settings (some e)
    · exact hI.conclude halts (hI.reaches hts hf hs hz.1).state settings fault

end Machine.Invariant

end BlueNexus
