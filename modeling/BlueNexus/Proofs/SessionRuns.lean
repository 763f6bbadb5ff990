import BlueNexus.Proofs.MachineRules
import BlueNexus.Session
import Mathlib.Logic.Relation

/-!
# Runs as sequences of steps

A run goes from session to session and ends where a step ends it. A program has a report exactly if
its tokens can be read and such a run ends, or if its tokens cannot be read
(`exists_runProgram_iff`).
-/

namespace BlueNexus

/-- All machines to which a move may lead satisfy `P`, and its fault satisfies `Q`. -/
def Move.Leads (P : Machine → Prop) (Q : Fault → Prop) : Move → Prop
  | .silent m | .tell _ m => P m
  | .ask resume => ∀ n, P (resume n)
  | .finished => True
  | .failed e _ => Q e

theorem Move.Leads.mono {P P' : Machine → Prop} {Q Q' : Fault → Prop} {m : Move}
    (h : m.Leads P Q) (hP : ∀ n, P n → P' n) (hQ : ∀ e, Q e → Q' e) : m.Leads P' Q' := by
  cases m with
  | silent m => exact hP m h
  | tell n m => exact hP m h
  | ask resume => exact fun n => hP _ (h n)
  | finished => trivial
  | failed e s => exact hQ e h

namespace Session

variable {σ : Type} [Host σ] {limit : Nat} {s s' z : Session σ} {fault : Option Fault}

/-- The run goes on from `s` with `s'`. -/
def Next (limit : Nat) (s s' : Session σ) : Prop := s.step limit = .ongoing s'

def Reaches (limit : Nat) : Session σ → Session σ → Prop := Relation.ReflTransGen (Next limit)

/-- The run from `s` comes to its end in `z`. -/
def Ends (limit : Nat) (s z : Session σ) (fault : Option Fault) : Prop :=
  s.Reaches limit z ∧ z.step limit = .ended z fault

/-- The run from `s` comes to an end. -/
def Finishes (limit : Nat) (s : Session σ) : Prop := ∃ z fault, s.Ends limit z fault

theorem step_eq (limit : Nat) (s : Session σ) :
    s.step limit = s.move (s.machine.step limit) := rfl

theorem eq_of_step_ended (h : s.step limit = .ended z fault) : z = s := by
  rw [step_eq] at h
  cases hm : s.machine.step limit with
  | finished =>
    rw [hm] at h
    cases h
    rfl
  | failed e state =>
    rw [hm, Machine.eq_of_step_failed hm] at h
    cases h
    rfl
  | silent m | tell n m | ask resume =>
    rw [hm] at h
    cases h

theorem step_ended_iff : z.step limit = .ended z fault ↔
    z.machine.step limit = fault.elim .finished (.failed · z.machine.state) := by
  rw [step_eq]
  constructor
  · intro h
    cases hm : z.machine.step limit with
    | finished =>
      rw [hm] at h
      cases h
      rfl
    | failed e state =>
      rw [hm] at h
      obtain ⟨-, rfl⟩ := Progress.ended.inj h
      rw [Machine.eq_of_step_failed hm]
      rfl
    | silent m | tell n m | ask resume =>
      rw [hm] at h
      cases h
  · intro h
    rw [h]
    cases fault <;> rfl

/-- A move with which a run goes on, and the session after it. -/
inductive Goes (s : Session σ) : Move → Session σ → Prop
  | silent (m) : Goes s (.silent m) { s with machine := m }
  | tell (n m) : Goes s (.tell n m) (call (.notice n) { s with machine := m })
  | ask (resume) : Goes s (.ask resume)
      (call (.input (Host.reply s.host)) { s with machine := resume (Host.reply s.host).scalar })

theorem Next.goes (h : Next limit s s') : ∃ m, s.machine.step limit = m ∧ s.Goes m s' := by
  refine ⟨_, rfl, ?_⟩
  rw [Next, step_eq] at h
  cases hm : s.machine.step limit <;> simp only [hm, move] at h <;> cases h
  · exact .silent _
  · exact .tell _ _
  · exact .ask _

theorem Next.leads {P : Machine → Prop} {Q : Fault → Prop} (h : Next limit s s')
    (hP : (s.machine.step limit).Leads P Q) : P s'.machine := by
  obtain ⟨_, hm, hgoes⟩ := h.goes
  rw [hm] at hP
  cases hgoes with
  | silent m => exact hP
  | tell n m => exact hP
  | ask resume => exact hP _

theorem Reaches.invariant {P : Machine → Prop} {Q : Fault → Prop}
    (hstep : ∀ m, P m → (m.step limit).Leads P Q) (h : s.Reaches limit z) (hs : P s.machine) :
    P z.machine := by
  induction h with
  | refl => exact hs
  | tail _ hn ih => exact hn.leads (hstep _ ih)

/-- The fault that ends a run is that of a step from where every step has preserved `P`. -/
theorem Ends.failure {P : Machine → Prop} {Q : Fault → Prop} {e : Fault}
    (hstep : ∀ m, P m → (m.step limit).Leads P Q) (h : s.Ends limit z (some e))
    (hs : P s.machine) : Q e := by
  have hz := hstep _ (h.1.invariant hstep hs)
  rwa [step_ended_iff.1 h.2] at hz

theorem ends_of_run {steps : Nat} (h : s.run limit steps = some (z, fault)) :
    s.Ends limit z fault := by
  induction steps generalizing s with
  | zero => cases h
  | succ n ih =>
    rw [run.eq_2] at h
    cases hs : s.step limit with
    | ongoing s' =>
      rw [hs] at h
      obtain ⟨hr, hz⟩ := ih h
      exact ⟨.head hs hr, hz⟩
    | ended s' f =>
      simp only [hs, Option.some.injEq, Prod.mk.injEq] at h
      obtain ⟨rfl, rfl⟩ := h
      have he := eq_of_step_ended hs
      exact ⟨he ▸ .refl, he ▸ hs⟩

theorem exists_run_of_ends (h : s.Ends limit z fault) :
    ∃ steps, s.run limit steps = some (z, fault) := by
  obtain ⟨hr, hz⟩ := h
  induction hr using Relation.ReflTransGen.head_induction_on with
  | refl => exact ⟨1, by simp [run, hz]⟩
  | head hn _ ih =>
    obtain ⟨steps, hsteps⟩ := ih
    refine ⟨steps + 1, ?_⟩
    rw [run.eq_2, hn]
    exact hsteps

/-- A run has one end, however many steps it is given. -/
theorem run_unique {m n : Nat} {r r' : Session σ × Option Fault} (h : s.run limit m = some r)
    (h' : s.run limit n = some r') : r = r' := by
  have hm := run_add h n
  have hn := run_add h' m
  rw [Nat.add_comm, hm] at hn
  exact Option.some.inj hn

theorem Next.run {steps : Nat} {r : Session σ × Option Fault} (hn : Next limit s s')
    (h : s.run limit steps = some r) : ∃ k < steps, s'.run limit k = some r := by
  cases steps with
  | zero => cases h
  | succ k =>
    rw [Session.run.eq_2, hn] at h
    exact ⟨k, Nat.lt_succ_self k, h⟩

theorem Reaches.run {steps : Nat} {r : Session σ × Option Fault} (hr : s.Reaches limit z)
    (h : s.run limit steps = some r) : ∃ k ≤ steps, z.run limit k = some r := by
  induction hr with
  | refl => exact ⟨steps, Nat.le_refl steps, h⟩
  | tail _ hn ih =>
    obtain ⟨k, hk, h⟩ := ih
    obtain ⟨j, hj, h⟩ := hn.run h
    exact ⟨j, Nat.le_of_lt (Nat.lt_of_lt_of_le hj hk), h⟩

/-- The sessions of a run, as far as so many steps go. -/
def trail (limit : Nat) : (steps : Nat) → Session σ → List (Session σ)
  | 0, s => [s]
  | steps + 1, s =>
    match s.step limit with
    | .ongoing s' => s :: trail limit steps s'
    | .ended _ _ => [s]

theorem Reaches.mem_trail {steps : Nat} {r : Session σ × Option Fault} (hr : s.Reaches limit z)
    (h : s.run limit steps = some r) : z ∈ s.trail limit steps := by
  induction hr using Relation.ReflTransGen.head_induction_on generalizing steps with
  | refl =>
    unfold trail
    split
    · exact List.mem_cons_self
    · split <;> exact List.mem_cons_self
  | head hn _ ih =>
    cases steps with
    | zero => cases h
    | succ n =>
      rw [Session.run.eq_2, hn] at h
      rw [trail.eq_2, hn]
      exact List.mem_cons_of_mem _ (ih h)

theorem Ends.head (hn : Next limit s s') (h : s'.Ends limit z fault) : s.Ends limit z fault :=
  ⟨.head hn h.1, h.2⟩

theorem Ends.of_reaches (hr : s.Reaches limit s') (h : s'.Ends limit z fault) :
    s.Ends limit z fault :=
  ⟨hr.trans h.1, h.2⟩

theorem Ends.later (h : s.Ends limit z fault) (hr : s.Reaches limit s') :
    s'.Ends limit z fault := by
  obtain ⟨steps, hsteps⟩ := exists_run_of_ends h
  obtain ⟨k, -, hk⟩ := hr.run hsteps
  exact ends_of_run hk

theorem Finishes.of_reaches (hr : s.Reaches limit s') (h : s'.Finishes limit) :
    s.Finishes limit := by
  obtain ⟨z, fault, hz⟩ := h
  exact ⟨z, fault, hz.of_reaches hr⟩

/-- The call with which a run ends, if it ends with any: the report of its fault, or the notice that
it is complete. -/
def closing? (settings : Settings) (s : Session σ) : Option Fault → Option Call
  | some e => some (.notice (.fault e.message e.offset))
  | none =>
    if settings.completionNotice ∧ s.machine.state.printed = [] then
      some (.notice (.output completionNotice))
    else none

theorem report_calls (settings : Settings) (s : Session σ) (fault : Option Fault) :
    (s.report settings fault).calls = s.calls.reverse ++ (s.closing? settings fault).toList := by
  cases fault with
  | some e => exact List.reverse_cons
  | none =>
    simp only [report, conclude, closing?]
    split
    · exact List.reverse_cons
    · exact (List.append_nil _).symm

@[simp] theorem variables_conclude (settings : Settings) (s : Session σ) (fault : Option Fault) :
    (s.conclude settings fault).machine.state.variables = s.machine.state.variables := by
  unfold conclude
  split
  · rfl
  · split <;> rfl

end Session

@[simp] theorem programTokens_eq_error_iff {limit : Nat} {source : Text} {e : Fault} :
    programTokens limit source = .error e ↔ (Fragment.ofSource source).tokens limit = .error e := by
  unfold programTokens
  cases (Fragment.ofSource source).tokens limit <;> simp [Except.map]

theorem programTokens_eq_ok_iff {limit : Nat} {source : Text} {ts : List Token} :
    programTokens limit source = .ok ts ↔
      ∃ us, (Fragment.ofSource source).tokens limit = .ok us ∧ PushMarker.fuse us = ts := by
  unfold programTokens
  cases (Fragment.ofSource source).tokens limit <;> simp [Except.map]

variable {σ : Type} [Host σ] {settings : Settings} {source : Text} {host : σ} {report : Report σ}

/-- A report is about a program that cannot be read, or about the end of a run of its tokens. -/
theorem exists_runProgram_iff :
    (∃ steps, runProgram settings source host steps = some report) ↔
      (∃ e, programTokens settings.limit source = .error e ∧
        report = (Session.start [] host).report settings (some e)) ∨
      ∃ ts z fault, programTokens settings.limit source = .ok ts ∧
        (Session.start ts host).Ends settings.limit z fault ∧
        report = z.report settings fault := by
  cases ht : programTokens settings.limit source with
  | error e => simp [runProgram, ht, eq_comm]
  | ok ts =>
    simp only [runProgram, ht, Option.map_eq_some_iff, reduceCtorEq, false_and, exists_false,
      false_or, Except.ok.injEq]
    constructor
    · rintro ⟨steps, ⟨z, fault⟩, hrun, rfl⟩
      exact ⟨ts, z, fault, rfl, Session.ends_of_run hrun, rfl⟩
    · rintro ⟨_, z, fault, rfl, hz, rfl⟩
      obtain ⟨steps, hsteps⟩ := Session.exists_run_of_ends hz
      exact ⟨steps, (z, fault), hsteps, rfl⟩

/-- A program has one report, however many steps it is given. -/
theorem runProgram_unique {m n : Nat} {report' : Report σ}
    (h : runProgram settings source host m = some report)
    (h' : runProgram settings source host n = some report') : report = report' := by
  cases ht : programTokens settings.limit source with
  | error e =>
    simp only [runProgram, ht, Option.some.injEq] at h h'
    exact h.symm.trans h'
  | ok ts =>
    simp only [runProgram, ht, Option.map_eq_some_iff] at h h'
    obtain ⟨z, hz, rfl⟩ := h
    obtain ⟨z', hz', rfl⟩ := h'
    rw [Session.run_unique hz hz']

end BlueNexus
