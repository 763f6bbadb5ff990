import BlueNexus.Host.Recorder
import BlueNexus.Proofs.ExecutionRuns

/-!
# The state at a fault

A fault is raised by a step that misses a variable, cannot read a fragment or would enter one too
deep (`step_eq_failed_iff`). Such a step changes nothing (`Machine.eq_of_step_failed`), and neither
does the work around it on the way out: code that ends in a fault leaves the context in which a step
of its run has raised it (`fault_leaves_state`).
-/

namespace BlueNexus

namespace Machine

/-- The first task asks whether the predicate holds. -/
inductive Checks : List Task → Nat → Fragment → Fragment → Prop
  | once (depth predicate command o ts rest) :
      Checks (.code depth (⟨.conditional .once predicate command, o⟩ :: ts) :: rest) depth
        predicate command
  | loop (depth predicate command rest) :
      Checks (.loop depth predicate command :: rest) depth predicate command

/-- The first task goes on with the code of the fragment. -/
inductive Begins (limit : Nat) : List Task → State → Nat → Fragment → Prop
  | body {body : Fragment} (x s depth o ts rest)
      (h : ∀ us, body.tokens limit = .ok us → Assignment.Meaning.ofTokens us = .result) :
      Begins limit (.code depth (⟨.block x body, o⟩ :: ts) :: rest) s depth body
  | command {tasks s depth predicate command} (h : Checks tasks depth predicate command)
      (hp : Condition.holds limit s predicate = .ok true) : Begins limit tasks s depth command
  | times (n command s depth rest) :
      Begins limit (.times depth (n + 1) command :: rest) s depth command

/-- The first task raises the fault. -/
inductive Raises (limit : Nat) : List Task → State → Fault → Prop
  | unbound {ts s e} (depth rest) (h : Token.Misses ts s e) :
      Raises limit (.code depth ts :: rest) s e
  | predicate {tasks depth predicate command e} (s) (h : Checks tasks depth predicate command)
      (he : predicate.tokens limit = .error e) : Raises limit tasks s e
  | fragment {tasks s depth f e} (h : Begins limit tasks s depth f)
      (he : f.tokens limit = .error e) : Raises limit tasks s e
  | tooDeep {tasks s depth f ts} (h : Begins limit tasks s depth f) (ht : f.tokens limit = .ok ts)
      (hd : limit ≤ depth) : Raises limit tasks s (.nestingTooDeep f.offset limit)

variable {limit depth : Nat} {s : State} {tasks rest past : List Task} {e : Fault}
  {f predicate command : Fragment}

theorem Checks.steps (h : Checks tasks depth predicate command) (s : State) :
    ∃ rest past, ∀ m, EntersIf limit depth predicate command rest past s m →
      Steps limit tasks s m := by
  cases h with
  | once depth predicate command o ts rest => exact ⟨_, _, fun _ => .once depth o ts rest⟩
  | loop depth predicate command rest => exact ⟨_, _, fun _ => .loop depth rest⟩

theorem Begins.steps (h : Begins limit tasks s depth f) :
    ∃ rest, ∀ m, Enters limit depth f rest s m → Steps limit tasks s m := by
  cases h with
  | body x s depth o ts rest h => exact ⟨_, fun _ => .block depth o ts rest h⟩
  | command h hp =>
    obtain ⟨rest, past, hsteps⟩ := h.steps s
    exact ⟨rest, fun m hm => hsteps m (.holding hp hm)⟩
  | times n command s depth rest => exact ⟨_, fun _ => .times depth n rest⟩

theorem Begins.raises (h : Begins limit tasks s depth f)
    (he : Enters limit depth f rest s (.failed e s)) : Raises limit tasks s e := by
  cases he with
  | unreadable he => exact .fragment h he
  | tooDeep ht hd => exact .tooDeep h ht hd

theorem Checks.raises (h : Checks tasks depth predicate command)
    (he : EntersIf limit depth predicate command rest past s (.failed e s)) :
    Raises limit tasks s e := by
  cases he with
  | unreadable he => exact .predicate s h he
  | holding hp he => exact Begins.raises (.command h hp) he

theorem Raises.steps (h : Raises limit tasks s e) : Steps limit tasks s (.failed e s) := by
  cases h with
  | unbound depth rest h =>
    cases h with
    | print o o' ts hg h => exact .printUnbound depth o o' ts rest hg h
    | push o ts h => exact .pushUnbound depth o ts rest h
  | predicate s h he =>
    obtain ⟨rest, past, hsteps⟩ := h.steps s
    exact hsteps _ (.unreadable he)
  | fragment h he =>
    obtain ⟨rest, hsteps⟩ := h.steps
    exact hsteps _ (.unreadable he)
  | tooDeep h ht hd =>
    obtain ⟨rest, hsteps⟩ := h.steps
    exact hsteps _ (.tooDeep ht hd)

theorem Steps.raises (h : Steps limit tasks s (.failed e s)) : Raises limit tasks s e := by
  cases h with
  | printUnbound depth o o' ts rest hg h => exact .unbound depth rest (.print o o' ts hg h)
  | pushUnbound depth o ts rest h => exact .unbound depth rest (.push o ts h)
  | block depth o ts rest hm h => exact Begins.raises (.body _ s depth o ts rest hm) h
  | once depth o ts rest h => exact Checks.raises (.once depth _ _ o ts rest) h
  | loop depth rest h => exact Checks.raises (.loop depth _ _ rest) h
  | times depth n rest h => exact Begins.raises (.times n _ s depth rest) h

theorem step_eq_failed_iff (hs : s.halted = false) :
    step limit ⟨tasks, s⟩ = .failed e s ↔ Raises limit tasks s e := by
  constructor
  · intro h
    have hsteps := steps_step limit ⟨tasks, s⟩
    rw [h] at hsteps
    exact hsteps.raises
  · intro h
    exact step_eq_of_steps h.steps hs

end Machine

variable {σ : Type} [Host σ] {limit : Nat}

theorem Session.Ends.raises {s z : Session σ} {e : Fault} (h : s.Ends limit z (some e)) :
    Machine.Raises limit z.machine.tasks z.machine.state e := by
  have hsteps := Machine.steps_step limit z.machine
  rw [Session.step_ended_iff.1 h.2] at hsteps
  exact hsteps.raises

theorem Context.ends_fault_iff {c c' : Context σ} {tasks tasks' : List Task} {e : Fault}
    (hc : c.Running) :
    (c.session tasks).Ends limit (c'.session tasks') (some e) ↔
      (c.session tasks).Reaches limit (c'.session tasks') ∧
        Machine.Raises limit tasks' c'.state e := by
  apply and_congr_right
  intro hr
  rw [Session.step_ended_iff]
  exact Machine.step_eq_failed_iff (hr.running hc)

/-- Code that ends in a fault leaves the context in which a step of its run has raised the fault, at
the depth of the code itself. In particular a block leaves what its body leaves. -/
theorem fault_leaves_state (limit : Nat) {c : Context σ} (hc : c.Running) :
    (∀ ts c' e, Executes limit (.code ts) c c' (some e) ↔
      c'.depth = c.depth ∧ ∃ tasks,
        (c.session [.code c.depth ts]).Reaches limit (c'.session tasks) ∧
        Machine.Raises limit tasks c'.state e) ∧
    ∀ x (body : Fragment) o us c' e,
      (∀ vs, body.tokens limit = .ok vs → Assignment.Meaning.ofTokens vs = .result) →
      Executes limit (.fragment body) c c' (some e) →
      ∀ c'' r, Executes limit (.code (⟨.block x body, o⟩ :: us)) c c'' r ↔
        c'' = c' ∧ r = some e := by
  constructor
  · intro ts c' e
    rw [executes_iff_ends]
    exact and_congr_right fun _ => exists_congr fun tasks => Context.ends_fault_iff hc
  · intro x body o us c' e hm hbody c'' r
    have hblock : Executes limit (.code (⟨.block x body, o⟩ :: us)) c c' (some e) :=
      .nestsFault hc (.block x c.state hm) hbody
    constructor
    · intro h
      exact h.unique hblock
    · rintro ⟨rfl, rfl⟩
      exact hblock

theorem fault_leaves_failed_body :
    let host : Recorder := { queue := [] }
    let c : Context Recorder := ⟨0, {}, host, []⟩
    let code : List Token := [⟨.block ⟨'a', rfl⟩ ⟨['2', '#', 'x'], 2, []⟩, 0⟩, ⟨.number 7, 6⟩]
    ∃ c' : Context Recorder, c.Running ∧
      Executes 64 (.code code) c c' (some (.undefinedVariable 4 ⟨'x', rfl⟩)) ∧
      c'.state.stack.toList = [2] ∧ c'.state.variables.entries = [] ∧ c'.depth = 0 ∧
      (∃ tasks, (c.session [.code 0 code]).Reaches 64 (c'.session tasks) ∧
        Machine.Raises 64 tasks c'.state (.undefinedVariable 4 ⟨'x', rfl⟩)) ∧
      ∀ c'' r, Executes 64 (.code code) c c'' r ↔
        c'' = c' ∧ r = some (.undefinedVariable 4 ⟨'x', rfl⟩) := by
  intro host c code
  let body : Fragment := ⟨['2', '#', 'x'], 2, []⟩
  let us : List Token := [⟨.number 2, 2⟩, ⟨.glyph .printNumber, 3⟩, ⟨.variable ⟨'x', rfl⟩, 4⟩]
  let inner : Context Recorder := c.deeper.put (c.state.push 2)
  have hread : body.tokens 64 = .ok us := rfl
  have hmeaning : ∀ vs, body.tokens 64 = .ok vs → Assignment.Meaning.ofTokens vs = .result := by
    intro vs hvs
    cases hread.symm.trans hvs
    rfl
  have hmiss : Executes 64 (.code us.tail) inner inner (some (.undefinedVariable 4 ⟨'x', rfl⟩)) :=
    .misses rfl (.print 3 4 [] (.inl rfl) rfl)
  have hbody : Executes 64 (.fragment body) c inner.shallower _ :=
    .entered hread (by decide) (.does rfl (.act _ (.number 2 _)) hmiss)
  obtain ⟨hends, hblock⟩ := fault_leaves_state 64 (c := c) rfl
  have hunique := hblock ⟨'a', rfl⟩ body 0 [⟨.number 7, 6⟩] _ _ hmeaning hbody
  have hcode := (hunique _ _).2 ⟨rfl, rfl⟩
  obtain ⟨hdepth, hraised⟩ := (hends code _ _).1 hcode
  exact ⟨_, rfl, hcode, rfl, rfl, hdepth, hraised, hunique⟩

end BlueNexus
