import BlueNexus.Proofs.MachineRules
import BlueNexus.Proofs.SessionRuns

/-!
# Tasks behind others

A step sees no more than the first task, so tasks may stand behind those of a run without any part
in it (`Ends.before`). When the tasks in front are done, the run goes on with those behind
(`Ends.reaches_behind`).
-/

namespace BlueNexus

/-- The move with its machines and its fault replaced. -/
def Move.map (f : Machine → Machine) (g : Fault → Fault) : Move → Move
  | .silent m => .silent (f m)
  | .tell n m => .tell n (f m)
  | .ask resume => .ask fun n => f (resume n)
  | .finished => .finished
  | .failed e s => .failed (g e) s

namespace Machine

/-- The machine with more tasks behind its own. -/
def before (more : List Task) (m : Machine) : Machine := { m with tasks := m.tasks ++ more }

end Machine

def Move.before (more : List Task) (m : Move) : Move := m.map (Machine.before more) id

namespace Machine

variable {limit depth : Nat} {s : State} {tasks rest past : List Task} {m : Move}

theorem Enters.before {f : Fragment} (h : Enters limit depth f rest s m) (more : List Task) :
    Enters limit depth f (rest ++ more) s (m.before more) := by
  cases h with
  | unreadable h => exact .unreadable h
  | tooDeep h hd => exact .tooDeep h hd
  | entered h hd => exact .entered h hd

theorem EntersIf.before {predicate command : Fragment}
    (h : EntersIf limit depth predicate command rest past s m) (more : List Task) :
    EntersIf limit depth predicate command (rest ++ more) (past ++ more) s
      (m.before more) := by
  cases h with
  | unreadable h => exact .unreadable h
  | passed h => exact .passed h
  | holding h he => exact .holding h (he.before more)

theorem Steps.before (h : Steps limit tasks s m) (hne : tasks ≠ []) (more : List Task) :
    Steps limit (tasks ++ more) s (m.before more) := by
  cases h with
  | halted h => exact .halted h
  | done => exact absurd rfl hne
  | codeOver depth rest s => exact .codeOver depth (rest ++ more) s
  | act depth ts rest h => exact .act depth ts (rest ++ more) h
  | ask depth ts rest h => exact .ask depth ts (rest ++ more) h
  | snapshot depth ts rest h => exact .snapshot depth ts (rest ++ more) h
  | print depth o rest h => exact .print depth o (rest ++ more) h
  | printNothing depth o rest h => exact .printNothing depth o (rest ++ more) h
  | printUnbound depth o o' ts rest hg h =>
    exact .printUnbound depth o o' ts (rest ++ more) hg h
  | pushUnbound depth o ts rest h => exact .pushUnbound depth o ts (rest ++ more) h
  | block depth o ts rest hm h => exact .block depth o ts (rest ++ more) hm (h.before more)
  | once depth o ts rest h => exact .once depth o ts (rest ++ more) (h.before more)
  | whilst predicate command s depth o ts rest =>
    exact .whilst predicate command s depth o ts (rest ++ more)
  | each predicate command s depth o ts rest =>
    exact .each predicate command s depth o ts (rest ++ more)
  | store x rest s => exact .store x (rest ++ more) s
  | loop depth rest h => exact .loop depth (rest ++ more) (h.before more)
  | timesOver depth command rest s => exact .timesOver depth command (rest ++ more) s
  | times depth n rest h => exact .times depth n (rest ++ more) (h.before more)

@[simp] theorem step_of_halted {n : Machine} (h : n.state.halted = true) :
    n.step limit = .finished :=
  if_pos h

theorem step_before {n : Machine} (hne : n.tasks ≠ []) (more : List Task) :
    (n.before more).step limit = (n.step limit).before more := by
  by_cases hh : n.state.halted = true
  · rw [step_of_halted hh, step_of_halted (n := n.before more) hh]
    rfl
  · have h := (steps_step limit n).before hne more
    exact step_eq_of_steps h (Bool.eq_false_iff.2 hh)

theorem Enters.ne_finished {f : Fragment} (h : Enters limit depth f rest s m) : m ≠ .finished := by
  cases h <;> simp

theorem EntersIf.ne_finished {predicate command : Fragment}
    (h : EntersIf limit depth predicate command rest past s m) : m ≠ .finished := by
  cases h with
  | unreadable => simp
  | passed => simp
  | holding _ he => exact he.ne_finished

private theorem Steps.eq_nil_of_finished (h : Steps limit tasks s .finished)
    (hh : s.halted = false) : tasks = [] := by
  cases h with
  | halted h => cases hh.symm.trans h
  | done => rfl
  | block _ _ _ _ _ h => exact absurd rfl h.ne_finished
  | once _ _ _ _ h => exact absurd rfl h.ne_finished
  | loop _ _ h => exact absurd rfl h.ne_finished
  | times _ _ _ h => exact absurd rfl h.ne_finished

end Machine

namespace Session

variable {σ : Type} [Host σ] {limit limit' : Nat} {s s' z : Session σ}

/-- The session with another machine. -/
def mapMachine (f : Machine → Machine) (s : Session σ) : Session σ :=
  { s with machine := f s.machine }

/-- A move with its machines replaced goes on with sessions whose machines are replaced. -/
theorem ongoing_map_iff {f f' : Machine → Machine} {g : Fault → Fault} {m : Move} :
    (s.mapMachine f').move (m.map f g) = .ongoing z ↔
      ∃ t, s.move m = .ongoing t ∧ z = t.mapMachine f := by
  cases m <;> simp [move, Move.map, mapMachine, call, eq_comm]

theorem Next.mapMachine {f : Machine → Machine} {g : Fault → Fault} (h : Next limit s s')
    (hf : (f s.machine).step limit' = (s.machine.step limit).map f g) :
    Next limit' (s.mapMachine f) (s'.mapMachine f) := by
  rw [Next, step_eq] at h ⊢
  change (s.mapMachine f).move ((f s.machine).step limit') = _
  rw [hf]
  exact ongoing_map_iff.2 ⟨s', h, rfl⟩

theorem Next.halted (h : Next limit s s') : s.machine.state.halted = false := by
  rw [Next, step_eq] at h
  cases hh : s.machine.state.halted with
  | false => rfl
  | true =>
    rw [Machine.step_of_halted hh] at h
    cases h

theorem ends_of_halted {r : Option Fault} (hh : s.machine.state.halted = true) :
    s.Ends limit z r ↔ z = s ∧ r = none := by
  constructor
  · rintro ⟨hr, hz⟩
    rcases hr.cases_head with rfl | ⟨_, hn, _⟩
    · have hend := step_ended_iff.1 hz
      rw [Machine.step_of_halted hh] at hend
      cases r with
      | none => exact ⟨rfl, rfl⟩
      | some e => cases hend
    · exact absurd (hn.halted.symm.trans hh) Bool.false_ne_true
  · rintro ⟨rfl, rfl⟩
    exact ⟨.refl, step_ended_iff.2 (Machine.step_of_halted hh)⟩

theorem Next.before (h : Next limit s s') (more : List Task) :
    Next limit (s.mapMachine (.before more)) (s'.mapMachine (.before more)) := by
  have hne : s.machine.tasks ≠ [] := by
    intro he
    have hstep : s.machine.step limit = .finished := by simp [Machine.step, he]
    simp [Next, step_eq, hstep, move] at h
  exact h.mapMachine (Machine.step_before hne more)

theorem Reaches.before (h : s.Reaches limit z) (more : List Task) :
    (s.mapMachine (.before more)).Reaches limit (z.mapMachine (.before more)) := by
  induction h with
  | refl => exact .refl
  | tail _ hn ih => exact ih.tail (hn.before more)

theorem Ends.before {e : Fault} (h : s.Ends limit z (some e)) (more : List Task) :
    (s.mapMachine (.before more)).Ends limit (z.mapMachine (.before more)) (some e) := by
  refine ⟨h.1.before more, step_ended_iff.2 ?_⟩
  have hz := step_ended_iff.1 h.2
  have hne : z.machine.tasks ≠ [] := by
    intro he
    simp [Machine.step, he] at hz
  change (z.machine.before more).step limit = _
  rw [Machine.step_before hne, hz]
  rfl

theorem Ends.reaches_behind (h : s.Ends limit z none) (hh : z.machine.state.halted = false)
    (more : List Task) :
    (s.mapMachine (.before more)).Reaches limit ⟨⟨more, z.machine.state⟩, z.host, z.calls⟩ := by
  have hst := Machine.steps_step limit z.machine
  rw [step_ended_iff.1 h.2] at hst
  have hnil : z.machine.tasks = [] := hst.eq_nil_of_finished hh
  have hz : z.mapMachine (.before more) = ⟨⟨more, z.machine.state⟩, z.host, z.calls⟩ := by
    simp [mapMachine, Machine.before, hnil]
  exact hz ▸ h.1.before more

/-- A run of tasks with others behind them is in the tasks in front, or has done them well. -/
theorem Reaches.of_before {more : List Task}
    (h : (s.mapMachine (.before more)).Reaches limit z) :
    (∃ y, s.Reaches limit y ∧ z = y.mapMachine (.before more)) ∨
      ∃ y, s.Ends limit y none ∧
        (Session.mk ⟨more, y.machine.state⟩ y.host y.calls).Reaches limit z := by
  induction h with
  | refl => exact .inl ⟨s, .refl, rfl⟩
  | tail _ hn ih =>
    rcases ih with ⟨y, hy, rfl⟩ | ⟨y, hy, hr⟩
    · by_cases hne : y.machine.tasks = []
      · obtain ⟨⟨tasks, state⟩, host, calls⟩ := y
        dsimp only at hne
        subst hne
        have hover : (Machine.mk [] state).step limit = .finished := by simp [Machine.step]
        exact .inr ⟨_, ⟨hy, step_ended_iff.2 hover⟩, .single hn⟩
      · have hmove : (y.mapMachine (.before more)).move
            ((y.machine.before more).step limit) = .ongoing _ := hn
        rw [Machine.step_before hne] at hmove
        obtain ⟨y', hy', hz⟩ := ongoing_map_iff.1 hmove
        exact .inl ⟨y', hy.tail hy', hz⟩
    · exact .inr ⟨y, hy, hr.tail hn⟩

theorem ends_of_no_tasks (state : State) (host : σ) (calls : List Call) :
    (Session.mk ⟨[], state⟩ host calls).Ends limit ⟨⟨[], state⟩, host, calls⟩ none :=
  ⟨.refl, step_ended_iff.2 (by simp [Machine.step])⟩

theorem ends_of_no_tokens (depth : Nat) {state : State} (hh : state.halted = false) (host : σ)
    (calls : List Call) :
    (Session.mk ⟨[.code depth []], state⟩ host calls).Ends limit ⟨⟨[], state⟩, host, calls⟩
      none := by
  have hsteps : Machine.Steps limit [.code depth []] state (.silent ⟨[], state⟩) :=
    .codeOver depth [] state
  have hstep := Machine.step_eq_of_steps hsteps hh
  exact (ends_of_no_tasks state host calls).head (congrArg (move _) hstep)

end Session

end BlueNexus
