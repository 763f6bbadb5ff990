import BlueNexus.Form
import BlueNexus.Machine
import BlueNexus.Settings.Reader

/-!
# Runs of programs

A session is a machine at work with its host. A run begins with an empty state and ends with a
report. It is given a number of steps, and has no report if it needs more; more steps than it needs
change nothing.
-/

namespace BlueNexus

structure Session (σ : Type) where
  machine : Machine
  host : σ
  /-- The calls of the run so far, the latest first. -/
  calls : List Call

inductive Progress (σ : Type) where
  | ongoing (s : Session σ)
  | ended (s : Session σ) (fault : Option Fault)

structure Report (σ : Type) where
  fault : Option Fault
  state : State
  calls : List Call
  host : σ

def completionNotice : Text := "Program completed.\n".toList

/-- The tokens of a whole program, with the push markers fused. -/
def programTokens (limit : Nat) (source : Text) : Except Fault (List Token) :=
  ((Fragment.ofSource source).tokens limit).map PushMarker.fuse

namespace Session

variable {σ : Type} [Host σ]

def call (c : Call) (s : Session σ) : Session σ :=
  { s with host := Host.after c s.host, calls := c :: s.calls }

@[simp] theorem machine_call (c : Call) (s : Session σ) : (s.call c).machine = s.machine := rfl

@[simp] theorem host_call (c : Call) (s : Session σ) : (s.call c).host = Host.after c s.host := rfl

@[simp] theorem calls_call (c : Call) (s : Session σ) : (s.call c).calls = c :: s.calls := rfl

def move (s : Session σ) : Move → Progress σ
  | .silent m => .ongoing { s with machine := m }
  | .tell n m => .ongoing ({ s with machine := m }.call (.notice n))
  | .ask resume =>
    let reply := Host.reply s.host
    .ongoing ({ s with machine := resume reply.scalar }.call (.input reply))
  | .finished => .ended s none
  | .failed e state => .ended { s with machine.state := state } (some e)

def step (limit : Nat) (s : Session σ) : Progress σ := s.move (s.machine.step limit)

def run (limit : Nat) : (steps : Nat) → Session σ → Option (Session σ × Option Fault)
  | 0, _ => none
  | steps + 1, s =>
    match s.step limit with
    | .ongoing s => run limit steps s
    | .ended s fault => some (s, fault)

/-- More steps than a run needs change nothing. -/
theorem run_add {limit steps : Nat} {s : Session σ} {r : Session σ × Option Fault}
    (h : s.run limit steps = some r) (more : Nat) : s.run limit (steps + more) = some r := by
  induction steps generalizing s with
  | zero => cases h
  | succ n ih =>
    rw [Nat.succ_add, run.eq_2]
    rw [run.eq_2] at h
    cases hs : s.step limit with
    | ongoing s' =>
      rw [hs] at h
      exact ih h
    | ended s' fault =>
      rw [hs] at h
      exact h

def print (t : Text) (s : Session σ) : Session σ :=
  { s with machine.state := s.machine.state.print t }.call (.notice (.output t))

/-- Marks the state as halted, prints the fault into it and tells the host. -/
def halt (e : Fault) (s : Session σ) : Session σ :=
  { s with machine.state := { s.machine.state.print e.message with halted := true } }.call
    (.notice (.fault e.message e.offset))

def conclude (settings : Settings) (s : Session σ) (fault : Option Fault) : Session σ :=
  match fault with
  | some e => s.halt e
  | none =>
    if settings.completionNotice ∧ s.machine.state.printed = [] then s.print completionNotice
    else s

def report (settings : Settings) (s : Session σ) (fault : Option Fault) : Report σ :=
  let s := s.conclude settings fault
  ⟨fault, s.machine.state, s.calls.reverse, s.host⟩

def start (tokens : List Token) (host : σ) : Session σ := ⟨⟨[.code 0 tokens], {}⟩, host, []⟩

end Session

def runProgram {σ : Type} [Host σ] (settings : Settings) (source : Text) (host : σ)
    (steps : Nat) : Option (Report σ) :=
  match programTokens settings.limit source with
  | .error e => some ((Session.start [] host).report settings (some e))
  | .ok ts =>
    ((Session.start ts host).run settings.limit steps).map fun s => s.1.report settings s.2

end BlueNexus
