import BlueNexus.Form.Meaning
import BlueNexus.Host

/-!
# The execution of code, step by step

What is left to do is a list of tasks, the next one first. A step takes up the next task; nested
code becomes a task of its own in front of what follows it, one level deeper. A step makes at most
one call of the host. A fault leaves what is left to do undone.
-/

namespace BlueNexus

inductive Task where
  | code (depth : Nat) (tokens : List Token)
  /-- Moves the result of a block into its variable. -/
  | store (x : Name)
  | loop (depth : Nat) (predicate command : Fragment)
  /-- Executes the command so many times more. -/
  | times (depth : Nat) (count : Nat) (command : Fragment)
deriving DecidableEq

structure Machine where
  tasks : List Task
  state : State
deriving DecidableEq

inductive Move where
  | silent (next : Machine)
  | tell (notice : Notice) (next : Machine)
  /-- Asks for an integer and goes on with it. -/
  | ask (resume : Int64 → Machine)
  | finished
  /-- Gives up what is left to do, in this state. -/
  | failed (fault : Fault) (state : State)

namespace Machine

def enter (limit depth offset : Nat) (tokens : List Token) (rest : List Task) (s : State) : Move :=
  if limit ≤ depth then .failed (.nestingTooDeep offset limit) s
  else .silent ⟨.code (depth + 1) tokens :: rest, s⟩

def enterFragment (limit depth : Nat) (f : Fragment) (rest : List Task) (s : State) : Move :=
  match f.tokens limit with
  | .error e => .failed e s
  | .ok tokens => enter limit depth f.offset tokens rest s

/-- Begins the code of a fragment if the predicate holds, and otherwise goes on with `past`. -/
def enterIf (limit depth : Nat) (predicate command : Fragment) (rest past : List Task)
    (s : State) : Move :=
  match Condition.holds limit s predicate with
  | .error e => .failed e s
  | .ok false => .silent ⟨past, s⟩
  | .ok true => enterFragment limit depth command rest s

def print (t : Option Text) (rest : List Task) (s : State) : Move :=
  match t with
  | none => .silent ⟨rest, s⟩
  | some t => .tell (.output t) ⟨rest, s.print t⟩

def printTop (asChar : Bool) (rest : List Task) (s : State) : Move :=
  print (s.stack.peek?.map fun n => if asChar then [charOfCode n] else Numeral.decimal n) rest s

/-- Prints the variable mentioned at `offset`: all of it, or its front as a character, which rotates
it. -/
def printVariable (asChar : Bool) (x : Name) (offset : Nat) (rest : List Task) (s : State) :
    Move :=
  match s.variables.get? x with
  | none => .failed (.undefinedVariable offset x) s
  | some v =>
    if asChar then print (v.front?.map fun n => [charOfCode n]) rest (s.rotate x)
    else print (some v.toText) rest s

/-- A print glyph is about the variable right after it, if there is one. -/
def printNext (asChar : Bool) (depth : Nat) (tokens : List Token) (rest : List Task) (s : State) :
    Move :=
  match tokens with
  | ⟨.variable x, offset⟩ :: tokens => printVariable asChar x offset (.code depth tokens :: rest) s
  | _ => printTop asChar (.code depth tokens :: rest) s

/-- Pushes the front of the variable mentioned at `offset`, which rotates it. -/
def pushVariable (x : Name) (offset : Nat) (rest : List Task) (s : State) : Move :=
  match s.variables.get? x with
  | none => .failed (.undefinedVariable offset x) s
  | some v => .silent ⟨rest, v.front?.elim s (s.rotate x).push⟩

def debug (command : Text) (rest : List Task) (s : State) : Move :=
  match command with
  | ['_', 's', 't', 'a', 'c', 'k'] => .tell (.stack s.stack.toList) ⟨rest, s⟩
  | '_' :: 'v' :: 'a' :: 'r' :: '=' :: t =>
    match (Name.ofText? t).bind fun x => (s.variables.get? x).map fun v => (x, v) with
    | none => .silent ⟨rest, s⟩
    | some (x, v) => .tell (.variable x v.render) ⟨rest, s⟩
  | _ => .silent ⟨rest, s⟩

def block (limit depth : Nat) (x : Name) (body : Fragment) (rest : List Task) (s : State) : Move :=
  match body.tokens limit with
  | .error e => .failed e s
  | .ok tokens =>
    match Assignment.Meaning.ofTokens tokens with
    | .nothing => .silent ⟨rest, s⟩
    | .top => .silent ⟨rest, s.copyInto x⟩
    | .input => .ask fun n => ⟨rest, s.assign x (.scalar n)⟩
    | .value v => .silent ⟨rest, s.assign x v⟩
    | .append t => .silent ⟨rest, { s with «variables» := Assignment.append x t s.variables }⟩
    | .appendInput =>
      .ask fun n => ⟨rest, { s with «variables» := Assignment.appendInput x n s.variables }⟩
    | .result => enter limit depth body.offset tokens (.store x :: rest) s

def conditional (limit depth : Nat) (kind : ConditionKind) (predicate command : Fragment)
    (rest : List Task) (s : State) : Move :=
  match kind with
  | .once => enterIf limit depth predicate command rest rest s
  | .whilst => .silent ⟨.loop depth predicate command :: rest, s⟩
  | .each => .silent ⟨.times depth (Condition.elements s predicate) command :: rest, s⟩
  | .other _ => .silent ⟨rest, s⟩

def perform (limit depth : Nat) (token : Token) (tokens : List Token) (rest : List Task)
    (s : State) : Move :=
  let next := .code depth tokens :: rest
  match token.form with
  | .number n | .pushNumber n => .silent ⟨next, s.push n⟩
  | .pushVariable x => pushVariable x token.offset next s
  | .pushInput => .ask fun n => ⟨next, s.push n⟩
  | .glyph .printNumber => printNext false depth tokens rest s
  | .glyph .printChar => printNext true depth tokens rest s
  | .glyph .newline => print (some ['\n']) next s
  | .glyph g => .silent ⟨next, { s with stack := s.stack.operate g }⟩
  | .block x body => block limit depth x body next s
  | .expression x t => .silent ⟨next, { s with «variables» := Assignment.change x t s.variables }⟩
  | .conditional kind predicate command => conditional limit depth kind predicate command next s
  | .drop param => .silent ⟨next, s.drop param⟩
  | .debug command => debug command next s
  | .rotate x => .silent ⟨next, s.rotate x⟩
  | .string _ | .variable _ | .comparison _ => .silent ⟨next, s⟩

def step (limit : Nat) (m : Machine) : Move :=
  if m.state.halted then .finished
  else
    match m.tasks with
    | [] => .finished
    | .code _ [] :: rest => .silent ⟨rest, m.state⟩
    | .code depth (token :: tokens) :: rest => perform limit depth token tokens rest m.state
    | .store x :: rest => .silent ⟨rest, m.state.popInto x⟩
    | .loop depth predicate command :: rest =>
      enterIf limit depth predicate command (.loop depth predicate command :: rest) rest m.state
    | .times _ 0 _ :: rest => .silent ⟨rest, m.state⟩
    | .times depth (n + 1) command :: rest =>
      enterFragment limit depth command (.times depth n command :: rest) m.state

end Machine

end BlueNexus
