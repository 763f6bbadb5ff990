import BlueNexus.Text

/-!
# The command line

The command runs a program or lists its tokens. The program is a file or is given in place, and
options come before or after it. What does not fit has no request.
-/

namespace BlueNexus.Command

inductive Program where
  | file (path : Text)
  | inline (code : Text)
deriving DecidableEq

inductive Request where
  | version
  | run (program : Program) (settings : Option Text) (inputs : List Text) (quiet : Bool)
  | tokens (program : Program) (settings : Option Text)
deriving DecidableEq

structure Arguments where
  file : Option Text := none
  code : Option Text := none
  settings : Option Text := none
  inputs : List Text := []
  quiet : Bool := false

namespace Arguments

/-- Paths are not empty, and no program has two files. -/
def setFile (path : Text) (a : Arguments) : Option Arguments :=
  if a.file = none ∧ path ≠ [] then some { a with file := some path } else none

def setCode (code : Text) (a : Arguments) : Option Arguments :=
  if a.code = none then some { a with code := some code } else none

def setSettings (path : Text) (a : Arguments) : Option Arguments :=
  if a.settings = none ∧ path ≠ [] then some { a with settings := some path } else none

def addInput (input : Text) (a : Arguments) : Option Arguments :=
  some { a with inputs := input :: a.inputs }

def setQuiet (a : Arguments) : Option Arguments :=
  if a.quiet then none else some { a with quiet := true }

/-- A program is given in exactly one way. -/
def program? (a : Arguments) : Option Program :=
  match a.file, a.code with
  | some path, none => some (.file path)
  | none, some code => some (.inline code)
  | _, _ => none

end Arguments

structure ValueOption where
  /-- Whether the value may look like an option. -/
  anyValue : Bool
  set : Text → Arguments → Option Arguments

def evalOption : ValueOption := ⟨false, Arguments.setCode⟩

/-- The options that take a value. Inputs are for programs that are run. -/
def valueOption? (running : Bool) (name : Text) : Option ValueOption :=
  if name = "eval".toList then some evalOption
  else if name = "config".toList then some ⟨false, Arguments.setSettings⟩
  else if running ∧ name = "input".toList then some ⟨true, Arguments.addInput⟩
  else none

/-- An argument looks like an option if a dash begins it. A single dash does not. -/
def looksLikeOption : Text → Bool
  | '-' :: _ :: _ => true
  | _ => false

inductive Piece where
  /-- Two dashes: all that follows are files. -/
  | filesOnly
  | flag (name : Text)
  /-- An option with a value, or with its value to follow. -/
  | valued (o : ValueOption) (value : Option Text)
  | file (path : Text)
  | unknown

def Piece.ofText (running : Bool) : Text → Piece
  | ['-', '-'] => .filesOnly
  | '-' :: '-' :: r =>
    let name := r.takeWhile (· ≠ '=')
    let value := match r.dropWhile (· ≠ '=') with
      | [] => none
      | _ :: v => some v
    match valueOption? running name, value with
    | some o, value => .valued o value
    | none, none => .flag name
    | none, some _ => .unknown
  | ['-', 'e'] => .valued evalOption none
  | '-' :: 'e' :: '=' :: v => .valued evalOption (some v)
  | '-' :: 'e' :: v => .valued evalOption (some v)
  | t => if looksLikeOption t then .unknown else .file t

def readArguments (running : Bool) (a : Arguments) : List Text → Option Arguments
  | [] => some a
  | t :: r =>
    match Piece.ofText running t with
    | .filesOnly => r.foldlM (fun a path => a.setFile path) a
    | .flag name =>
      if running ∧ name = "no-completion-notice".toList then do
        readArguments running (← a.setQuiet) r
      else none
    | .valued o (some v) => do readArguments running (← o.set v a) r
    | .valued o none =>
      match r with
      | [] => none
      | v :: r =>
        if o.anyValue || !looksLikeOption v then do readArguments running (← o.set v a) r else none
    | .file path => do readArguments running (← a.setFile path) r
    | .unknown => none

def Request.ofArguments? : List Text → Option Request
  | [] => none
  | name :: r =>
    if name = "--version".toList ∨ name.take 2 = ['-', 'V'] then some .version
    else if name = "run".toList then do
      let a ← readArguments true {} r
      some (.run (← a.program?) a.settings a.inputs.reverse a.quiet)
    else if name = "tokens".toList then do
      let a ← readArguments false {} r
      some (.tokens (← a.program?) a.settings)
    else none

end BlueNexus.Command
