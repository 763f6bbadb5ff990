import BlueNexus.Command

/-!
# The program `bnx`

Carries out a request on the real files and the real terminal. A line of standard input is read only
when the program that runs asks for it.
-/

namespace BlueNexus.Command

def Request.paths : Request → List Text
  | .version => []
  | .run program settings _ _ | .tokens program settings =>
    match program with
    | .file path => settings.toList ++ [path]
    | .inline _ => settings.toList

/-- The number of a cause of failure, which comes with either sign. -/
def causeNumber (code : UInt32) : Nat := code.toInt32.toInt.natAbs

def readFile (path : Text) : IO (Except ReadError Text) := do
  try return decode (← IO.FS.readBinFile (String.ofList path))
  catch e =>
    match e with
    | .noFileOrDirectory .. => return .error .missing
    | .inappropriateType _ code _ =>
      return .error (if causeNumber code = 20 then .notDirectory else .directory)
    | .invalidArgument _ code _ =>
      return .error (if causeNumber code = 36 then .nameTooLong else .other e.toString.toList)
    | e => return .error (.other e.toString.toList)

def readFiles (paths : List Text) : IO Files := do
  let contents ← paths.mapM fun path => return (path, ← readFile path)
  return fun path => ((contents.find? (·.1 = path)).map (·.2)).getD (.error .missing)

def write (stream : IO.FS.Stream) (t : Text) : IO Unit := do
  stream.putStr (String.ofList t)
  stream.flush

def flush (t : Terminal) : IO Terminal := do
  write (← IO.getStdout) t.stdoutText
  write (← IO.getStderr) t.stderrText
  return { t with stdout := [], stderr := [] }

def readLine (t : Terminal) : IO Terminal := do
  write (← IO.getStderr) Terminal.prompt
  let line ← try (← IO.getStdin).getLine catch _ => pure ""
  return { t with stdin := line.toList }

/-- Runs a session to its end, with all it writes written out step by step. -/
partial def interact (limit : Nat) (s : Session Terminal) :
    IO (Session Terminal × Option Fault) := do
  let move := s.machine.step limit
  let prompts := match move with
    | .ask _ => s.host.queue.isEmpty
    | _ => false
  let host ← if prompts then readLine s.host else pure s.host
  match { s with host }.move move with
  | .ended s fault => return (s, fault)
  | .ongoing s =>
    let host ← if prompts then pure { s.host with stderr := [] } else flush s.host
    interact limit { s with host }

def runInteractive (settings : Settings) (source : Text) (inputs : List Text) : IO Nat := do
  let host : Terminal := { queue := inputs, stdin := [] }
  let (s, fault) ← match programTokens settings.limit source with
    | .error e => pure (Session.start [] host, some e)
    | .ok tokens => interact settings.limit (Session.start tokens host)
  discard (flush (s.conclude settings fault).host.closeLine)
  return exitCode fault

def give : Response → IO Nat
  | .usage => do
    write (← IO.getStderr) ("Usage: bnx <run|tokens> [OPTIONS] <FILE|-e CODE>\n").toList
    return 2
  | .done exit stdout stderr => do
    write (← IO.getStdout) stdout
    write (← IO.getStderr) stderr
    return exit

def carryOut (arguments : List Text) : IO Nat := do
  let paths := ((Request.ofArguments? arguments).map Request.paths).getD []
  let files ← readFiles paths
  match Request.ofArguments? arguments with
  | some (.run program settings inputs quiet) =>
    match load files program settings with
    | .error e => give (.failed 1 e)
    | .ok (s, source) =>
      runInteractive (if quiet then s.withCompletionNotice false else s) source inputs
  | _ => give ((respond arguments files [] 0).getD .usage)

end BlueNexus.Command

def main (arguments : List String) : IO UInt32 := do
  return (← BlueNexus.Command.carryOut (arguments.map (·.toList))).toUInt32
