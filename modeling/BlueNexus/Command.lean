import BlueNexus.Command.Files
import BlueNexus.Command.Line
import BlueNexus.Host.Terminal
import BlueNexus.Settings.Reader
import BlueNexus.Token.Listing

/-!
# What the command does

A response is what the command writes and its exit code: 2 where the program has a fault, 1 where a
file cannot be used. The settings are loaded before the program is read.

There are no scripts for the completion of shell commands, no log, and no words on what is wrong
with the arguments or with a settings file.
-/

namespace BlueNexus.Command

inductive Response where
  /-- The arguments are refused. -/
  | usage
  | done (exit : Nat) (stdout stderr : Text)

def Response.failed (exit : Nat) (message : Text) : Response := .done exit [] message

/-- The settings of a request, or the message that there are none. -/
def loadSettings (files : Files) : Option Text → Except Text Settings
  | none => .ok {}
  | some path =>
    match files path with
    | .error e =>
      .error
        ("Error: Failed to read config file ".toList ++ path ++ [':', ' '] ++ e.message ++ ['\n'])
    | .ok t =>
      match Settings.ofText? t with
      | none => .error "Error: Failed to parse interpreter config: ".toList
      | some s => .ok s

def loadProgram (files : Files) : Program → Except Text Text
  | .inline code => .ok code
  | .file path =>
    match files path with
    | .error e =>
      .error ("Error: failed to read ".toList ++ path ++ [':', ' '] ++ e.message ++ ['\n'])
    | .ok t => .ok t

def load (files : Files) (program : Program) (settings : Option Text) :
    Except Text (Settings × Text) :=
  match loadSettings files settings with
  | .error e => .error e
  | .ok s =>
    match loadProgram files program with
    | .error e => .error e
    | .ok t => .ok (s, t)

def exitCode (fault : Option Fault) : Nat := if fault.isSome then 2 else 0

def listTokens (settings : Settings) (source : Text) : Response :=
  match programTokens settings.limit source with
  | .error e => .failed 2 (e.message ++ ['\n'])
  | .ok ts => .done 0 (ts.flatMap fun t => t.line ++ ['\n']) []

def runAtTerminal (settings : Settings) (source : Text) (inputs : List Text) (stdin : Text)
    (steps : Nat) : Option Response :=
  (runProgram settings source ({ queue := inputs, stdin } : Terminal) steps).map fun report =>
    let terminal := report.host.closeLine
    .done (exitCode report.fault) terminal.stdoutText terminal.stderrText

def versionText : Text := "bnx 0.3.0\n".toList

/-- The whole command. It has no response if a program needs more than the given number of steps. -/
def respond (arguments : List Text) (files : Files) (stdin : Text) (steps : Nat) :
    Option Response :=
  match Request.ofArguments? arguments with
  | none => some .usage
  | some .version => some (.done 0 versionText [])
  | some (.tokens program settings) =>
    match load files program settings with
    | .error e => some (.failed 1 e)
    | .ok (s, source) => some (listTokens s source)
  | some (.run program settings inputs quiet) =>
    match load files program settings with
    | .error e => some (.failed 1 e)
    | .ok (s, source) =>
      runAtTerminal (if quiet then s.withCompletionNotice false else s) source inputs stdin steps

end BlueNexus.Command
