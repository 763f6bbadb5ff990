import BlueNexus.Session

/-!
# A host that records

The recorder answers requests from a queue, and declines them when the queue is empty. It keeps
every call. It can serve several programs in turn, each of which goes on with the queue that the
program before it left.
-/

namespace BlueNexus

structure Recorder where
  queue : List Text
  /-- All calls so far, the latest first. -/
  heard : List Call := []
deriving DecidableEq

namespace Recorder

instance : Host Recorder where
  reply r :=
    match r.queue with
    | [] => .declined
    | t :: _ => .provided t
  after c r :=
    match c with
    | .notice _ => { r with heard := c :: r.heard }
    | .input _ => ⟨r.queue.tail, c :: r.heard⟩

def outputText (r : Recorder) : Text := (r.heard.reverse.filterMap Call.text?).flatten

def runAll (settings : Settings) (steps : Nat) :
    Recorder → List Text → Option (List (Report Recorder) × Recorder)
  | r, [] => some ([], r)
  | r, source :: sources => do
    let report ← runProgram settings source r steps
    let (reports, r) ← runAll settings steps report.host sources
    some (report :: reports, r)

end Recorder

end BlueNexus
