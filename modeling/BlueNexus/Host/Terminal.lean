import BlueNexus.Session

/-!
# The terminal as a host

Output goes to standard output, everything else to standard error. Requests are answered from a
queue, and once that is empty by the lines of standard input, each after a prompt.
-/

namespace BlueNexus

structure Terminal where
  queue : List Text
  stdin : Text
  /-- What has been written to standard output, the latest first. -/
  stdout : List Text := []
  stderr : List Text := []
  /-- Whether the last line on standard output lacks its end. -/
  lineOpen : Bool := false
deriving DecidableEq

namespace Terminal

def prompt : Text := "Enter input: ".toList

def takeLine : Text → Text × Text
  | [] => ([], [])
  | '\n' :: r => (['\n'], r)
  | c :: r => (c :: (takeLine r).1, (takeLine r).2)

/-- The lines of a text, each with its end. The last may have none, but is not empty. -/
def lines : Text → List Text
  | [] => []
  | '\n' :: r => ['\n'] :: lines r
  | c :: r =>
    match lines r with
    | [] => [[c]]
    | l :: ls => (c :: l) :: ls

@[simp] theorem takeLine_append (t : Text) : (takeLine t).1 ++ (takeLine t).2 = t := by
  fun_induction takeLine t with
  | case1 => rfl
  | case2 r => rfl
  | case3 c r _ ih => exact congrArg (c :: ·) ih

theorem lines_eq_cons {t : Text} (h : t ≠ []) :
    lines t = (takeLine t).1 :: lines (takeLine t).2 := by
  fun_induction takeLine t with
  | case1 => exact absurd rfl h
  | case2 r => rfl
  | case3 c r hc ih =>
    rw [lines.eq_3 _ _ hc]
    cases r with
    | nil => rfl
    | cons d r => rw [ih (List.cons_ne_nil d r)]

def noticeText : Notice → Text
  | .output _ => []
  | .stack values =>
    "--- stack (".toList ++ Nat.toDigits 10 values.length ++ " items, top first) ---\n".toList ++
      values.reverse.flatMap fun n => [' ', ' '] ++ Numeral.decimal n ++ ['\n']
  | .variable x rendered =>
    "--- variable ".toList ++ [x.letter] ++ " ---\n  ".toList ++ rendered ++ ['\n']
  | .fault message _ => message ++ ['\n']

/-- An empty output leaves the line as it was. -/
def openAfter (t : Text) (lineOpen : Bool) : Bool :=
  match t.getLast? with
  | none => lineOpen
  | some c => c ≠ '\n'

instance : Host Terminal where
  reply t :=
    match t.queue, (takeLine t.stdin).1 with
    | reply :: _, _ => .provided reply
    | [], [] => .declined
    | [], line => .provided line
  after c t :=
    match c with
    | .notice (.output text) =>
      { t with stdout := text :: t.stdout, lineOpen := openAfter text t.lineOpen }
    | .notice n => { t with stderr := noticeText n :: t.stderr }
    | .input _ =>
      match t.queue with
      | _ :: queue => { t with queue }
      | [] => { t with stdin := (takeLine t.stdin).2, stderr := prompt :: t.stderr }

def closeLine (t : Terminal) : Terminal :=
  if t.lineOpen then { t with stdout := ['\n'] :: t.stdout, lineOpen := false } else t

def stdoutText (t : Terminal) : Text := t.stdout.reverse.flatten

def stderrText (t : Terminal) : Text := t.stderr.reverse.flatten

end Terminal

end BlueNexus
