import BlueNexus.Text

/-!
# Settings

A settings file has one setting a line, `max_nesting_depth` or `completion_notice`, each at most
once. Keys may be quoted, integers may be grouped by underscores or written in base 16, 8 or 2, and
a `#` begins a comment. A file that holds anything else has no settings, and what is wrong with it
is not said.
-/

namespace BlueNexus

structure Settings where
  /-- How deep brackets, blocks and nested code may go. -/
  maxNestingDepth : Nat := 64
  /-- Whether a run that ends well and prints nothing says that it is complete. -/
  completionNotice : Bool := true
deriving DecidableEq

namespace Settings

def limit (s : Settings) : Nat := max 1 s.maxNestingDepth

theorem limit_pos (s : Settings) : 0 < s.limit := Nat.le_max_left 1 s.maxNestingDepth

def withMaxNestingDepth (depth : Nat) (s : Settings) : Settings :=
  { s with maxNestingDepth := max 1 depth }

def withCompletionNotice (enabled : Bool) (s : Settings) : Settings :=
  { s with completionNotice := enabled }

inductive Setting where
  | depth (n : Nat)
  | notice (enabled : Bool)

def isInset (c : Char) : Bool := c = ' ' || c = '\t'

/-- The digits of a numeral without the underscores, each of which must part two digits. -/
def ungroup? (isDigit : Char → Bool) : Text → Option Text
  | [] => none
  | [c] => if isDigit c then some [c] else none
  | c :: '_' :: r => if isDigit c then (ungroup? isDigit r).map (c :: ·) else none
  | c :: r => if isDigit c then (ungroup? isDigit r).map (c :: ·) else none

def digitValue (c : Char) : Nat :=
  if c.isDigit then c.toNat - '0'.toNat
  else if c.isUpper then c.toNat - 'A'.toNat + 10
  else c.toNat - 'a'.toNat + 10

def isDigitBelow (base : Nat) (c : Char) : Bool := c.isAlphanum && digitValue c < base

def inBase? (base : Nat) (t : Text) : Option Nat :=
  (ungroup? (isDigitBelow base) t).map fun digits =>
    digits.foldl (fun n c => base * n + digitValue c) 0

/-- A decimal numeral has no needless zero in front. -/
def decimal? : Text → Option Nat
  | ['0'] => some 0
  | '0' :: _ => none
  | t => inBase? 10 t

/-- An integer that is not negative and that 64 bits hold with a sign. -/
def natural? (t : Text) : Option Nat :=
  let n := match t with
    | '0' :: 'x' :: r => inBase? 16 r
    | '0' :: 'o' :: r => inBase? 8 r
    | '0' :: 'b' :: r => inBase? 2 r
    | '+' :: r => decimal? r
    | '-' :: r => (decimal? r).filter (· = 0)
    | t => decimal? t
  n.filter (· < Nat.pow 2 63)

def boolean? (t : Text) : Option Bool :=
  if t = "true".toList then some true
  else if t = "false".toList then some false
  else none

def escaped? (digits : Text) : Option Char :=
  if digits.all (isDigitBelow 16) then
    some (Char.ofNat (digits.foldl (fun n c => 16 * n + digitValue c) 0))
  else none

/-- A key in quotes whose opening quote is gone, and what follows it. Of the escapes only those by
code point can occur in a key that is known. -/
def takeQuoted? : Text → Option (Text × Text)
  | [] => none
  | '"' :: r => some ([], r)
  | '\\' :: 'u' :: a :: b :: c :: d :: r => do
    let e ← escaped? [a, b, c, d]
    let (key, r) ← takeQuoted? r
    some (e :: key, r)
  | '\\' :: 'U' :: '0' :: '0' :: '0' :: '0' :: a :: b :: c :: d :: r => do
    let e ← escaped? [a, b, c, d]
    let (key, r) ← takeQuoted? r
    some (e :: key, r)
  | '\\' :: _ => none
  | c :: r => (takeQuoted? r).map fun s => (c :: s.1, s.2)

def takeKey? : Text → Option (Text × Text)
  | '"' :: r => takeQuoted? r
  | '\'' :: r =>
    match r.dropWhile (· ≠ '\'') with
    | [] => none
    | _ :: s => some (r.takeWhile (· ≠ '\''), s)
  | t =>
    let bare := fun c : Char => c.isAlphanum || c = '_' || c = '-'
    some (t.takeWhile bare, t.dropWhile bare)

/-- Whether a line may end in this text: in nothing, or in a comment without control characters. -/
def isLineEnd : Text → Bool
  | [] => true
  | '#' :: r => r.all fun c => c = '\t' || ' ' ≤ c && c ≠ '\x7f'
  | _ => false

def setting? (key value : Text) : Option Setting :=
  if key = "max_nesting_depth".toList then (natural? value).map .depth
  else if key = "completion_notice".toList then (boolean? value).map .notice
  else none

/-- What a line sets, if anything. The outer `none` is for a line that is not understood. -/
def line? (t : Text) : Option (Option Setting) :=
  let t := t.dropWhile isInset
  if isLineEnd t then some none
  else do
    let (key, r) ← takeKey? t
    match r.dropWhile isInset with
    | '=' :: r =>
      let r := r.dropWhile isInset
      let isValue := fun c => !isInset c && c ≠ '#'
      let s ← setting? key (r.takeWhile isValue)
      if isLineEnd ((r.dropWhile isValue).dropWhile isInset) then some (some s) else none
    | _ => none

def linesOf : Text → List Text
  | [] => [[]]
  | '\n' :: r => [] :: linesOf r
  | '\r' :: '\n' :: r => [] :: linesOf r
  | c :: r =>
    match linesOf r with
    | [] => [[c]]
    | l :: ls => (c :: l) :: ls

structure Partial where
  depth : Option Nat := none
  notice : Option Bool := none

/-- Nothing is set twice. -/
def Partial.add (p : Partial) : Option Setting → Option Partial
  | none => some p
  | some (.depth n) => if p.depth = none then some { p with depth := some n } else none
  | some (.notice b) => if p.notice = none then some { p with notice := some b } else none

/-- Reads a settings file, in front of which a byte order mark is ignored. -/
def ofText? (t : Text) : Option Settings := do
  let t := match t with
    | '\uFEFF' :: r => r
    | t => t
  let p ← (linesOf t).foldlM (fun p l => (line? l).bind p.add) ({} : Partial)
  some ⟨p.depth.getD 64, p.notice.getD true⟩

end Settings

end BlueNexus
