import BlueNexus.Fault
import BlueNexus.Form
import BlueNexus.Form.Nesting
import BlueNexus.Form.Quotation
import BlueNexus.Numeral

/-!
# Reading forms

A form is recognised by its first character, and for a few by what follows it. Reading it takes a
stretch off the front of the text and never looks behind. The tokens of a fragment are the forms
that are read one after the other from its front to its end. The first fault is the result.
-/

namespace BlueNexus.Form

/-- A form read off the front of a text, and how many characters it takes after the first. A dot
and a dollar sign without a name take their place and are no form. -/
structure Reading where
  form : Option Form
  extent : Nat

def takeTo? (close : Char) : Text → Option (Text × Text)
  | [] => none
  | c :: r => if c = close then some ([], r) else (takeTo? close r).map fun s => (c :: s.1, s.2)

theorem eq_of_takeTo? {close : Char} {t a b : Text} (h : takeTo? close t = some (a, b)) :
    t = a ++ close :: b ∧ close ∉ a := by
  induction t generalizing a with
  | nil => cases h
  | cons c r ih =>
    rw [takeTo?.eq_2] at h
    by_cases hc : c = close
    · rw [if_pos hc] at h
      cases h
      exact ⟨congrArg (· :: _) hc, List.not_mem_nil⟩
    · rw [if_neg hc] at h
      obtain ⟨⟨a', b'⟩, hr, he⟩ := Option.map_eq_some_iff.1 h
      cases he
      obtain ⟨ht, hn⟩ := ih hr
      exact ⟨congrArg (c :: ·) ht, List.not_mem_cons_of_ne_of_not_mem (Ne.symm hc) hn⟩

@[simp] theorem takeTo?_append {close : Char} {a : Text} (h : close ∉ a) (b : Text) :
    takeTo? close (a ++ close :: b) = some (a, b) := by
  induction a with
  | nil => exact if_pos rfl
  | cons c a ih =>
    rw [List.cons_append, takeTo?.eq_2, if_neg (List.ne_of_not_mem_cons h).symm,
      ih (List.not_mem_of_not_mem_cons h)]
    rfl

def behind? (c : Char) : Text → Option Text
  | [] => none
  | a :: r => if a = c then some r else none

/-- How many digits follow on, from `offset`, up to a break. The breaks are looked through for the
offset. They ascend in every fragment of a source (`Fragment.pairwise_sourceBreaks`), where a search
by halving would find the same. -/
def digitRun (breaks : List Nat) : (offset : Nat) → Text → Nat
  | _, [] => 0
  | offset, c :: r =>
    if c.isDigit && !breaks.contains offset then digitRun breaks (offset + 1) r + 1 else 0

theorem digitRun_le_length (breaks : List Nat) (offset : Nat) (t : Text) :
    digitRun breaks offset t ≤ t.length := by
  fun_induction digitRun breaks offset t with
  | case1 => exact Nat.le_refl 0
  | case2 offset c r _ ih => exact Nat.succ_le_succ ih
  | case3 => exact Nat.zero_le _

def readNumber (breaks : List Nat) (offset : Nat) (c : Char) (r : Text) : Except Fault Reading :=
  let n := digitRun breaks (offset + 1) r
  match Numeral.signed? false (c :: r.take n) with
  | some v => .ok ⟨some (.number v), n⟩
  | none => .error (.badLiteral offset)

def readString (offset : Nat) (r : Text) : Except Fault Reading :=
  match Quotation.read? r with
  | some (t, n) => .ok ⟨some (.string t), n⟩
  | none => .error (.malformed offset)

def readDebug (r : Text) : Reading :=
  let t := r.takeWhile fun c => c.isAlpha || c = '='
  ⟨some (.debug ('_' :: t)), t.length⟩

def readDrop (offset : Nat) (r : Text) : Except Fault Reading :=
  match takeTo? ']' r with
  | some (param, _) => .ok ⟨some (.drop param), param.length + 2⟩
  | none => .error (.malformed offset)

def readDot : Text → Reading
  | '$' :: r =>
    match Name.leading? r with
    | some x => ⟨some (.rotate x), 2⟩
    | none => ⟨none, 1⟩
  | _ => ⟨some (.glyph .dot), 0⟩

/-- An expression runs to the next `<`, or else to the end. -/
def readExpression (x : Name) (r : Text) : Reading :=
  let t := r.takeWhile (· ≠ '<')
  ⟨some (.expression x t), 1 + t.length + if t.length < r.length then 1 else 0⟩

/-- A block runs to the close of its body, or else to the end. -/
def readBlock (limit : Nat) (breaks : List Nat) (offset : Nat) (x : Name) (r : Text) :
    Except Fault Reading :=
  let start := offset + 3
  match Nesting.extent Nesting.blocks limit 0 r with
  | .closed n => .ok ⟨some (.block x (.code breaks start (r.take n))), n + 3⟩
  | .unclosed => .ok ⟨some (.block x (.code breaks start r)), r.length + 2⟩
  | .tooDeep n => .error (.nestingTooDeep (start + n) limit)

structure Heading where
  kind : Text
  predicate : Text
  rest : Text

def Heading.ofText? (t : Text) : Option Heading := do
  let (kind, r) ← takeTo? ']' (← behind? '[' t)
  let (predicate, r) ← takeTo? '}' (← behind? '{' r)
  some ⟨kind, predicate, ← behind? '(' r⟩

/-- A conditional whose predicate is read without breaks. -/
def readConditional (limit : Nat) (breaks : List Nat) (offset : Nat) (r : Text) :
    Except Fault Reading :=
  match Heading.ofText? r with
  | none => .error (.malformed offset)
  | some h =>
    let start := offset + 6 + h.kind.length + h.predicate.length
    match Nesting.extent Nesting.parentheses limit 0 h.rest with
    | .unclosed => .error (.malformed offset)
    | .tooDeep n => .error (.nestingTooDeep (start + n) limit)
    | .closed n =>
      let predicate := ⟨h.predicate, offset + 4 + h.kind.length, []⟩
      let command := .code breaks start (h.rest.take n)
      .ok ⟨some (.conditional (.ofText h.kind) predicate command),
        h.kind.length + h.predicate.length + n + 6⟩

def readMark (offset : Nat) (c : Char) (r : Text) : Except Fault Reading :=
  match r.head?.bind (Comparison.ofPair? c), Glyph.ofChar? c, Name.ofChar? c with
  | some op, _, _ => .ok ⟨some (.comparison op), 1⟩
  | none, some g, _ => .ok ⟨some (.glyph g), 0⟩
  | none, none, some x => .ok ⟨some (.variable x), 0⟩
  | none, none, none => .error (.unknownCommand offset c)

def read (limit : Nat) (breaks : List Nat) (offset : Nat) (c : Char) (r : Text) :
    Except Fault Reading :=
  if c = '?' then readConditional limit breaks offset r
  else if c = '"' then readString offset r
  else if c.isDigit then readNumber breaks offset c r
  else if c = '_' then .ok (readDebug r)
  else if c = '.' then .ok (readDot r)
  else
    match c, Name.leading? r, r with
    | '>', some x, _ :: '<' :: r => readBlock limit breaks offset x r
    | '>', some x, _ :: r => .ok (readExpression x r)
    | '↡', _, '[' :: r => readDrop offset r
    | '▼', _, '[' :: r => readDrop offset r
    | c, _, r => readMark offset c r

end BlueNexus.Form

namespace BlueNexus.Fragment

/-- The tokens of a text at `offset`, of which the first `skip` characters belong to a form already
read. -/
def tokensFrom (limit : Nat) (breaks : List Nat) :
    (skip offset : Nat) → Text → Except Fault (List Token)
  | _, _, [] => .ok []
  | skip + 1, offset, _ :: r => tokensFrom limit breaks skip (offset + 1) r
  | 0, offset, c :: r =>
    match Form.read limit breaks offset c r with
    | .error e => .error e
    | .ok x =>
      match tokensFrom limit breaks x.extent (offset + 1) r with
      | .error e => .error e
      | .ok ts => .ok ((x.form.toList.map (⟨·, offset⟩)) ++ ts)

def tokens (limit : Nat) (f : Fragment) : Except Fault (List Token) :=
  tokensFrom limit f.breaks 0 f.offset f.text

theorem tokensFrom_skip (limit : Nat) (breaks : List Nat) (skip offset : Nat) (t : Text) :
    tokensFrom limit breaks skip offset t =
      tokensFrom limit breaks 0 (offset + skip) (t.drop skip) := by
  induction t generalizing skip offset with
  | nil => simp [tokensFrom]
  | cons c r ih =>
    cases skip with
    | zero => simp
    | succ skip =>
      rw [tokensFrom, ih, List.drop_succ_cons]
      congr 1
      omega

variable {limit offset : Nat} {breaks : List Nat} {c : Char} {r : Text}

theorem tokensFrom_of_error {e : Fault} (h : Form.read limit breaks offset c r = .error e) :
    tokensFrom limit breaks 0 offset (c :: r) = .error e := by
  simp only [tokensFrom, h]

/-- A form that is read comes before the tokens of what is behind it. -/
theorem tokensFrom_of_ok {x : Form.Reading} (h : Form.read limit breaks offset c r = .ok x) :
    tokensFrom limit breaks 0 offset (c :: r) =
      (tokensFrom limit breaks 0 (offset + 1 + x.extent) (r.drop x.extent)).map
        ((x.form.map fun form => ⟨form, offset⟩).toList ++ ·) := by
  simp only [tokensFrom, h, tokensFrom_skip limit breaks x.extent]
  cases tokensFrom limit breaks 0 (offset + 1 + x.extent) (r.drop x.extent) with
  | error e => rfl
  | ok ts => cases x.form <;> rfl

end BlueNexus.Fragment
