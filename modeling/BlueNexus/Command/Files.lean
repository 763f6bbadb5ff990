import BlueNexus.Text

/-!
# The files that a command reads

A path is a list of names with slashes between them, and is walked a name at a time. A walk starts
in the working directory, or at the root if the path begins with a slash. Only a directory can be
walked on from, and only a file can be read.
-/

namespace BlueNexus.Command

inductive ReadError where
  | missing
  | notDirectory
  | directory
  | nameTooLong
  | notText
  /-- Any other cause, in the words of the system. -/
  | other (cause : Text)

def ReadError.message : ReadError → Text
  | .missing => "No such file or directory (os error 2)".toList
  | .notDirectory => "Not a directory (os error 20)".toList
  | .directory => "Is a directory (os error 21)".toList
  | .nameTooLong => "File name too long (os error 36)".toList
  | .notText => "stream did not contain valid UTF-8".toList
  | .other cause => cause

/-- The content of the file at a path, or why there is none. -/
abbrev Files := Text → Except ReadError Text

def decode (bytes : ByteArray) : Except ReadError Text :=
  match String.fromUTF8? bytes with
  | some s => .ok s.toList
  | none => .error .notText

/-- The names in a path. Nothing between two slashes, or at an end, is an empty name. -/
def names : Text → List Text
  | [] => [[]]
  | c :: r => if c = '/' then [] :: names r else
    match names r with
    | [] => [[c]]
    | n :: ns => (c :: n) :: ns

/-- The files below a place, each with the names that lead to it. No name leads from a file to
itself, and what has no files below it and is not one is an empty directory. -/
abbrev Place := List (List Text × ByteArray)

namespace Place

def content? (p : Place) : Option ByteArray := (p.find? (·.1 = [])).map (·.2)

def enter (name : Text) (p : Place) : Place :=
  p.filterMap fun f => if f.1.head? = some name then some (f.1.tail, f.2) else none

def ofFiles (files : List (Text × ByteArray)) : Place :=
  files.map fun f => ((names f.1).filter fun n => n ≠ [] ∧ n ≠ ['.'], f.2)

/-- The root as far as it is known, which is the null device. -/
def root : Place := [(["dev".toList, "null".toList], .empty)]

end Place

/-- A place, and the directories it lies in, the innermost first. The outermost lies in itself. -/
structure Location where
  here : Place
  above : List Place

def byteLength (t : Text) : Nat := (String.ofList t).utf8ByteSize

def nameLimit : Nat := 255

def pathLimit : Nat := 4095

/-- Follows one name. An empty name and a dot stay in the directory, two dots leave it. -/
def Location.follow (l : Location) (name : Text) : Except ReadError Location :=
  if l.here.content?.isSome then .error .notDirectory
  else if name = [] ∨ name = ['.'] then .ok l
  else if name = ['.', '.'] then
    match l.above with
    | [] => .ok l
    | p :: above => .ok ⟨p, above⟩
  else if nameLimit < byteLength name then .error .nameTooLong
  else
    match l.here.enter name with
    | [] => .error .missing
    | p => .ok ⟨p, l.here :: l.above⟩

def Location.read (l : Location) : Except ReadError Text :=
  match l.here.content? with
  | some bytes => decode bytes
  | none => .error .directory

/-- The files of the root and of a working directory, which lies in one that holds nothing else. -/
def Files.ofPlace (working : Place) : Files := fun path =>
  if path = [] then .error .missing
  else if pathLimit < byteLength path then .error .nameTooLong
  else do
    let start : Location := if path.head? = some '/' then ⟨.root, []⟩ else ⟨working, [[]]⟩
    (← (names path).foldlM Location.follow start).read

end BlueNexus.Command
