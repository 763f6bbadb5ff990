import BlueNexus.Name

/-!
# Faults that end a run

A fault carries its place: the offset of a character in the source without its separators. Whatever
else may go wrong in a program has no effect and no fault.
-/

namespace BlueNexus

inductive Fault where
  /-- A form that is not closed, or lacks a part. -/
  | malformed (offset : Nat)
  | nestingTooDeep (offset limit : Nat)
  /-- A literal beyond 64 bits. -/
  | badLiteral (offset : Nat)
  | unknownCommand (offset : Nat) (found : Char)
  | undefinedVariable (offset : Nat) (name : Name)
deriving DecidableEq

namespace Fault

def offset : Fault → Nat
  | .malformed o | .nestingTooDeep o _ | .badLiteral o | .unknownCommand o _
  | .undefinedVariable o _ => o

def shift (d : Nat) : Fault → Fault
  | .malformed o => .malformed (o + d)
  | .nestingTooDeep o l => .nestingTooDeep (o + d) l
  | .badLiteral o => .badLiteral (o + d)
  | .unknownCommand o c => .unknownCommand (o + d) c
  | .undefinedVariable o x => .undefinedVariable (o + d) x

def isSyntax : Fault → Bool
  | .undefinedVariable .. => false
  | _ => true

def message (f : Fault) : Text :=
  let place := " @ char ".toList ++ Nat.toDigits 10 f.offset
  match f with
  | .malformed _ => "[BN-02] Syntax Error".toList ++ place
  | .nestingTooDeep _ limit =>
    "[BN-02] Syntax Error".toList ++ place ++ ": nesting deeper than ".toList ++
      Nat.toDigits 10 limit
  | .badLiteral _ =>
    "[BN-02] Syntax Error".toList ++ place ++ ": integer literal out of range".toList
  | .unknownCommand _ found => "[BN-06] Unknown Command".toList ++ place ++ [':', ' ', found]
  | .undefinedVariable _ name =>
    "[BN-01] Undefined Variable".toList ++ place ++ [':', ' ', name.letter]

end Fault

end BlueNexus
