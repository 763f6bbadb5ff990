import BlueNexus.Name
import BlueNexus.Numeral

/-!
# Hosts

A run shows nothing itself. It calls its host, which is told what happens and is asked for input. A
host is any type of state that says how a call changes it and what it replies next.

A run asks for one integer at a time and goes on with whatever the reply comes to: an integer is
taken as it is, a decimal numeral by its floor, and anything else as zero.
-/

namespace BlueNexus

inductive Reply where
  | provided (text : Text)
  | declined
deriving DecidableEq

def Reply.scalar : Reply → Int64
  | .declined => 0
  | .provided text =>
    let t := Text.trim text
    ((Numeral.whole? t).or ((Numeral.Scientific.ofText? t).bind Numeral.Scientific.floor?)).getD 0

inductive Notice where
  | output (text : Text)
  /-- A snapshot of the stack, bottom first. -/
  | stack (values : List Int64)
  | variable (x : Name) (rendered : Text)
  | fault (message : Text) (offset : Nat)
deriving DecidableEq

/-- One call of a host: a notice, or a request with the reply to it. -/
inductive Call where
  | notice (n : Notice)
  | input (reply : Reply)
deriving DecidableEq

class Host (σ : Type) where
  reply : σ → Reply
  after : Call → σ → σ

def Call.text? : Call → Option Text
  | .notice (.output t) => some t
  | _ => none

end BlueNexus
