import BlueNexus.Form
import BlueNexus.Numeral

/-!
# Token lists for reading

A token is listed as its offset, set right in four columns, and its form. A text in quotes is one
visible line: quotes, backslashes and line ends are written with a backslash, unseen characters by
their code point in braces, and all others as they are.
-/

namespace BlueNexus

namespace Text

def quotedChar (c : Char) : Text :=
  match c with
  | '\x00' => ['\\', '0']
  | '\t' => ['\\', 't']
  | '\r' => ['\\', 'r']
  | '\n' => ['\\', 'n']
  | '"' => ['\\', '"']
  | '\\' => ['\\', '\\']
  | c =>
    if isUnseen c then ['\\', 'u', '\x7b'] ++ Nat.toDigits 16 c.toNat ++ ['\x7d'] else [c]

def quoted (t : Text) : Text := '"' :: t.flatMap quotedChar ++ ['"']

end Text

open Text Numeral

def Form.describe : Form → Text
  | .number n => "number ".toList ++ decimal n
  | .string t => "string ".toList ++ quoted t
  | .variable x => "var ".toList ++ [x.letter]
  | .expression x t => "var-expr ".toList ++ [x.letter, ' '] ++ quoted t
  | .block x body => "var-block ".toList ++ [x.letter, ' '] ++ quoted body.text
  | .conditional kind predicate command =>
    "conditional ".toList ++ kind.toText ++ [' ', '\x7b'] ++ predicate.text ++
      ['\x7d', ' ', '('] ++ command.text ++ [')']
  | .drop param => "popn [".toList ++ param ++ [']']
  | .debug command => "debug ".toList ++ command
  | .glyph g => "glyph ".toList ++ [g.toChar]
  | .comparison op => "compare ".toList ++ op.symbol
  | .rotate x => "rotate ".toList ++ [x.letter]
  | .pushNumber n => "push-number ".toList ++ decimal n
  | .pushVariable x => "push-variable ".toList ++ [x.letter]
  | .pushInput => "push-input".toList

def Text.alignRight (width : Nat) (t : Text) : Text := List.replicate (width - t.length) ' ' ++ t

def Token.line (t : Token) : Text :=
  alignRight 4 (Nat.toDigits 10 t.offset) ++ [' ', ' '] ++ t.form.describe

end BlueNexus
