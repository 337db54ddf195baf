import MarkupTree.Text.Printable

/-!
# Quoted display

Diagnostics show a string between double quotes, on one line, with every character that could not
be seen or told apart written as an escape.

## Main definitions

* `Text.hexDigits` : a number in hexadecimal, in small letters.
* `Text.quoted` : a string as diagnostics show it.
* `Text.quotedOption`, `Text.quotedList` : the same for a string that may be absent, and for a list.
-/

namespace MarkupTree.Text

/-- A number in hexadecimal, in small letters. -/
def hexDigits (n : Nat) : List Char := Nat.toDigits 16 n

/-- One character as it is shown between quotes. -/
def quotedChar (c : Char) : List Char :=
  if c = '"' then ['\\', '"']
  else if c = '\\' then ['\\', '\\']
  else if c = '\n' then ['\\', 'n']
  else if c = '\r' then ['\\', 'r']
  else if c = '\t' then ['\\', 't']
  else if c = '\x00' then ['\\', '0']
  else if isPrintable c then [c]
  else '\\' :: 'u' :: '\x7b' :: hexDigits c.toNat ++ ['\x7d']

/-- A string as diagnostics show it. -/
def quoted (s : String) : String :=
  String.ofList ('"' :: s.toList.flatMap quotedChar ++ ['"'])

/-- A string that may be absent, as diagnostics show it. -/
def quotedOption : Option String → String
  | some s => "Some(" ++ quoted s ++ ")"
  | none => "None"

/-- A list of strings, as diagnostics show it. -/
def quotedList (items : List String) : String :=
  "[" ++ ", ".intercalate (items.map quoted) ++ "]"

end MarkupTree.Text
