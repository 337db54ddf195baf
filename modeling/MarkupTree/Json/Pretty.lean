import MarkupTree.Json.Value
import MarkupTree.Text.Quoted

/-!
# Writing JSON

The written form has one line for every element and member, indented by two spaces for every array
and object around it. Empty arrays and objects take no line of their own.

## Main definitions

* `Json.writeString` : a string between quotes.
* `Json.write` : a value whose first line is already indented, put before a text.
* `Json.pretty` : a value as a text of its own.
-/

namespace MarkupTree.Json

/-- The spaces before a line within a given number of arrays and objects. -/
def padding (depth : Nat) : List Char := List.replicate (2 * depth) ' '

/-- One character as it is written in a string. Only what has to be escaped is. -/
def writeChar (c : Char) : List Char :=
  if c = '"' then ['\\', '"']
  else if c = '\\' then ['\\', '\\']
  else if c = '\x08' then ['\\', 'b']
  else if c = '\x0c' then ['\\', 'f']
  else if c = '\n' then ['\\', 'n']
  else if c = '\r' then ['\\', 'r']
  else if c = '\t' then ['\\', 't']
  else if c < ' ' then
    let digits := Text.hexDigits c.toNat
    '\\' :: 'u' :: List.replicate (4 - digits.length) '0' ++ digits
  else [c]

/-- A string between quotes. -/
def writeString (s : String) : List Char := '"' :: s.toList.flatMap writeChar ++ ['"']

/-- The key of a member, and what separates it from the value. -/
def writeKey (key : String) : List Char := writeString key ++ ": ".toList

/-- The end of a line, and the indent of the next. -/
def newline (depth : Nat) : List Char := '\n' :: padding depth

mutual

/-- A value within `depth` arrays and objects, with `rest` after it. -/
def write (depth : Nat) : (value : Json) → (rest : List Char) → List Char
  | null, rest => "null".toList ++ rest
  | bool true, rest => "true".toList ++ rest
  | bool false, rest => "false".toList ++ rest
  | number n, rest => n.write ++ rest
  | string s, rest => writeString s ++ rest
  | array [], rest => '[' :: ']' :: rest
  | array (j :: js), rest =>
    '[' :: newline (depth + 1) ++
      write (depth + 1) j (writeElements (depth + 1) js (newline depth ++ ']' :: rest))
  | object [], rest => '\x7b' :: '\x7d' :: rest
  | object ((key, j) :: ms), rest =>
    '\x7b' :: newline (depth + 1) ++ writeKey key ++
      write (depth + 1) j (writeMembers (depth + 1) ms (newline depth ++ '\x7d' :: rest))

/-- The elements of an array after its first, with `rest` after them. -/
def writeElements (depth : Nat) : (elements : List Json) → (rest : List Char) → List Char
  | [], rest => rest
  | j :: js, rest => ',' :: newline depth ++ write depth j (writeElements depth js rest)

/-- The members of an object after its first, with `rest` after them. -/
def writeMembers (depth : Nat) : (members : List (String × Json)) → (rest : List Char) → List Char
  | [], rest => rest
  | (key, j) :: ms, rest =>
    ',' :: newline depth ++ writeKey key ++ write depth j (writeMembers depth ms rest)

end

/-- A value as a text of its own. -/
def pretty (j : Json) : String := String.ofList (write 0 j [])

end MarkupTree.Json
