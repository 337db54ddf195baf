import MarkupTree.Tree.Node

/-!
# Outlines

An outline shows a tree with one line for each node, indented by its depth. Texts, markup and the
payloads of foreign nodes are escaped, so that each node keeps to its line.

## Main definitions

* `Outline.escape` : a text without characters that would disturb a line.
* `Outline.line` : the line of one node, without its indent.
* `Node.outline` : the lines of a tree.
* `Outline.format` : the name of the format.
-/

namespace MarkupTree

namespace Outline

/-- The name of the format, for the headers of files that hold outlines. -/
def format : String := "ir-tree-v1"

/-- A number in hexadecimal with two digits or more, in capital letters. -/
def hexPair (n : Nat) : List Char :=
  let digits := (Nat.toDigits 16 n).map Char.toUpper
  List.replicate (2 - digits.length) '0' ++ digits

/-- One character as an outline shows it: the quote, the backslash and the controls of ASCII are
written as escapes. -/
def escapeChar (c : Char) : List Char :=
  if c = '\\' then ['\\', '\\']
  else if c = '"' then ['\\', '"']
  else if c = '\n' then ['\\', 'n']
  else if c = '\r' then ['\\', 'r']
  else if c = '\t' then ['\\', 't']
  else if c < ' ' then '\\' :: 'u' :: '\x7b' :: hexPair c.toNat ++ ['\x7d']
  else [c]

/-- A text as an outline shows it. -/
def escape (s : String) : String := String.ofList (s.toList.flatMap escapeChar)

/-- A text as an outline shows it, between quotes. -/
def quoted (s : String) : String := "\"" ++ escape s ++ "\""

/-- The line of one node, without its indent. -/
def line : Node → String
  | .document _ => "#document"
  | .method name _ => "#method " ++ name
  | .markup pieces => "#markup " ++ quoted (String.join pieces)
  | .element name _ => "<" ++ name ++ ">"
  | .attr name _ => "@" ++ name
  | .text text => quoted text
  | .foreign label payload _ =>
    if payload.isEmpty then "\x7b" ++ label ++ "\x7d"
    else "\x7b" ++ label ++ " " ++ escape payload ++ "\x7d"

/-- The space before the line of a node at a given depth. -/
def indent (depth : Nat) : String := String.ofList (List.replicate (2 * depth) ' ')

mutual

/-- The lines of a tree whose root is at a given depth. -/
def linesAt (depth : Nat) : Node → List String
  | n@(.document children) => (indent depth ++ line n) :: linesOfAll (depth + 1) children
  | n@(.method _ children) => (indent depth ++ line n) :: linesOfAll (depth + 1) children
  | n@(.element _ children) => (indent depth ++ line n) :: linesOfAll (depth + 1) children
  | n@(.attr _ parts) => (indent depth ++ line n) :: linesOfAll (depth + 1) parts
  | n@(.foreign _ _ children) => (indent depth ++ line n) :: linesOfAll (depth + 1) children
  | n@(.markup _) => [indent depth ++ line n]
  | n@(.text _) => [indent depth ++ line n]

/-- The lines of trees whose roots are at a given depth. -/
def linesOfAll (depth : Nat) : List Node → List String
  | [] => []
  | n :: ns => linesAt depth n ++ linesOfAll depth ns

end

end Outline

/-- The lines of a tree. -/
def Node.outline (tree : Node) : List String := Outline.linesAt 0 tree

/-- The outline of a tree as one text. -/
def Node.outlineText (tree : Node) : String := "\n".intercalate tree.outline

end MarkupTree
