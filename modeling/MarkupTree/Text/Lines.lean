/-!
# Lines of a text

Lines end at a line feed; a carriage return right before it belongs to the line's end too. Text
after the last line feed is a line of its own, unless it is empty.

## Main definitions

* `Text.lines` : the lines of a string, without their ends.
-/

namespace MarkupTree.Text

/-- A line that a line feed ended, without the carriage return before it. -/
def dropReturn (line : List Char) : List Char :=
  if line.getLast? = some '\r' then line.dropLast else line

/-- The lines of a text whose first characters, `line`, are already read, newest first. -/
def linesFrom (line : List Char) : List Char → List (List Char)
  | [] => if line.isEmpty then [] else [line.reverse]
  | c :: cs =>
    if c = '\n' then dropReturn line.reverse :: linesFrom [] cs else linesFrom (c :: line) cs

/-- The lines of a string, without their ends. -/
def lines (s : String) : List String := (linesFrom [] s.toList).map String.ofList

end MarkupTree.Text
