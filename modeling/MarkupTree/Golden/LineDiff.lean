/-!
# Differences between lists of lines

Two lists of lines are compared up to the first line in which they differ. It is shown with up to
two lines before it and after it. A line that one list does not have is shown as missing.

## Main definitions

* `LineDiff.firstMismatch?` : the number of the first line that differs, from zero.
* `LineDiff.report` : the comparison as a text.
-/

namespace MarkupTree.LineDiff

/-- What is shown for a line that a list does not have. -/
def missing : String := "<missing>"

/-- A line of a list, by its number from zero. -/
def lineAt (lines : List String) (i : Nat) : String := lines[i]?.getD missing

/-- The number of lines of the longer list. -/
def longer (expected actual : List String) : Nat := max expected.length actual.length

/-- The number, from zero, of the first line that is shown differently. -/
def firstMismatch? (expected actual : List String) : Option Nat :=
  (List.range (longer expected actual)).find? fun i => lineAt expected i ≠ lineAt actual i

/-- A number in at least four places. -/
def numberField (n : Nat) : String :=
  String.ofList (List.replicate (4 - (toString n).length) ' ') ++ toString n

/-- A line of both lists. The line that differs is marked. -/
def showLine (expected actual : List String) (mismatch i : Nat) : String :=
  let start := (if i = mismatch then "> " else "  ") ++ numberField (i + 1)
  start ++ "  expected: " ++ lineAt expected i ++ "\n" ++
    start ++ "    actual: " ++ lineAt actual i ++ "\n"

/-- The lines around the first that differs. -/
def showMismatch (expected actual : List String) (mismatch : Nat) : String :=
  let start := mismatch - 2
  let stop := min (mismatch + 3) (longer expected actual)
  "first mismatch at line " ++ toString (mismatch + 1) ++ " (showing " ++ toString (start + 1) ++
    "..=" ++ toString stop ++ "):\n" ++
    String.join ((List.range' start (stop - start)).map (showLine expected actual mismatch))

/-- The comparison of two lists of lines as a text. -/
def report (expected actual : List String) : String :=
  ((firstMismatch? expected actual).elim "" (showMismatch expected actual)) ++
    "expected " ++ toString expected.length ++ " lines, actual " ++ toString actual.length ++
    " lines\n"

end MarkupTree.LineDiff
