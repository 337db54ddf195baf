/-!
# The journal

Work on trees and pages leaves a journal: one entry for each thing worth telling, with how
important it is and which part of the library tells it.

## Main definitions

* `Severity`, `Entry` : an entry and its importance.
* `Entry.line` : an entry as one line.
-/

namespace MarkupTree

/-- How important an entry is. -/
inductive Severity
  | debug
  | info
  | warning
deriving DecidableEq

/-- What a severity is called in a journal line. -/
def Severity.label : Severity → String
  | debug => "DEBUG"
  | info => "INFO"
  | warning => "WARN"

/-- One thing that happened, and the part of the library that tells it. -/
structure Entry where
  severity : Severity
  topic : String
  message : String
deriving DecidableEq

/-- An entry as one line. -/
def Entry.line (entry : Entry) : String :=
  entry.severity.label ++ " " ++ entry.topic ++ ": " ++ entry.message

end MarkupTree
