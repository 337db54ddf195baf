import MarkupTree.Text.Ascii
import MarkupTree.Text.Lines
import MarkupTree.Text.Quoted
import MarkupTree.Text.Split
import MarkupTree.Text.White

/-!
# Expected-output files

An expected-output file holds the lines of an outline under headers of the form `# key: value`.
One header names the format of the file. Blank lines mean nothing, nor does white space at the end
of a line. Keys are in small letters, whatever they are written in, and none is given twice.

## Main definitions

* `ExpectedFile` : headers and lines.
* `ExpectedFile.Problem` : what can be wrong with a file.
* `ExpectedFile.parse` : the headers and lines of a text.
-/

namespace MarkupTree

/-- The headers and the lines of an expected-output file, both in their order. -/
structure ExpectedFile where
  headers : List (String × String) := []
  lines : List String := []
deriving DecidableEq

namespace ExpectedFile

/-- The header with a given key. -/
def header? (file : ExpectedFile) (key : String) : Option String := file.headers.lookup key

/-- What can be wrong with an expected-output file. -/
inductive Problem
  | invalidHeader (line : String)
  | duplicateHeader (key : String)
  | missingFormat
  | unsupportedFormat
deriving DecidableEq

/-- A problem with the file at `path`, as a message. -/
def Problem.message (path : String) : Problem → String
  | invalidHeader line => "invalid header in " ++ Text.quoted path ++ ": '" ++ line ++ "'"
  | duplicateHeader key => "duplicate header '" ++ key ++ "' in " ++ Text.quoted path
  | missingFormat => "missing format header in " ++ Text.quoted path
  | unsupportedFormat => "unsupported format in " ++ Text.quoted path

/-- The key and the value of a header line after its mark. -/
def parseHeader? (s : List Char) : Option (String × String) :=
  (Text.splitFirst? ':' s).map fun parts =>
    (String.ofList (Ascii.lower (White.trim parts.1)), String.ofList (White.trim parts.2))

/-- Takes one line, without white space at its end. -/
def addLine (file : ExpectedFile) (line : String) : Except Problem ExpectedFile :=
  match line.toList with
  | [] => .ok file
  | '#' :: ' ' :: s =>
    match parseHeader? s with
    | none => .error (.invalidHeader line)
    | some (key, value) =>
      if (file.header? key).isSome then .error (.duplicateHeader key)
      else .ok { file with headers := file.headers ++ [(key, value)] }
  | _ => .ok { file with lines := file.lines ++ [line] }

/-- The headers and lines of a text whose format has to be `format`. -/
def parse (text format : String) : Except Problem ExpectedFile := do
  let file ← ((Text.lines text).map White.trimmedEnd).foldlM addLine {}
  match file.header? "format" with
  | none => .error .missingFormat
  | some found => if found = format then .ok file else .error .unsupportedFormat

end ExpectedFile

end MarkupTree
