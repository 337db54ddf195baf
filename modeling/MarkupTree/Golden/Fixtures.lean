import MarkupTree.Files.Tree
import MarkupTree.Text.Quoted
import MarkupTree.Text.White

/-!
# Fixture directories

Fixtures are the directories right under a root, in the order of their names. Those whose names
start with a dot are no fixtures. A name with white space at an end is an error.

## Main definitions

* `Fixtures.Problem` : what can be wrong with a root.
* `Fixtures.directories` : the fixtures under a root, with their paths.
-/

namespace MarkupTree.Fixtures

/-- What can be wrong with a fixture root. -/
inductive Problem
  | unreadable (root : String) (cause : Cause)
  | whiteSpace (name : String)
deriving DecidableEq

/-- A problem as a message. -/
def Problem.message : Problem → String
  | unreadable root cause =>
    "failed to read fixture root " ++ Text.quoted root ++ ": " ++ cause.message
  | whiteSpace name => "fixture directory has leading/trailing whitespace: '" ++ name ++ "'"

/-- A directory's name, if it is that of a fixture. -/
def checkName (name : String) : Except Problem (Option String) :=
  if White.trimmed name ≠ name then .error (.whiteSpace name)
  else .ok (if name.startsWith "." then none else some name)

/-- The fixtures under a root, with their paths. A directory whose path is too long to be reached
is passed over. -/
def directories (tree : FileTree) (root : String) : Except Problem (List (String × String)) := do
  let names ← (tree.list root).mapError (.unreadable root)
  let reached := names.filter fun name => tree.isDirectory (Path.join root name)
  let fixtures ← (reached.mergeSort fun a b => a ≤ b).mapM checkName
  return (fixtures.filterMap id).map fun name => (name, Path.join root name)

end MarkupTree.Fixtures
