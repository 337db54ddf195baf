import MarkupTree.Text.Split

/-!
# Paths

A path is a text of names with slashes between them. Repeated slashes, slashes at the end and
names that are a single dot (other than at the very start) add nothing to it.

## Main definitions

* `Path.pieces` : what stands between the slashes.
* `Path.fileName?` : the last name of a path.
* `Path.parent?` : a path without its last name.
* `Path.join` : a name below a path.
* `Path.extension?`, `Path.stem` : what follows the last dot of a file name, and what precedes it.
-/

namespace MarkupTree.Path

/-- What stands between the slashes of a path, nothing included. -/
def pieces (path : String) : List String :=
  (Text.splitAll '/' path.toList).map String.ofList

/-- Whether a piece adds nothing to a path that it is not the start of. -/
def isFiller (piece : String) : Bool := piece.isEmpty || piece == "."

/-- The pieces of a path, the last first, without fillers at its end. -/
def dropFillers : List String → List String
  | [] => []
  | [first] => [first]
  | piece :: next :: more => if isFiller piece then dropFillers (next :: more) else
      piece :: next :: more

/-- The pieces of a path that count, the last first. -/
def backwards (path : String) : List String := dropFillers (pieces path).reverse

/-- The last name of a path. A path that ends in a dot, in two dots or at the root has none. -/
def fileName? (path : String) : Option String :=
  match backwards path with
  | [] => none
  | last :: _ => if isFiller last || last == ".." then none else some last

/-- A path from its pieces, the last first. -/
def ofBackwards (pieces : List String) : String :=
  if pieces = [""] then "/" else "/".intercalate pieces.reverse

/-- A path without its last name: empty for a single name, and nothing for the root. -/
def parent? (path : String) : Option String :=
  match backwards path with
  | [] => none
  | [only] => if only.isEmpty then none else some ""
  | _ :: more => some (ofBackwards (dropFillers more))

/-- A name below a path. -/
def join (path name : String) : String :=
  if path.isEmpty || path.endsWith "/" then path ++ name else path ++ "/" ++ name

/-- What follows the last dot of a path's file name. A dot at the start of a name does not
count. -/
def extension? (path : String) : Option String := do
  let name ← fileName? path
  let (stem, extension) ← Text.splitLast? '.' name.toList
  if stem.isEmpty then none else some (String.ofList extension)

/-- A file name without its last dot and what follows it. -/
def stem (name : String) : String :=
  match Text.splitLast? '.' name.toList with
  | some (stem, _) => String.ofList stem
  | none => name

end MarkupTree.Path
