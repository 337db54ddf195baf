import MarkupTree.Files.Path
import MarkupTree.Files.Store

/-!
# File trees

A file tree holds files and directories in memory. A path starts at the root of the tree if it
begins with a slash, and at a fixed directory, the base, if it does not. There are no links in the
tree, and neither permissions nor limits of room: an operation fails only for what is in the tree. A
store with a tree may have other reasons to refuse one.

## Main definitions

* `Place`, `FileTree.Item`, `FileTree` : where things are, what they are, and the tree.
* `FileTree.startingAt` : the tree that has nothing but its base.
* `FileTree.item?`, `FileTree.put` : what is at a place, and the tree with something put there.
* `FileTree.contents` : what is below the base.
* `FileTree.walk` : the place that a path leads to.
* `FileTree.read`, `FileTree.write`, `FileTree.makeDirectories`, `FileTree.copy` : the operations.
* `FileTree.list`, `FileTree.isDirectory` : the names in a directory, and what is one.
* `Sandbox` : a file tree with a journal, as a store.

## Main results

* `FileTree.item?_put` : putting something at a place changes that place alone.
* `FileTree.walkFrom_append` : the pieces of a path are gone along one after another.
* `FileTree.contents_startingAt` : at first nothing is below the base.
-/

namespace MarkupTree

/-- A place in a file tree: the names that lead to it from the root. -/
abbrev Place := List String

/-- What can be at a place. -/
inductive FileTree.Item
  | file (contents : ByteArray)
  | directory

/-- Whether an item is a directory. -/
def FileTree.Item.isDirectory : FileTree.Item → Bool
  | directory => true
  | file _ => false

/-- Files and directories by their places. The root is a directory whether listed or not. -/
structure FileTree where
  items : List (Place × FileTree.Item) := []
  /-- The directory that paths start from unless they begin with a slash. -/
  base : Place := []

namespace FileTree

/-- The tree that has nothing but its base, and the directories above that. -/
def startingAt (base : Place) : FileTree where
  items := (List.range base.length).map fun n => (base.take (n + 1), .directory)
  base

/-- What a list of items has at a place, the first entry deciding. -/
def itemIn? (place : Place) : List (Place × Item) → Option Item
  | [] => none
  | (p, item) :: items => if p = place then some item else itemIn? place items

/-- What is at a place. -/
def item? (tree : FileTree) (place : Place) : Option Item :=
  if place = [] then some .directory else itemIn? place tree.items

/-- Whether there is a directory at a place. -/
def hasDirectory (tree : FileTree) (place : Place) : Bool :=
  (tree.item? place).any Item.isDirectory

/-- The tree with something else, or something new, at a place. -/
def put (place : Place) (item : Item) (tree : FileTree) : FileTree :=
  { tree with items := (place, item) :: tree.items.filter fun entry => entry.1 ≠ place }

/-- What is below the base, each thing with its place there. -/
def contents (tree : FileTree) : List (Place × Item) :=
  (tree.items.filter fun entry =>
    tree.base.length < entry.1.length ∧ entry.1.take tree.base.length = tree.base).map
    fun entry => (entry.1.drop tree.base.length, entry.2)

/-- At first nothing is below the base. -/
theorem contents_startingAt (base : Place) : (startingAt base).contents = [] := by
  simp only [contents, startingAt, List.map_eq_nil_iff, List.filter_eq_nil_iff, List.mem_map]
  rintro _ ⟨n, _, rfl⟩
  simp only [List.length_take, decide_eq_true_eq, not_and]
  omega

theorem itemIn?_filter_ne {place other : Place} (h : other ≠ place) (items : List (Place × Item)) :
    itemIn? other (items.filter fun entry => entry.1 ≠ place) = itemIn? other items := by
  induction items with
  | nil => rfl
  | cons entry items ih =>
    obtain ⟨p, item⟩ := entry
    by_cases hp : p = place
    · subst hp
      simpa [itemIn?, Ne.symm h] using ih
    · simp only [ne_eq, hp, not_false_eq_true, decide_true, List.filter_cons_of_pos, itemIn?]
      split
      · rfl
      · exact ih

/-- Putting something at a place changes that place alone. -/
theorem item?_put {place : Place} (hplace : place ≠ []) (item : Item) (tree : FileTree)
    (other : Place) :
    (tree.put place item).item? other = if other = place then some item else tree.item? other := by
  by_cases h : other = place
  · subst h
    simp [item?, put, itemIn?, hplace]
  · simp only [item?, put, itemIn?, if_neg (Ne.symm h), if_neg h, itemIn?_filter_ne h]

/-! ### Walking -/

/-- The longest name, in bytes. -/
def maxName : Nat := 255

/-- The bytes that a path must stay below. -/
def maxPath : Nat := 4096

/-- Goes on from a place along the pieces of a path. Every place that is gone on from has to be a
directory; the last may be missing. -/
def walkFrom (tree : FileTree) : (place : Place) → (pieces : List String) → Except Cause Place
  | place, [] => .ok place
  | place, piece :: pieces =>
    match tree.item? place with
    | none => .error .notFound
    | some (.file _) => .error .notDirectory
    | some .directory =>
      if Path.isFiller piece then walkFrom tree place pieces
      else if piece = ".." then walkFrom tree place.dropLast pieces
      else if maxName < piece.utf8ByteSize then .error .nameTooLong
      else walkFrom tree (place ++ [piece]) pieces

/-- Pieces are gone along one after another. -/
theorem walkFrom_append (tree : FileTree) (place : Place) (pieces more : List String) :
    walkFrom tree place (pieces ++ more) =
      (walkFrom tree place pieces >>= fun reached => walkFrom tree reached more) := by
  induction pieces generalizing place with
  | nil => rfl
  | cons piece pieces ih =>
    simp only [List.cons_append, walkFrom]
    split
    · rfl
    · rfl
    · split
      · exact ih place
      · split
        · exact ih place.dropLast
        · split
          · rfl
          · exact ih (place ++ [piece])

/-- A path that the system can take at all. -/
def checkPath (path : String) : Except Cause Unit :=
  if path.toList.contains '\x00' then .error .endInsidePath
  else if path.isEmpty then .error .notFound
  else if maxPath ≤ path.utf8ByteSize then .error .nameTooLong
  else .ok ()

/-- Where a path starts. -/
def start (tree : FileTree) (path : String) : Place :=
  if path.startsWith "/" then [] else tree.base

/-- The place that a path leads to. Nothing needs to be there. -/
def walk (tree : FileTree) (path : String) : Except Cause Place := do
  checkPath path
  walkFrom tree (tree.start path) (Path.pieces path)

/-! ### Operations -/

/-- The contents of a file. -/
def read (tree : FileTree) (path : String) : Except Cause ByteArray := do
  match tree.item? (← tree.walk path) with
  | none => .error .notFound
  | some .directory => .error .isDirectory
  | some (.file contents) => .ok contents

/-- The pieces of a path, the last first, without the empty ones at its end. -/
def piecesFromEnd (path : String) : List String :=
  (Path.pieces path).reverse.dropWhile String.isEmpty

/-- The place of a file to be written, in a directory that has to be there. A path that ends in a
slash names no file. -/
def target (tree : FileTree) (path : String) : Except Cause Place := do
  checkPath path
  match piecesFromEnd path with
  | [] => .error .isDirectory
  | last :: above =>
    let directory ← walkFrom tree (tree.start path) (above.reverse ++ ["."])
    if path.endsWith "/" then .error .isDirectory
    else
      let place ← walkFrom tree directory [last]
      if tree.hasDirectory place then .error .isDirectory else .ok place

/-- Gives a file new contents, or creates it. -/
def write (tree : FileTree) (path : String) (contents : ByteArray) : Except Cause FileTree := do
  let place ← tree.target path
  return tree.put place (.file contents)

/-- Creates one directory, given by where its path starts and by the pieces of that, the last
first. -/
def makeDirectory (tree : FileTree) (start : Place) (backwards : List String) :
    Except Cause FileTree := do
  let place ← walkFrom tree start backwards.reverse
  match tree.item? place with
  | some _ => .error .alreadyExists
  | none => return tree.put place .directory

/-- Whether the pieces of a path, the last first, lead to a directory. -/
def leadsToDirectory (tree : FileTree) (start : Place) (backwards : List String) : Bool :=
  match walkFrom tree start backwards.reverse with
  | .ok place => tree.hasDirectory place
  | .error _ => false

/-- Creates a directory after those above it, as far as they are missing. Of the directories made
before a failure none is removed. -/
def makeAll (tree : FileTree) (start : Place) :
    (backwards : List String) → Except Cause Unit × FileTree
  | [] => (.ok (), tree)
  | piece :: above =>
    match tree.makeDirectory start (piece :: above) with
    | .ok made => (.ok (), made)
    | .error .notFound =>
      match makeAll tree start above with
      | (.error cause, made) => (.error cause, made)
      | (.ok (), made) =>
        match made.makeDirectory start (piece :: above) with
        | .ok all => (.ok (), all)
        | .error cause =>
          if made.leadsToDirectory start (piece :: above) then (.ok (), made)
          else (.error cause, made)
    | .error cause =>
      if tree.leadsToDirectory start (piece :: above) then (.ok (), tree) else (.error cause, tree)

/-- The pieces of a path that lead on, the last first. -/
def leading (path : String) : List String :=
  ((Path.pieces path).filter fun piece => !Path.isFiller piece).reverse

/-- Creates a directory and those above it, as far as they are missing. -/
def makeDirectories (tree : FileTree) (path : String) : Except Cause Unit × FileTree :=
  match checkPath path with
  | .error .notFound => (.ok (), tree)
  | .error cause => (.error cause, tree)
  | .ok () => tree.makeAll (tree.start path) (leading path)

/-- Gives the file at `target` the contents of the one at `source`. The target is emptied before
the source is read, so a file that is copied onto itself ends up empty. -/
def copy (tree : FileTree) (source target : String) : Except Cause FileTree := do
  let sourcePlace ← tree.walk source
  match tree.item? sourcePlace with
  | none => .error .notFound
  | some .directory => .error .notFile
  | some (.file _) =>
    let targetPlace ← tree.target target
    let emptied := tree.put targetPlace (.file .empty)
    match emptied.item? sourcePlace with
    | some (.file contents) => return emptied.put targetPlace (.file contents)
    | _ => return emptied

/-- The names of the things in a directory. -/
def list (tree : FileTree) (path : String) : Except Cause (List String) := do
  let place ← tree.walk path
  match tree.item? place with
  | none => .error .notFound
  | some (.file _) => .error .notDirectory
  | some .directory =>
    return tree.items.filterMap fun entry =>
      match entry.1.getLast? with
      | some name => if entry.1.dropLast = place then some name else none
      | none => none

/-- Whether a path leads to a directory. One that the system cannot take leads nowhere. -/
def isDirectory (tree : FileTree) (path : String) : Bool :=
  match tree.walk path with
  | .ok place => tree.hasDirectory place
  | .error _ => false

end FileTree

/-! ### A tree as a store -/

/-- A file tree and a journal, to work on without touching the system's. -/
structure Sandbox where
  tree : FileTree := {}
  /-- Oldest first. -/
  journal : List Entry := []

namespace Sandbox

/-- Takes over the tree that an operation makes, if it makes one. -/
def accept (change : FileTree → Except Cause FileTree) : StateM Sandbox (Except Cause Unit) :=
  fun box =>
    match change box.tree with
    | .ok tree => (.ok (), { box with tree })
    | .error cause => (.error cause, box)

instance : Store (StateM Sandbox) where
  read path box := (box.tree.read path, box)
  write path contents := accept fun tree => tree.write path contents
  makeDirectories path box :=
    let made := box.tree.makeDirectories path
    (made.1, { box with tree := made.2 })
  copy source target := accept fun tree => tree.copy source target
  tell entry box := ((), { box with journal := box.journal ++ [entry] })

end Sandbox

end MarkupTree
