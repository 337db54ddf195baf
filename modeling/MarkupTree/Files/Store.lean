import MarkupTree.Files.Cause
import MarkupTree.Journal

/-!
# Stores of files

Work on files is written once, for any store that can read, write and copy them. A store is the
system's own, or a file tree held in memory.

## Main definitions

* `Store` : what a store can do.
* `readText` : the contents of a file as a text.
-/

namespace MarkupTree

/-- What can be done with files. An operation that fails says why. -/
class Store (m : Type → Type) where
  /-- The contents of a file. -/
  read : (path : String) → m (Except Cause ByteArray)
  /-- Gives a file new contents, or creates it. -/
  write : (path : String) → (contents : ByteArray) → m (Except Cause Unit)
  /-- Creates a directory and those above it, as far as they are missing. -/
  makeDirectories : (path : String) → m (Except Cause Unit)
  /-- Gives the file at `target` the contents of the one at `source`. -/
  copy : (source target : String) → m (Except Cause Unit)
  /-- Adds an entry to the journal. -/
  tell : Entry → m Unit

variable {m : Type → Type} [Monad m] [Store m]

/-- The text that bytes encode. -/
def textOf (bytes : ByteArray) : Except Cause String :=
  match String.fromUTF8? bytes with
  | some text => .ok text
  | none => .error .notText

/-- The contents of a file as a text. -/
def readText (path : String) : m (Except Cause String) := do
  return (← Store.read path).bind textOf

end MarkupTree
