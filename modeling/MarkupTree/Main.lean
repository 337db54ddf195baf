import MarkupTree.Cli.Command

/-!
# The program

The system's own files as a store, and the program's entry point.

## Main definitions

* `MarkupTree.causeOf` : what the system says, as a cause.
* `main` : runs the program.
-/

namespace MarkupTree

/-- What the system says, as a cause. -/
def causeOf : IO.Error → Cause
  | .noFileOrDirectory .. => .notFound
  | .alreadyExists .. => .alreadyExists
  | .inappropriateType _ 20 _ => .notDirectory
  | .inappropriateType _ 21 _ => .isDirectory
  | error => .other (toString error)

/-- Does something with the system's files. -/
def onSystem {α : Type} (action : IO α) : IO (Except Cause α) := do
  match ← action.toBaseIO with
  | .ok value => return .ok value
  | .error error => return .error (causeOf error)

/-- Copies a file. The target is emptied before the source is read. -/
def copyFile (source target : String) : IO Unit := do
  let input ← IO.FS.Handle.mk source .read
  let output ← IO.FS.Handle.mk target .write
  output.write (← input.readBinToEnd)

instance : Store IO where
  read path := onSystem (IO.FS.readBinFile path)
  write path contents := onSystem (IO.FS.writeBinFile path contents)
  makeDirectories path := onSystem (IO.FS.createDirAll path)
  copy source target := onSystem (copyFile source target)
  tell _ := pure ()

end MarkupTree

/-- Runs the program. -/
def main (arguments : List String) : IO UInt32 := do
  let result : MarkupTree.Cli.Result ← MarkupTree.Cli.answer arguments
  IO.print result.out
  IO.eprint result.err
  return result.exitCode.toUInt32
