import MarkupTree.Files.Cause

/-!
# Failures of page writing

## Main definitions

* `Page.Failure` : why a page cannot be written.
* `Page.Failure.label`, `Page.Failure.message`, `Page.Failure.chain` : a failure in words.
-/

namespace MarkupTree.Page

/-- Why a page cannot be written. -/
inductive Failure
  | read (path : String) (cause : Cause)
  | write (path : String) (cause : Cause)
  | copyResource (source target : String) (cause : Cause)
  | noFileName (path : String)
deriving DecidableEq

namespace Failure

/-- A short fixed name for the kind of a failure. -/
def label : Failure → String
  | read .. => "read"
  | write .. => "write"
  | copyResource .. => "copy_resource"
  | noFileName _ => "no_file_name"

/-- What could not be done. -/
def message : Failure → String
  | read path _ => "failed to read " ++ path
  | write path _ => "failed to write " ++ path
  | copyResource source target _ => "failed to copy resource " ++ source ++ " to " ++ target
  | noFileName path => "path " ++ path ++ " has no file name"

/-- What the system said, if it was the system that refused. -/
def cause? : Failure → Option Cause
  | read _ cause => some cause
  | write _ cause => some cause
  | copyResource _ _ cause => some cause
  | noFileName _ => none

/-- What could not be done, and what the system said. -/
def chain (failure : Failure) : List String :=
  failure.message :: (failure.cause?.map Cause.message).toList

end Failure

end MarkupTree.Page
