/-!
# What the system says

## Main definitions

* `Cause` : why an operation on files fails.
* `Cause.message` : the system's words for it.
-/

namespace MarkupTree

/-- Why an operation on files fails. -/
inductive Cause
  | notFound
  | notDirectory
  | isDirectory
  | alreadyExists
  | nameTooLong
  /-- Only a file can be copied. -/
  | notFile
  /-- The contents of a file are not a text. -/
  | notText
  /-- A path holds the character that ends paths. -/
  | endInsidePath
  | other (message : String)
deriving DecidableEq

/-- The system's words for a cause. -/
def Cause.message : Cause → String
  | notFound => "No such file or directory (os error 2)"
  | notDirectory => "Not a directory (os error 20)"
  | isDirectory => "Is a directory (os error 21)"
  | alreadyExists => "File exists (os error 17)"
  | nameTooLong => "File name too long (os error 36)"
  | notFile => "the source path is neither a regular file nor a symlink to a regular file"
  | notText => "stream did not contain valid UTF-8"
  | endInsidePath => "file name contained an unexpected NUL byte"
  | other message => message

end MarkupTree
