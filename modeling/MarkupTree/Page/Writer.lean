import MarkupTree.Files.Path
import MarkupTree.Files.Store
import MarkupTree.Page.Render
import MarkupTree.Text.Lines
import MarkupTree.Text.White

/-!
# Writing a page

A page is written in four steps: its template is read and rendered, the directory of the page is
created, the resources are copied into a directory beside the page, and last the page itself is
written. The first failure ends this; what was done before is not undone.

## Main definitions

* `Page.copyResources` : copies resources beside a page.
* `Page.writePage` : all steps.
* `Page.readList` : a file that lists paths.
-/

namespace MarkupTree.Page

variable {m : Type → Type} [Monad m] [Store m]

/-- Does something with files; where that fails, `wrap` says what could not be done. -/
def attempt {α : Type} (wrap : Cause → Failure) (action : m (Except Cause α)) :
    ExceptT Failure m α :=
  ExceptT.mk ((Except.mapError wrap ·) <$> action)

/-- Tells something. -/
def tell (severity : Severity) (message : String) : ExceptT Failure m Unit :=
  ExceptT.lift (Store.tell ⟨severity, topic, message⟩)

/-- Copies one resource into a directory, and gives the path of the copy. -/
def copyResource (directory resource : String) : ExceptT Failure m String := do
  let name ← ExceptT.mk (pure (fileName resource))
  let target := Path.join directory name
  attempt (.copyResource resource target) (Store.copy resource target)
  tell .debug ("copied " ++ resource ++ " -> " ++ target)
  return target

/-- Copies resources beside a page that is written to the directory `outDirectory`, and gives the
paths of the copies. Without resources nothing is done. -/
def copyResources (resources : List String) (outDirectory : String) :
    ExceptT Failure m (List String) :=
  if resources.isEmpty then pure []
  else do
    let directory := Path.join outDirectory contentDirectory
    attempt (.write directory) (Store.makeDirectories directory)
    resources.mapM (copyResource directory)

/-- The directory of a page. -/
def pageDirectory (output : String) : String :=
  match Path.parent? output with
  | some parent => if parent.isEmpty then "." else parent
  | none => "."

/-- What was done for a page. -/
structure Summary where
  output : String
  bootTagFound : Bool
  /-- The paths of the copied resources, in their order. -/
  copied : List String

/-- Writes the page of the template at `template` to `output`. -/
def writePage (template : String) (config : Config) (output : String) :
    ExceptT Failure m Summary := do
  let text ← attempt (.read template) (readText template)
  let page ← ExceptT.mk (pure (render text config))
  page.journal.forM fun entry => ExceptT.lift (Store.tell entry)
  let directory := pageDirectory output
  attempt (.write directory) (Store.makeDirectories directory)
  let copied ← copyResources config.resources directory
  attempt (.write output) (Store.write output page.html.toUTF8)
  tell .info ("wrote " ++ output ++ " (" ++ toString copied.length ++ " resource(s))")
  return ⟨output, page.bootTagFound, copied⟩

/-- The paths that a text lists: one on a line, without white space around it. Blank lines list
nothing. -/
def parseList (text : String) : List String :=
  ((Text.lines text).map White.trimmed).filter fun line => !line.isEmpty

/-- The paths that a file lists. -/
def readList (path : String) : ExceptT Failure m (List String) := do
  return parseList (← attempt (.read path) (readText path))

end MarkupTree.Page
