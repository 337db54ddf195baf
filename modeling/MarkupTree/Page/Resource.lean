import MarkupTree.Files.Path
import MarkupTree.Markup.Reference
import MarkupTree.Page.Failure
import MarkupTree.Text.Ascii

/-!
# Resources of a page

A resource is a file that is copied next to a page. Stylesheets and scripts, known by the
extension of their file name, also get a tag on the page.

## Main definitions

* `Page.ResourceKind`, `Page.resourceKind` : the kinds of resource, and which a path is of.
* `Page.contentUrl` : where a page finds a resource.
* `Page.resourceTag` : the tag of a resource, if it gets one.
-/

namespace MarkupTree.Page

/-- The directory beside a page into which its resources are copied. -/
def contentDirectory : String := "_content"

/-- The kinds of resource. Those of no other kind are copied, but get no tag. -/
inductive ResourceKind
  | stylesheet
  | script
  | other
deriving DecidableEq

/-- What a kind of resource is called. -/
def ResourceKind.label : ResourceKind → String
  | stylesheet => "stylesheet"
  | script => "script"
  | other => "other"

/-- The kind of a resource, by its extension in any letter case. -/
def resourceKind (path : String) : ResourceKind :=
  match Path.extension? path with
  | none => .other
  | some extension =>
    if Ascii.equalFold extension "css" then .stylesheet
    else if Ascii.equalFold extension "js" then .script
    else .other

/-- The file name of a path that needs one. -/
def fileName (path : String) : Except Failure String :=
  match Path.fileName? path with
  | some name => .ok name
  | none => .error (.noFileName path)

/-- Where a page finds a resource. -/
def contentUrl (name : String) : String := contentDirectory ++ "/" ++ name

/-- A value between double quotes. -/
def quotedValue (value : String) : String := "\"" ++ Reference.escapeQuoted value ++ "\""

/-- The tag of a resource with a given URL. -/
def tagOfKind (url : String) : ResourceKind → Option String
  | .stylesheet => some ("<link rel=\"stylesheet\" href=" ++ quotedValue url ++ " />")
  | .script => some ("<script src=" ++ quotedValue url ++ " defer></script>")
  | .other => none

/-- The tag of a resource, if it gets one. -/
def resourceTag (path : String) : Except Failure (Option String) := do
  return tagOfKind (contentUrl (← fileName path)) (resourceKind path)

end MarkupTree.Page
