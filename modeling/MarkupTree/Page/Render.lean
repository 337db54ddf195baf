import MarkupTree.Journal
import MarkupTree.Page.BootTag
import MarkupTree.Page.Resource

/-!
# Rendering a page

The page is the template with the loader's tag in place of the boot tag, followed by the tags of
the resources. The rest of the template is copied unchanged, and all of it if it has no boot tag.

## Main definitions

* `Page.Config` : what a page is written for.
* `Page.loaderTags` : what takes the place of the boot tag.
* `Page.render` : the page of a template.
-/

namespace MarkupTree.Page

/-- What a page is written for. -/
structure Config where
  /-- The main assembly, of which only the name counts. -/
  mainAssembly : String
  entryPoint : Option String := none
  /-- The referenced assemblies, of which only the file names count. -/
  references : List String := []
  /-- Files that are copied next to the page. -/
  resources : List String := []
  linkerEnabled : Bool := false

/-- The part of the library that tells of pages. -/
def topic : String := "shell"

/-- Where the loader is. -/
def loaderUrl : String := "_framework/blazor.js"

/-- An attribute as it is written in a tag. -/
def writeAttribute (a : Attribute) : String :=
  " " ++ a.name ++ match a.value with
    | some value => "=" ++ quotedValue value
    | none => ""

/-- The attributes of the loader's tag: its own, then those of the boot tag apart from any type. -/
def loaderAttributes (config : Config) (main : String) (references : List String)
    (carried : List Attribute) : List Attribute :=
  [⟨"src", some loaderUrl⟩, ⟨"main", some (Path.stem main ++ ".dll")⟩] ++
    (config.entryPoint.map fun entry => ⟨"entrypoint", some entry⟩).toList ++
    [⟨"references", some (",".intercalate references)⟩] ++
    (if config.linkerEnabled then [⟨"linker-enabled", some "true"⟩] else []) ++
    carried.filter fun a => a.name ≠ "type"

/-- The loader's tag. -/
def loaderTag (attributes : List Attribute) : String :=
  "<script" ++ String.join (attributes.map writeAttribute) ++ "></script>"

/-- What takes the place of a boot tag with attributes `carried`: the loader's tag and, each on a
line of its own, the tags of the resources. -/
def loaderTags (config : Config) (carried : List Attribute) : Except Failure String := do
  let main ← fileName config.mainAssembly
  let references ← config.references.mapM fileName
  let tags ← config.resources.mapM resourceTag
  return loaderTag (loaderAttributes config main references carried) ++
    String.join ((tags.filterMap id).map ("\n" ++ ·))

/-- A page, and whether its template had a boot tag. -/
structure Rendered where
  html : String
  bootTagFound : Bool

/-- The page of a template. -/
def render (template : String) (config : Config) : Except Failure Rendered :=
  match findBootTag (lex template.toList) with
  | none => .ok ⟨template, false⟩
  | some tag => do
    let tags ← loaderTags config tag.attributes
    return ⟨String.ofList (sourceOf tag.before) ++ tags ++ String.ofList (sourceOf tag.after), true⟩

/-- What the journal says of a page without the loader. -/
def noBootTag : Entry :=
  ⟨.warning, topic, "no <script type=\"" ++ bootType ++ "\"> tag found; template copied unchanged"⟩

/-- What the journal says of a rendered page. -/
def Rendered.journal (page : Rendered) : List Entry := if page.bootTagFound then [] else [noBootTag]

end MarkupTree.Page
