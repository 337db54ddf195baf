import MarkupTree.Page.Render
import MarkupTree.Proofs.Lexing.Pieces
import MarkupTree.Proofs.Page.BootElement

/-!
# The tags of the loader

What takes the place of a boot tag is read back as it is meant: the loader's tag with each of its
attributes, and for each stylesheet and script among the resources a line feed and a tag of its own
(`Page.isReadAs_loaderText`). Whatever a file name, an entry point or an attribute of the boot tag
holds, its value stays inside its quotes, so no setting can add a tag or an attribute. The only
settings that are refused are paths without a file name, and the first of them is named
(`Page.loaderTags_eq`).

## Main definitions

* `Page.Config.paths` : the paths that a page needs the names of.
* `Page.loaderTokens` : the tokens that take the place of a boot tag.

## Main results

* `Page.loaderTags_eq` : when there are loader tags, and what they are.
* `Page.isReadAs_loaderText` : the tokens of the loader tags, whatever follows them.
* `Page.tokens_loader` : the tokens of what takes the place of a boot tag.
-/

namespace MarkupTree.Page

/-! ### Paths without a file name -/

/-- The paths that a page needs the names of. -/
def Config.paths (config : Config) : List String :=
  config.mainAssembly :: (config.references ++ config.resources)

/-- Whether a path has no file name. -/
def isUnnamed (path : String) : Bool := (Path.fileName? path).isNone

/-- The file names of paths. -/
def fileNames (paths : List String) : List String := paths.filterMap Path.fileName?

/-- What is done with the file name of each path is done with all, if all have one. -/
theorem mapM_of_fileName? {α : Type} {f : String → Except Failure α} {g : String → String → α}
    (hf : ∀ path, f path = match Path.fileName? path with
      | some name => .ok (g path name)
      | none => .error (.noFileName path)) (paths : List String) :
    paths.mapM f = match paths.find? isUnnamed with
      | some path => .error (.noFileName path)
      | none => .ok (paths.filterMap fun path => (Path.fileName? path).map (g path)) := by
  induction paths with
  | nil => rfl
  | cons path paths ih =>
    rw [List.mapM_cons, hf, ih, List.find?_cons, List.filterMap_cons, isUnnamed]
    cases Path.fileName? path with
    | none => rfl
    | some name => cases paths.find? isUnnamed <;> rfl

theorem mapM_fileName (paths : List String) :
    paths.mapM fileName = match paths.find? isUnnamed with
      | some path => .error (.noFileName path)
      | none => .ok (fileNames paths) := by
  have named (path : String) : fileName path = match Path.fileName? path with
      | some name => .ok name
      | none => .error (.noFileName path) := rfl
  rw [mapM_of_fileName? (g := fun _ name => name) named]
  simp only [fileNames, Option.map_id']

theorem mapM_resourceTag (paths : List String) :
    paths.mapM resourceTag = match paths.find? isUnnamed with
      | some path => .error (.noFileName path)
      | none => .ok (paths.filterMap fun path =>
          (Path.fileName? path).map fun name =>
            tagOfKind (contentUrl name) (resourceKind path)) := by
  refine mapM_of_fileName? (fun path => ?_) paths
  rw [resourceTag, fileName]
  cases Path.fileName? path <;> rfl

/-! ### The text of the tags -/

/-- The tag of a resource on a line of its own, if it gets one. -/
def resourceText (path : String) : String :=
  match (Path.fileName? path).bind fun name => tagOfKind (contentUrl name) (resourceKind path) with
  | some tag => "\n" ++ tag
  | none => ""

/-- What takes the place of a boot tag with attributes `carried`, if the main assembly has the
file name `main`. -/
def loaderText (config : Config) (main : String) (carried : List Attribute) : String :=
  loaderTag (loaderAttributes config main (fileNames config.references) carried) ++
    String.join (config.resources.map resourceText)

theorem join_resourceText (paths : List String) :
    String.join (((paths.filterMap fun path => (Path.fileName? path).map fun name =>
      tagOfKind (contentUrl name) (resourceKind path)).filterMap id).map ("\n" ++ ·)) =
      String.join (paths.map resourceText) := by
  induction paths with
  | nil => rfl
  | cons path paths ih =>
    rw [List.map_cons, String.join_cons, ← ih, List.filterMap_cons, resourceText]
    cases Path.fileName? path with
    | none => rw [Option.bind_none, String.empty_append]; rfl
    | some name =>
      simp only [Option.map_some, Option.bind_some, List.filterMap_cons, id]
      cases tagOfKind (contentUrl name) (resourceKind path) with
      | none => rw [String.empty_append]
      | some tag => rw [List.map_cons, String.join_cons]

/-- There are loader tags if all paths have a file name. Otherwise the first path without one is
named. -/
theorem loaderTags_eq (config : Config) (carried : List Attribute) :
    loaderTags config carried = match config.paths.find? isUnnamed with
      | some path => .error (.noFileName path)
      | none => .ok (loaderText config ((Path.fileName? config.mainAssembly).getD "") carried) := by
  rw [loaderTags, mapM_fileName, mapM_resourceTag, fileName, Config.paths, List.find?_cons,
    List.find?_append, isUnnamed]
  cases Path.fileName? config.mainAssembly with
  | none => rfl
  | some main =>
    cases config.references.find? isUnnamed with
    | some path => rfl
    | none =>
      cases config.resources.find? isUnnamed with
      | some path => rfl
      | none =>
        refine congrArg Except.ok ?_
        rw [loaderText, ← join_resourceText]
        rfl

/-- Loader tags are refused exactly for a path without a file name. -/
theorem exists_loaderTags_error_iff {config : Config} {carried : List Attribute} :
    (∃ path, loaderTags config carried = .error (.noFileName path)) ↔
      ∃ path ∈ config.paths, Path.fileName? path = none := by
  rw [loaderTags_eq]
  cases hfind : config.paths.find? isUnnamed with
  | none =>
    refine ⟨nofun, ?_⟩
    rintro ⟨path, hpath, hnone⟩
    have named := List.find?_eq_none.1 hfind path hpath
    rw [isUnnamed, hnone] at named
    exact absurd rfl named
  | some path =>
    have unnamed := List.find?_some hfind
    rw [isUnnamed, Option.isNone_iff_eq_none] at unnamed
    exact ⟨fun _ => ⟨path, List.mem_of_find?_eq_some hfind, unnamed⟩, fun _ => ⟨path, rfl⟩⟩

/-! ### Tags, read -/

theorem toList_writeAttribute (a : Attribute) : (writeAttribute a).toList = a.print := by
  obtain ⟨name, value?⟩ := a
  cases value? with
  | none => simp [writeAttribute, Attribute.print]
  | some value => simp [writeAttribute, Attribute.print, spellAttribute, quotedValue]

theorem flatMap_writeAttribute (attributes : List Attribute) :
    (attributes.map writeAttribute).flatMap String.toList = attributes.flatMap Attribute.print := by
  rw [List.flatMap_map]
  exact List.flatMap_congr fun a _ => toList_writeAttribute a

/-- The tag of a script without content. -/
theorem isReadAs_loaderTag {attributes : List Attribute}
    (h : ∀ a ∈ attributes, isAttributeName a.name) :
    IsReadAs (loaderTag attributes).toList
      [.startTag "script" attributes .plain, .endTag "script"] := by
  have written : (loaderTag attributes).toList = '<' :: ("script".toList ++
      (attributes.flatMap Attribute.print ++ '>' :: spellEndTag "script")) := by
    simp [loaderTag, flatMap_writeAttribute, spellEndTag]
  have filled : ¬isVoid "script" := by decide
  rw [written]
  exact isReadAs_emptyElement rfl rfl filled h

/-- A script's tag is written as that of the loader is. -/
theorem tagOfKind_script (url : String) :
    tagOfKind url .script = some (loaderTag [⟨"src", some url⟩, ⟨"defer", none⟩]) := by
  refine congrArg some (String.toList_inj.1 ?_)
  simp [loaderTag, toList_writeAttribute, Attribute.print, spellAttribute, quotedValue]

/-- The tag of a stylesheet. -/
theorem isReadAs_linkTag (url : String) :
    IsReadAs ("<link rel=\"stylesheet\" href=" ++ quotedValue url ++ " />").toList
      [.startTag "link" [⟨"rel", some "stylesheet"⟩, ⟨"href", some url⟩] .selfClosing] := by
  have named : ∀ a ∈ [(⟨"rel", some "stylesheet"⟩ : Attribute), ⟨"href", some url⟩],
      isAttributeName a.name := by
    simp only [List.forall_mem_cons]
    exact ⟨rfl, rfl, nofun⟩
  have plain : (Reference.escapeQuoted "stylesheet").toList = "stylesheet".toList := by decide
  have written : ("<link rel=\"stylesheet\" href=" ++ quotedValue url ++ " />").toList =
      '<' :: ("link".toList ++
        ([(⟨"rel", some "stylesheet"⟩ : Attribute), ⟨"href", some url⟩].flatMap Attribute.print ++
          [' ', '/', '>'])) := by
    simp [quotedValue, Attribute.print, spellAttribute, plain]
  rw [written]
  exact isReadAs_selfClosing rfl named

/-- A tag on a line of its own. -/
theorem isReadAs_ownLine {name tag : String} {attributes : List Attribute} {ending : TagEnd}
    {ts : List Token} (h : IsReadAs tag.toList (.startTag name attributes ending :: ts)) :
    IsReadAs ("\n" ++ tag).toList (.text "\n" :: .startTag name attributes ending :: ts) := by
  have written : "\n".toList = escapeText "\n" := by decide
  have some : "\n" ≠ "" := by decide
  rw [String.toList_append, written]
  exact h.afterText some

/-! ### All tags, read -/

/-- The tokens of a resource: a line feed and a tag, if its extension is that of a stylesheet or of
a script, in any letter case. -/
def resourceTokens (path : String) : List Token :=
  match Path.fileName? path with
  | some name =>
    if (Path.extension? path).map Ascii.lowercase = some "css" then
      [.text "\n", .startTag "link"
        [⟨"rel", some "stylesheet"⟩, ⟨"href", some ("_content/" ++ name)⟩] .selfClosing]
    else if (Path.extension? path).map Ascii.lowercase = some "js" then
      [.text "\n", .startTag "script"
        [⟨"src", some ("_content/" ++ name)⟩, ⟨"defer", none⟩] .plain, .endTag "script"]
    else []
  | none => []

/-- The tokens that take the place of a boot tag with attributes `carried`, if the file name of the
main assembly is `stem` without its extension. -/
def loaderTokens (config : Config) (stem : String) (carried : List Attribute) : List Token :=
  .startTag "script"
      (⟨"src", some "_framework/blazor.js"⟩ :: ⟨"main", some (stem ++ ".dll")⟩ ::
        (config.entryPoint.toList.map (⟨"entrypoint", some ·⟩) ++
          ⟨"references", some (",".intercalate (fileNames config.references))⟩ ::
            ((if config.linkerEnabled then [⟨"linker-enabled", some "true"⟩] else []) ++
              carried.filter fun a => a.name ≠ "type"))) .plain ::
    .endTag "script" :: config.resources.flatMap resourceTokens

theorem equalFold_iff_lowercase {s word : String} (h : Ascii.lower word.toList = word.toList) :
    Ascii.equalFold s word ↔ Ascii.lowercase s = word := by
  rw [Ascii.equalFold_iff, h, ← Ascii.toList_lowercase, String.toList_inj]

theorem resourceKind_eq (path : String) :
    resourceKind path =
      if (Path.extension? path).map Ascii.lowercase = some "css" then .stylesheet
      else if (Path.extension? path).map Ascii.lowercase = some "js" then .script
      else .other := by
  unfold resourceKind
  cases Path.extension? path with
  | none => rfl
  | some extension =>
    simp only [equalFold_iff_lowercase (show Ascii.lower "css".toList = "css".toList from rfl),
      equalFold_iff_lowercase (show Ascii.lower "js".toList = "js".toList from rfl),
      Option.map_some, Option.some_inj]

/-- The tag of a resource on a line of its own. -/
theorem isReadAs_resourceText (path : String) :
    IsReadAs (resourceText path).toList (resourceTokens path) := by
  rw [resourceText, resourceTokens, resourceKind_eq]
  cases Path.fileName? path with
  | none => exact isReadAs_nil
  | some name =>
    rw [Option.bind_some]
    split_ifs
    · exact isReadAs_ownLine (isReadAs_linkTag (contentUrl name))
    · have named : ∀ a ∈ [(⟨"src", some (contentUrl name)⟩ : Attribute), ⟨"defer", none⟩],
          isAttributeName a.name := by
        simp only [List.forall_mem_cons]
        exact ⟨rfl, rfl, nofun⟩
      rw [tagOfKind_script]
      exact isReadAs_ownLine (isReadAs_loaderTag named)
    · exact isReadAs_nil

theorem isReadAs_resourceTexts (paths : List String) :
    IsReadAs (String.join (paths.map resourceText)).toList (paths.flatMap resourceTokens) := by
  induction paths with
  | nil => exact isReadAs_nil
  | cons path paths ih =>
    rw [List.map_cons, String.join_cons, String.toList_append, List.flatMap_cons]
    exact (isReadAs_resourceText path).append ih

theorem isAttributeName_loaderAttributes {config : Config} {main : String}
    {references : List String} {carried : List Attribute}
    (h : ∀ a ∈ carried, isAttributeName a.name) :
    ∀ a ∈ loaderAttributes config main references carried, isAttributeName a.name := by
  have own : ∀ name ∈ ["src", "main", "entrypoint", "references", "linker-enabled"],
      isAttributeName name := by decide
  intro a ha
  simp only [loaderAttributes, List.mem_append, List.mem_cons, Option.mem_toList,
    Option.map_eq_some_iff, List.mem_ite_nil_right, List.mem_filter, List.not_mem_nil, or_false]
    at ha
  rcases ha with ((((rfl | rfl) | ⟨entry, -, rfl⟩) | rfl) | ⟨-, rfl⟩) | ⟨hcarried, -⟩
  · exact own "src" (by simp)
  · exact own "main" (by simp)
  · exact own "entrypoint" (by simp)
  · exact own "references" (by simp)
  · exact own "linker-enabled" (by simp)
  · exact h a hcarried

/-- The loader tags. -/
theorem isReadAs_loaderText (config : Config) (main : String) {carried : List Attribute}
    (h : ∀ a ∈ carried, isAttributeName a.name) :
    IsReadAs (loaderText config main carried).toList
      (loaderTokens config (Path.stem main) carried) := by
  have same : loaderAttributes config main (fileNames config.references) carried =
      ⟨"src", some "_framework/blazor.js"⟩ :: ⟨"main", some (Path.stem main ++ ".dll")⟩ ::
        (config.entryPoint.toList.map (⟨"entrypoint", some ·⟩) ++
          ⟨"references", some (",".intercalate (fileNames config.references))⟩ ::
            ((if config.linkerEnabled then [⟨"linker-enabled", some "true"⟩] else []) ++
              carried.filter fun a => a.name ≠ "type")) := by
    simp [loaderAttributes, loaderUrl, Option.toList_map]
  have tag := isReadAs_loaderTag (@isAttributeName_loaderAttributes config main
    (fileNames config.references) carried h)
  rw [same] at tag
  rw [loaderText, same, String.toList_append]
  exact tag.append (isReadAs_resourceTexts config.resources)

/-! ### In a template -/

variable {template pre boot post : String} {carried : List Attribute}

theorem IsFirstBoot.isAttributeName (h : IsFirstBoot template pre carried boot post) :
    ∀ a ∈ carried, isAttributeName a.name := by
  obtain ⟨hrow, -, -, element⟩ := h
  obtain ⟨ending, source, others, rfl⟩ := element.exists_tag
  have tag : (⟨.startTag "script" carried ending, source⟩ : Lexeme) ∈ lex template.toList := by
    rw [hrow]
    exact List.mem_append_right _ List.mem_cons_self
  exact (hasNames_lex template.toList _ tag).1.2

/-- A page is the template with loader tags in place of the first boot element. -/
theorem render_of_isFirstBoot (h : IsFirstBoot template pre carried boot post) (config : Config) :
    render template config =
      (loaderTags config carried).map fun text => ⟨pre ++ text ++ post, true⟩ := by
  obtain ⟨hrow, hn, hb, he⟩ := h
  rw [render, findBootTag_eq_some_iff.2 ⟨hrow, hn, hb, he⟩]
  rfl

/-- A file name and what stands in it before its last dot, which is all of it without a dot. -/
def IsStem (name stem : String) : Prop :=
  (∃ extension, name = stem ++ "." ++ extension ∧ '.' ∉ extension.toList) ∨
    '.' ∉ name.toList ∧ stem = name

theorem isStem_stem (name : String) : IsStem name (Path.stem name) := by
  rw [Path.stem]
  cases hsplit : Text.splitLast? '.' name.toList with
  | none =>
    have none : Text.splitFirst? '.' name.toList.reverse = none := Option.map_eq_none_iff.1 hsplit
    exact .inr ⟨fun h => Text.splitFirst?_eq_none_iff.1 none (List.mem_reverse.2 h), rfl⟩
  | some parts =>
    obtain ⟨stem, extension⟩ := parts
    obtain ⟨hname, hdot⟩ := Text.splitLast?_eq_some_iff.1 hsplit
    refine .inl ⟨String.ofList extension, String.toList_inj.1 ?_, by rwa [String.toList_ofList]⟩
    simpa using hname

/-- A template with a boot tag is refused only for a path without a file name. Otherwise the tokens
of what takes the place of the boot tag are those of the loader's tag, with the settings and the
attributes of the boot tag for its attributes, and those of the resources. -/
theorem tokens_loader (h : ∃ token ∈ tokens template, IsBootTag token) (config : Config) :
    ∃ pre carried boot post, IsFirstBoot template pre carried boot post ∧
      ((∃ path, render template config = .error (.noFileName path)) ↔
        ∃ path ∈ config.paths, Path.fileName? path = none) ∧
      ((∀ path ∈ config.paths, Path.fileName? path ≠ none) →
        ∃ main stem text, Path.fileName? config.mainAssembly = some main ∧ IsStem main stem ∧
          render template config = .ok ⟨pre ++ text ++ post, true⟩ ∧
          tokens text = loaderTokens config stem carried ++ [.endOfInput]) := by
  obtain ⟨pre, carried, boot, post, first⟩ := exists_isFirstBoot h
  refine ⟨pre, carried, boot, post, first, ?_, fun named => ?_⟩
  · rw [← @exists_loaderTags_error_iff config carried, render_of_isFirstBoot first]
    cases loaderTags config carried with
    | error failure => simp only [Except.map, Except.error.injEq]
    | ok text => exact ⟨nofun, nofun⟩
  · have all : config.paths.find? isUnnamed = none := by
      refine List.find?_eq_none.2 fun path hpath => ?_
      rw [isUnnamed, Option.isNone_iff_eq_none]
      exact named path hpath
    obtain ⟨main, hmain⟩ :=
      Option.ne_none_iff_exists'.1 (named config.mainAssembly List.mem_cons_self)
    refine ⟨main, Path.stem main, loaderText config main carried, hmain, isStem_stem main, ?_, ?_⟩
    · rw [render_of_isFirstBoot first, loaderTags_eq, all, hmain]
      rfl
    · rw [← (isReadAs_loaderText config main first.isAttributeName).tokens, String.ofList_toList]

/-- A page with a script before its boot tag, which has two types and an attribute without a
value. -/
def hostPage : String :=
  "<script>x</script><SCRIPT type=a type=' Blazor-Boot ' id='&quot;>' async>old</script>\n<p>"

/-- Settings with quotes, references and tags in them. -/
def hostConfig : Config where
  mainAssembly := "bin/App.Host.exe"
  entryPoint := some "\"><script src=\"evil"
  references := ["lib/A&amp;.dll", "B\".dll"]
  resources := ["site.css", "notes.txt", "a\"b.JS"]

theorem tokens_loader_hostPage :
    (∃ token ∈ tokens hostPage, IsBootTag token) ∧
      ∃ pre carried boot post stem text, IsFirstBoot hostPage pre carried boot post ∧
        IsStem "App.Host.exe" stem ∧
        render hostPage hostConfig = .ok ⟨pre ++ text ++ post, true⟩ ∧
        tokens text = loaderTokens hostConfig stem carried ++ [.endOfInput] := by
  have some : ∃ token ∈ tokens hostPage, IsBootTag token := by decide +kernel
  have named : ∀ path ∈ hostConfig.paths, Path.fileName? path ≠ none := by decide +kernel
  have whole : Path.fileName? hostConfig.mainAssembly = Option.some "App.Host.exe" := by
    decide +kernel
  obtain ⟨pre, carried, boot, post, first, -, loaded⟩ := tokens_loader some hostConfig
  obtain ⟨main, stem, text, hmain, hstem, hrender, htokens⟩ := loaded named
  obtain rfl : "App.Host.exe" = main := Option.some.inj (whole.symm.trans hmain)
  exact ⟨some, pre, carried, boot, post, stem, text, first, hstem, hrender, htokens⟩

end MarkupTree.Page
