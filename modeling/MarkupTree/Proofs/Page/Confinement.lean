import MarkupTree.Proofs.Files.Changes
import MarkupTree.Proofs.Page.Interruption

/-!
# What writing a page changes

Writing a page makes directories, and writes files only where resources are copied to and, last of
all, the page itself. So a page that cannot be written is left as it was, and a page that is written
has the copies of all its resources beside it (`Page.confinement`). A page stands above the copies
of its resources, so none of these takes its place. All this holds whatever the store refuses, at
any step and for any reason.

## Main definitions

* `Page.copyPaths` : where resources are copied to.

## Main results

* `Page.writesOnly_copyResources` : copying resources writes only there, done or not.
* `Page.confinement` : what is changed by writing a page, in any store that shows file trees.
* `Page.remains_of_noFileName` : what is left behind when a path has no file name.
-/

namespace MarkupTree.Page

open FileTree (OnlyAddsDirectories WritesOnly)

variable {σ : Type} [Store (StateM σ)] {view : σ → FileTree} {box box' : σ} {failure : Failure}
  {directory outDirectory : String} {resources copied : List String}
  {template output text : String} {config : Config}

/-! ### Copies -/

/-- Where resources beside a page in `outDirectory` are copied to. -/
def copyPaths (resources : List String) (outDirectory : String) : List String :=
  resources.filterMap (copyPath? (Path.join outDirectory contentDirectory))

theorem copyPaths_append (first second : List String) (outDirectory : String) :
    copyPaths (first ++ second) outDirectory =
      copyPaths first outDirectory ++ copyPaths second outDirectory :=
  List.filterMap_append

theorem writesOnly_mapM (shows : Store.Shows view)
    (h : runIn box (resources.mapM (copyResource directory)) = (.ok copied, box')) :
    WritesOnly (resources.filterMap (copyPath? directory)) (view box) (view box') := by
  induction resources generalizing box copied with
  | nil =>
    cases h
    exact .refl [] _
  | cons resource resources ih =>
    rw [List.mapM_cons] at h
    obtain ⟨target, middle, hfirst, h⟩ := runIn_bind_eq_ok.1 h
    obtain ⟨targets, last, hrest, h⟩ := runIn_bind_eq_ok.1 h
    cases h
    obtain ⟨name, hname, rfl, hcopy⟩ := copy_of_copyResource shows hfirst
    have path : copyPath? directory resource = some (Path.join directory name) := by
      rw [copyPath?, hname, Option.map_some]
    rw [List.filterMap_cons_some path]
    have first := (FileTree.writesOnly_copy hcopy).mono
      (List.cons_subset_cons _ (List.nil_subset (resources.filterMap (copyPath? directory))))
    exact first.trans ((ih hrest).mono (List.subset_cons_self _ _))

theorem writesOnly_copyResources (shows : Store.Shows view)
    (h : runIn box (copyResources resources outDirectory) = (.ok copied, box')) :
    WritesOnly (copyPaths resources outDirectory) (view box) (view box') := by
  rw [copyResources] at h
  split_ifs at h
  · cases h
    exact .refl _ (view box)
  · obtain ⟨_, made, hmake, hcopy⟩ := runIn_bind_eq_ok.1 h
    have adds := onlyAddsDirectories_of_makeDirectories shows hmake
    exact (adds.writesOnly _).trans (writesOnly_mapM shows hcopy)

/-- The copies of the first of some resources, after directories were made. -/
theorem writesOnly_of_split (shows : Store.Shows view) {earlier later : List String}
    {resource : String} {made : σ} (split : resources = earlier ++ resource :: later)
    (adds : OnlyAddsDirectories (view box) (view made))
    (hcopied : runIn made (copyResources earlier outDirectory) = (.ok copied, box')) :
    WritesOnly (copyPaths resources outDirectory) (view box) (view box') := by
  rw [split, copyPaths_append]
  exact (adds.writesOnly _).trans
    ((writesOnly_copyResources shows hcopied).mono (List.subset_append_left _ _))

theorem FailsCopying.writesOnly (shows : Store.Shows view)
    (h : FailsCopying view resources outDirectory box failure box') :
    WritesOnly (copyPaths resources outDirectory) (view box) (view box') := by
  cases h with
  | making adds => exact adds.writesOnly _
  | naming split adds hcopied hname => exact writesOnly_of_split shows split adds hcopied
  | copying split adds hcopied same =>
    rw [same]
    exact writesOnly_of_split shows split adds hcopied

/-- A resource that has been copied has a file name. -/
theorem HoldCopies.exists_fileName {before after : FileTree} {resource : String}
    (h : HoldCopies before after directory resources copied) (hmem : resource ∈ resources) :
    ∃ name, Path.fileName? resource = some name := by
  have copy : copyPath? directory resource ∈ copied.map some := h.paths ▸ List.mem_map_of_mem hmem
  obtain ⟨target, -, htarget⟩ := List.mem_map.1 copy
  obtain ⟨name, hname, -⟩ := Option.map_eq_some_iff.1 htarget.symm
  exact ⟨name, hname⟩

/-- A page is none of the copies of its resources, so it stays as it is when they are made. -/
theorem file?_of_writesOnly {before after : FileTree} {place : Place}
    (h : WritesOnly (copyPaths resources (pageDirectory output)) before after)
    (hwalk : after.walk output = .ok place) : after.file? place = before.file? place := by
  cases h.changed place with
  | same same => exact FileTree.file?_congr same
  | made hnone hnew => rw [FileTree.file?_eq_none_of_directory hnew, FileTree.file?, hnone]
  | written hpath hcopy hplace hfile =>
    obtain ⟨resource, -, hresource⟩ := List.mem_filterMap.1 hpath
    obtain ⟨name, hname, rfl⟩ := Option.map_eq_some_iff.1 hresource
    have isFile : after.hasDirectory place = false := by
      rw [FileTree.hasDirectory, hfile]
      rfl
    exact absurd rfl
      (apart_of_walk hwalk isFile (Path.exists_pieces_of_fileName? hname).1 hcopy)

/-! ### Pages -/

theorem FailsWriting.writesOnly (shows : Store.Shows view)
    (h : FailsWriting view template config output box failure box') :
    WritesOnly (copyPaths config.resources (pageDirectory output)) (view box) (view box') := by
  cases h with
  | reading same =>
    rw [same]
    exact .refl _ (view box)
  | rendering hread hrender =>
    rw [(read_of_readText shows hread).2]
    exact .refl _ (view box)
  | making hread hrender adds => exact adds.writesOnly _
  | copying hread hrender adds fails => exact (adds.writesOnly _).trans (fails.writesOnly shows)
  | writing hread hrender adds hcopied same =>
    rw [same]
    exact (adds.writesOnly _).trans (writesOnly_copyResources shows hcopied)

/-- A page is refused only if its template has a boot tag, and then for the first path without a
file name. -/
theorem render_eq_error_iff :
    render text config = .error failure ↔ (∃ token ∈ tokens text, IsBootTag token) ∧
      ∃ path, config.paths.find? isUnnamed = some path ∧ failure = .noFileName path := by
  by_cases boot : ∃ token ∈ tokens text, IsBootTag token
  · obtain ⟨pre, carried, marked, post, first⟩ := exists_isFirstBoot boot
    rw [render_of_isFirstBoot first, loaderTags_eq]
    cases config.paths.find? isUnnamed with
    | none => simp [Except.map]
    | some path => simp [Except.map, boot, eq_comm]
  · have noTag : findBootTag (lex text.toList) = none :=
      findBootTag_eq_none_iff.2 fun l hl htag =>
        boot ⟨l.token, List.mem_map_of_mem hl, htag⟩
    rw [render, noTag]
    simp [boot]

/-- In a store that shows file trees, whatever it refuses, writing a page leaves every file as it is
but for the copies of the resources and, if it succeeds, the page itself. If it fails, then the page
is left as it is too, and all the rest if the template cannot be read. If it succeeds, then the page
holds what is rendered from the template as it was before. -/
theorem confinement (shows : Store.Shows view) {result : Except Failure Summary}
    (h : runIn box (writePage template config output) = (result, box')) :
    (∀ failure, result = .error failure →
      (∀ place, (∀ path ∈ copyPaths config.resources (pageDirectory output),
          (view box').walk path ≠ .ok place) →
        (view box').file? place = (view box).file? place) ∧
      (∀ place, (view box').walk output = .ok place →
        (view box').file? place = (view box).file? place) ∧
      ∀ path cause, failure = .read path cause → path = template ∧ view box' = view box) ∧
    (∀ summary, result = .ok summary → ∃ text page,
      ((view box).read template).bind textOf = .ok text ∧ render text config = .ok page ∧
      (view box').read output = .ok page.html.toUTF8 ∧
      ∀ place, (∀ path ∈ output :: copyPaths config.resources (pageDirectory output),
          (view box').walk path ≠ .ok place) →
        (view box').file? place = (view box).file? place) := by
  constructor
  · rintro failure rfl
    have fails := failsWriting_of_writePage shows h
    have copies := fails.writesOnly shows
    refine ⟨fun place => copies.file?_eq, fun place => file?_of_writesOnly copies, ?_⟩
    rintro path cause rfl
    cases fails with
    | reading same => exact ⟨rfl, same⟩
    | rendering hread hrender =>
      obtain ⟨-, _, -, hfailure⟩ := render_eq_error_iff.1 hrender
      cases hfailure
    | copying hread hrender adds fails => cases fails
  · rintro summary rfl
    obtain ⟨text, page, made, copied, hread, hrender, adds, hcopy, hwrite, -⟩ :=
      steps_of_writePage shows h
    refine ⟨text, page, hread, hrender, ?_, fun place => ?_⟩
    · exact ((holdCopies_copyResources shows hcopy).write hwrite).2
    · have copies := (adds.writesOnly _).trans (writesOnly_copyResources shows hcopy)
      have written := (FileTree.writesOnly_write hwrite).mono (List.cons_subset_cons output
        (List.nil_subset (copyPaths config.resources (pageDirectory output))))
      exact ((copies.mono (List.subset_cons_self _ _)).trans written).file?_eq

/-- A template, a page that was written before, and a stylesheet. -/
def earlierPage : Sandbox where
  tree :=
    { items := [(["page.html"], .file "<p>new</p>".toUTF8), (["x.css"], .file "A".toUTF8),
        (["out"], .directory), (["out", "index.html"], .file "old".toUTF8)] }

/-- Settings with resources. -/
def settingsOf (resources : List String) : Config where
  mainAssembly := "App.dll"
  resources

/-- What a system says when there is no room left. -/
def noRoom : Cause := .other "No space left on device (os error 28)"

/-- The same files on a disk with room. -/
def roomyDisk : Guarded := ⟨earlierPage, []⟩

/-- The same files on a disk that refuses the fifth operation: that is the writing of the page,
after its template was read, two directories were made and a stylesheet was copied. -/
def fullDisk : Guarded := ⟨earlierPage, [none, none, none, none, some noRoom]⟩

/-- The page stays as it was if there is no room for it, though the stylesheet has been copied.
Otherwise it is written, and its template stays as it was. -/
theorem confinement_fullDisk :
    ∃ g summary g', runIn fullDisk (writePage "page.html" (settingsOf ["x.css"]) "out/index.html") =
        (.error (.write "out/index.html" noRoom), g) ∧
      g.tree.file? ["out", "_content", "x.css"] = some "A".toUTF8 ∧
      g.tree.file? ["out", "index.html"] = fullDisk.tree.file? ["out", "index.html"] ∧
      runIn roomyDisk (writePage "page.html" (settingsOf ["x.css"]) "out/index.html") =
        (.ok summary, g') ∧
      g'.tree.file? ["page.html"] = roomyDisk.tree.file? ["page.html"] := by
  obtain ⟨summary, g', hdone⟩ := exists_of_isSome_run (show (runIn roomyDisk
    (writePage "page.html" (settingsOf ["x.css"]) "out/index.html")).1.toOption.isSome
      by decide +kernel)
  rcases hrun : runIn fullDisk (writePage "page.html" (settingsOf ["x.css"]) "out/index.html")
    with ⟨result, g⟩
  have fails : (runIn fullDisk (writePage "page.html" (settingsOf ["x.css"])
      "out/index.html")).1.map (fun _ => ()) = .error (.write "out/index.html" noRoom) := by
    decide +kernel
  have copied : (runIn fullDisk (writePage "page.html" (settingsOf ["x.css"])
      "out/index.html")).2.tree.file? ["out", "_content", "x.css"] = some "A".toUTF8 := by
    decide +kernel
  have stays : (runIn fullDisk (writePage "page.html" (settingsOf ["x.css"])
      "out/index.html")).2.tree.walk "out/index.html" = .ok ["out", "index.html"] := by
    decide +kernel
  have elsewhere : ∀ path ∈
      "out/index.html" :: copyPaths ["x.css"] (pageDirectory "out/index.html"),
      (runIn roomyDisk (writePage "page.html" (settingsOf ["x.css"])
        "out/index.html")).2.tree.walk path ≠ .ok ["page.html"] := by decide +kernel
  rw [hrun] at fails copied stays
  rw [hdone] at elsewhere
  cases result with
  | ok summary => cases fails
  | error failure =>
    obtain rfl := Except.error.inj fails
    obtain ⟨_, _, -, -, -, others⟩ := (confinement Guarded.shows_tree hdone).2 summary rfl
    exact ⟨g, summary, g', rfl, copied,
      ((confinement Guarded.shows_tree hrun).1 _ rfl).2.1 _ stays, hdone, others _ elsewhere⟩

/-- The page of a template with a boot tag needs the names of all paths. -/
theorem fileName?_ne_none_of_render {page : Rendered} {path : String}
    (hrender : render text config = .ok page) (boot : ∃ token ∈ tokens text, IsBootTag token)
    (hpath : path ∈ config.paths) : Path.fileName? path ≠ none := by
  intro hnone
  cases hfind : config.paths.find? isUnnamed with
  | none =>
    have named := List.find?_eq_none.1 hfind path hpath
    rw [isUnnamed, hnone] at named
    exact named rfl
  | some first =>
    rw [render_eq_error_iff.2 ⟨boot, first, hfind, rfl⟩] at hrender
    cases hrender

/-- What is left behind when a page is not written because a path has no file name. If the template
has a boot tag, then nothing is: the first such path is found while the page is rendered. If it has
none, then only the resources are looked at, each when it is to be copied, so those before the first
such path have been copied by then. -/
theorem remains_of_noFileName {box box' : Sandbox} {path : String}
    (h : runIn box (writePage template config output) = (.error (.noFileName path), box')) :
    ∃ text, (box.tree.read template).bind textOf = .ok text ∧
      ((∃ token ∈ tokens text, IsBootTag token) →
        config.paths.find? isUnnamed = some path ∧ box' = box) ∧
      ((∀ token ∈ tokens text, ¬IsBootTag token) →
        config.resources.find? isUnnamed = some path ∧
        ∃ earlier later copied made, config.resources = earlier ++ path :: later ∧
          OnlyAddsDirectories box.tree made.tree ∧
          runIn made (copyResources earlier (pageDirectory output)) = (.ok copied, box') ∧
          WritesOnly (copyPaths earlier (pageDirectory output)) box.tree box'.tree ∧
          HoldCopies box.tree box'.tree (Path.join (pageDirectory output) contentDirectory) earlier
            copied) := by
  cases failsWriting_of_writePage Sandbox.shows_tree h with
  | rendering hread hrender =>
    obtain ⟨htext, rfl⟩ := runIn_attempt_eq_ok.1 hread
    obtain ⟨boot, first, hfirst, hfailure⟩ := render_eq_error_iff.1 hrender
    obtain rfl := Failure.noFileName.inj hfailure
    refine ⟨_, htext, fun _ => ⟨hfirst, rfl⟩, fun noTag => ?_⟩
    obtain ⟨token, hmem, hboot⟩ := boot
    exact absurd hboot (noTag token hmem)
  | copying hread hrender adds fails =>
    cases fails with
    | naming split adds' hcopied hnone =>
      have unnamed : isUnnamed path = true := by rw [isUnnamed, hnone, Option.isNone_none]
      have made := adds.trans adds'
      have copies := writesOnly_copyResources Sandbox.shows_tree hcopied
      have holds :=
        (holdCopies_copyResources Sandbox.shows_tree hcopied).of_onlyAddsDirectories made
      refine ⟨_, hread, fun boot => ?_, fun _ => ⟨?_, _, _, _, _, split, made, hcopied,
        (made.writesOnly _).trans copies, holds⟩⟩
      · have among : path ∈ config.paths := by
          rw [Config.paths, split]
          simp
        exact absurd hnone (fileName?_ne_none_of_render hrender boot among)
      · refine List.find?_eq_some_iff_append.2 ⟨unnamed, _, _, split, fun resource hmem => ?_⟩
        obtain ⟨name, hname⟩ := holds.exists_fileName hmem
        rw [isUnnamed, hname]
        rfl

/-- A path without a name after a stylesheet. -/
def unnamedSecond : List String := ["a/x.css", "/"]

/-- With a boot tag in the template nothing is left behind. -/
theorem remains_of_noFileName_twoStyles :
    ∃ box', runIn twoStyles (writePage "page.html" (settingsOf unnamedSecond) "out/index.html") =
        (.error (.noFileName "/"), box') ∧ box' = twoStyles := by
  rcases hrun : runIn twoStyles (writePage "page.html" (settingsOf unnamedSecond) "out/index.html")
    with ⟨result, box'⟩
  have fails : (runIn twoStyles (writePage "page.html" (settingsOf unnamedSecond)
      "out/index.html")).1.map (fun _ => ()) = .error (.noFileName "/") := by decide +kernel
  rw [hrun] at fails
  cases result with
  | ok summary => cases fails
  | error failure =>
    obtain rfl := Except.error.inj fails
    obtain ⟨text, hread, withTag, -⟩ := remains_of_noFileName hrun
    have found : ((twoStyles.tree.read "page.html").bind textOf).toOption.any fun text =>
        (tokens text).any fun token => IsBootTag token := by decide +kernel
    rw [hread] at found
    obtain ⟨token, hmem, hboot⟩ := List.any_eq_true.1 found
    exact ⟨box', rfl, (withTag ⟨token, hmem, of_decide_eq_true hboot⟩).2⟩

/-- A template without a boot tag, and a stylesheet. -/
def staticPage : Sandbox where
  tree :=
    { items := [(["page.html"], .file "<p>static</p>".toUTF8), (["a"], .directory),
        (["a", "x.css"], .file "A".toUTF8)] }

/-- Without a boot tag the copy of the stylesheet is left behind. -/
theorem remains_of_noFileName_staticPage :
    (runIn staticPage (writePage "page.html" (settingsOf unnamedSecond) "out/index.html")).1.map
        (fun _ => ()) = .error (.noFileName "/") ∧
      (staticPage.tree.read "out/_content/x.css").toOption = none ∧
      ((runIn staticPage (writePage "page.html" (settingsOf unnamedSecond)
        "out/index.html")).2.tree.read "out/_content/x.css").toOption = some "A".toUTF8 := by
  decide +kernel

end MarkupTree.Page
