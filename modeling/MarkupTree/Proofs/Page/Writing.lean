import MarkupTree.Proofs.Page.Copying
import MarkupTree.Proofs.Page.Rendering

/-!
# Written pages

A written page stands beside the directory of its resources, so writing it touches none of them,
and each URL in the tags of the resources leads from the page to a copied resource
(`Page.copied_contents`).

## Main definitions

* `Page.tagUrl?` : what a tag links to.

## Main results

* `Page.steps_of_writePage` : the steps by which a page is written.
* `Page.copied_contents` : what the copies of the resources hold, and which of them a page links to.
-/

namespace MarkupTree.Page

open FileTree (OnlyAddsDirectories)

variable {σ : Type} [Store (StateM σ)] {view : σ → FileTree} {box box' : σ}
  {template output text : String} {config : Config} {tree : FileTree} {place : Place}

/-! ### The steps -/

/-- A template is read as the tree has it. -/
theorem read_of_readText (shows : Store.Shows view) {wrap : Cause → Failure}
    (h : runIn box (attempt wrap (readText template)) = (.ok text, box')) :
    ((view box).read template).bind textOf = .ok text ∧ view box' = view box := by
  obtain ⟨hok, rfl⟩ := runIn_attempt_eq_ok.1 h
  obtain ⟨contents, hread, htext⟩ := bind_eq_ok_iff.1 hok
  exact ⟨bind_eq_ok_iff.2 ⟨contents, shows.contents hread, htext⟩, shows.read template box⟩

/-- Telling entries always succeeds and changes no file. -/
theorem runIn_tellAll (shows : Store.Shows view) (entries : List Entry) (box : σ) :
    ∃ told, runIn box (entries.forM fun entry => ExceptT.lift (Store.tell entry)) =
        (.ok (), told) ∧ view told = view box := by
  induction entries generalizing box with
  | nil => exact ⟨box, rfl, rfl⟩
  | cons entry entries ih =>
    obtain ⟨told, hrun, hview⟩ := ih ((Store.tell entry : StateM σ _) box).2
    exact ⟨told, hrun, hview.trans (shows.tell entry box)⟩

/-- The steps by which a page is written: the template is read and rendered, directories are made,
the resources are copied, and the page is written last. -/
theorem steps_of_writePage (shows : Store.Shows view) {summary : Summary}
    (h : runIn box (writePage template config output) = (.ok summary, box')) :
    ∃ text page made copied, ((view box).read template).bind textOf = .ok text ∧
      render text config = .ok page ∧ OnlyAddsDirectories (view box) (view made) ∧
      runIn made (copyResources config.resources (pageDirectory output)) =
        (.ok summary.copied, copied) ∧
      (view copied).write output page.html.toUTF8 = .ok (view box') ∧
      summary.bootTagFound = page.bootTagFound := by
  obtain ⟨text, first, hread, h⟩ := runIn_bind_eq_ok.1 h
  obtain ⟨htext, hfirst⟩ := read_of_readText shows hread
  obtain ⟨page, second, hlift, h⟩ := runIn_bind_eq_ok.1 h
  obtain ⟨hrender, rfl⟩ := runIn_lift_eq_ok.1 hlift
  obtain ⟨_, third, htell, h⟩ := runIn_bind_eq_ok.1 h
  obtain ⟨told, htold, hview⟩ := runIn_tellAll shows page.journal first
  rw [htold] at htell
  cases htell
  obtain ⟨_, made, hmake, h⟩ := runIn_bind_eq_ok.1 h
  have adds := onlyAddsDirectories_of_makeDirectories shows hmake
  rw [hview, hfirst] at adds
  obtain ⟨copies, copied, hcopy, h⟩ := runIn_bind_eq_ok.1 h
  obtain ⟨_, written, hwrite, h⟩ := runIn_bind_eq_ok.1 h
  obtain ⟨_, last, hlast, h⟩ := runIn_bind_eq_ok.1 h
  cases h
  refine ⟨text, page, made, copied, htext, hrender, adds, hcopy, ?_, rfl⟩
  rw [view_eq_of_tell shows hlast]
  exact change_eq_ok_of_attempt (shows.write _ _) hwrite

/-! ### Where a page stands -/

/-- The directory of a page is made up of the pieces above it, with an empty piece more if that is
the root. -/
theorem exists_pieces_pageDirectory {first : String} {more : List String}
    (hparent : Path.parent? output =
      some (if first :: more = [""] then "/" else "/".intercalate (first :: more)))
    (hplain : ∀ piece ∈ first :: more, '/' ∉ piece.toList) :
    ∃ fillers, Path.pieces (pageDirectory output) = first :: (more ++ fillers) ∧
      (∀ piece ∈ fillers, Path.isFiller piece = true) ∧ (first = "" → more ++ fillers ≠ []) := by
  rw [pageDirectory, hparent]
  by_cases root : first :: more = [""]
  · obtain ⟨rfl, rfl⟩ := List.cons.inj root
    refine ⟨[""], ?_, by simp [Path.isFiller], fun _ => List.cons_ne_nil "" []⟩
    have slash := Path.pieces_append "" ""
    have empty : Path.pieces "" = [""] := Path.pieces_of_notMem (by simp)
    rwa [empty] at slash
  · have pieces : Path.pieces ("/".intercalate (first :: more)) = first :: more :=
      Path.pieces_intercalate (List.cons_ne_nil first more) hplain
    have some : ¬("/".intercalate (first :: more)).isEmpty = true := by
      intro hempty
      rw [String.isEmpty_iff.1 hempty, Path.pieces_of_notMem (by simp)] at pieces
      exact root pieces.symm
    refine ⟨[], ?_, nofun, ?_⟩
    · simp only [if_neg root, if_neg some, pieces, List.append_nil]
    · rintro rfl hmore
      rw [List.append_nil] at hmore
      exact root (by rw [hmore])

/-- The directory of a page is gone to along the pieces of the page's path but the last. -/
theorem walkFrom_pageDirectory {front : List String} {last : String}
    (hpieces : Path.pieces output = front ++ [last]) (hlast : Path.isFiller last = false)
    (hplace : tree.item? place = some .directory)
    (hwalk : FileTree.walkFrom tree (tree.start output) front = .ok place) :
    FileTree.walkFrom tree (tree.start (pageDirectory output))
      (Path.pieces (pageDirectory output)) = .ok place := by
  rcases Path.parent?_of_pieces hpieces hlast with
    ⟨rfl, hparent⟩ | ⟨kept, fillers, rfl, hkept, hfillers, hparent⟩
  · -- A single name stands where paths start.
    have dot : Path.pieces "." = ["."] := Path.pieces_of_notMem (by decide)
    have here : pageDirectory output = "." := by rw [pageDirectory, hparent]; rfl
    have single : ¬output.startsWith "/" := by simp [Path.startsWith_slash_iff hpieces]
    have dotted : ¬".".startsWith "/" := by simp [Path.startsWith_slash_iff dot]
    rw [FileTree.start, if_neg single] at hwalk
    obtain rfl := Except.ok.inj hwalk
    rw [here, dot, FileTree.start, if_neg dotted]
    exact (FileTree.walkFrom_filler rfl).2 ⟨hplace, rfl⟩
  · obtain ⟨first, more, rfl⟩ := List.exists_cons_of_ne_nil hkept
    have starts : output.startsWith "/" ↔ first = "" := by
      simp [Path.startsWith_slash_iff (hpieces.trans (List.append_assoc ..))]
    obtain ⟨middle, hmiddle, hrest⟩ := FileTree.walkFrom_append_eq_ok.1 hwalk
    obtain rfl := FileTree.eq_of_walkFrom_fillers hfillers hrest
    have plain : ∀ piece ∈ first :: more, '/' ∉ piece.toList := fun piece hpiece =>
      Path.notMem_of_mem_pieces (hpieces ▸ List.mem_append_left _ (List.mem_append_left _ hpiece))
    obtain ⟨ending, hdirectory, hending, hroot⟩ := exists_pieces_pageDirectory hparent plain
    have above : (pageDirectory output).startsWith "/" ↔ first = "" :=
      (Path.startsWith_slash_iff hdirectory).trans (and_iff_left_of_imp hroot)
    have same : tree.start (pageDirectory output) = tree.start output := by
      simp only [FileTree.start, starts, above]
    rw [same, hdirectory, ← List.cons_append]
    exact FileTree.walkFrom_append_eq_ok.2
      ⟨_, hmiddle, FileTree.walkFrom_fillers hending hplace⟩

/-- A page stands in its directory, or above that. -/
theorem length_le_of_walk (h : tree.walk output = .ok place)
    (hplace : tree.hasDirectory place = false) :
    ∃ directory, FileTree.walkFrom tree (tree.start (pageDirectory output))
        (Path.pieces (pageDirectory output)) = .ok directory ∧
      place.length ≤ directory.length + 1 := by
  obtain ⟨front, last, directory, hpieces, hdirectory, hwalk, hlast⟩ := FileTree.exists_last_step h
  have leads : Path.isFiller last = false := by
    rw [Bool.eq_false_iff]
    intro hfiller
    obtain ⟨hitem, rfl⟩ := (FileTree.walkFrom_filler hfiller).1 hlast
    rw [FileTree.hasDirectory_eq_true.2 hitem] at hplace
    cases hplace
  refine ⟨directory, walkFrom_pageDirectory hpieces leads hdirectory hwalk, ?_⟩
  by_cases up : last = ".."
  · obtain ⟨-, rfl⟩ := FileTree.walkFrom_up.1 (up ▸ hlast)
    rw [List.length_dropLast]
    omega
  · have among : last ∈ Path.pieces output :=
      hpieces ▸ List.mem_append_right front List.mem_cons_self
    have isName : Path.IsName last := ⟨Path.notMem_of_mem_pieces among, leads, up⟩
    obtain ⟨-, -, rfl⟩ := (FileTree.walkFrom_name isName).1 hlast
    rw [List.length_append, List.length_singleton]

theorem pageDirectory_ne_empty (output : String) : pageDirectory output ≠ "" := by
  rw [pageDirectory]
  split
  · split_ifs with h
    · decide
    · exact mt String.isEmpty_iff.2 h
  · decide

/-- A page is none of the copies of its resources, which stand further down. -/
theorem apart_of_walk {name : String} {copy : Place} (hpage : tree.walk output = .ok place)
    (hplace : tree.hasDirectory place = false) (hn : Path.IsName name)
    (hcopy : tree.walk (Path.join (Path.join (pageDirectory output) contentDirectory) name) =
      .ok copy) : copy ≠ place := by
  obtain ⟨directory, hdirectory, hlength⟩ := length_le_of_walk hpage hplace
  obtain ⟨_, -, hcopy⟩ := bind_eq_ok_iff.1 hcopy
  obtain ⟨held, hheld, rfl⟩ := FileTree.exists_of_walkFrom_join hn
    (Path.join_ne_empty isName_contentDirectory) hcopy
  obtain ⟨directory', hdirectory', rfl⟩ := FileTree.exists_of_walkFrom_join isName_contentDirectory
    (pageDirectory_ne_empty output) hheld
  obtain rfl := Except.ok.inj (hdirectory'.symm.trans hdirectory)
  rintro rfl
  simp at hlength

/-- What the copies beside a page hold is not changed when the page is written. -/
theorem HoldCopies.write {before middle after : FileTree} {resources copied : List String}
    {contents : ByteArray}
    (h : HoldCopies before middle (Path.join (pageDirectory output) contentDirectory) resources
      copied) (hwrite : middle.write output contents = .ok after) :
    HoldCopies before after (Path.join (pageDirectory output) contentDirectory) resources copied ∧
      after.read output = .ok contents := by
  obtain ⟨place, htarget, rfl⟩ := FileTree.write_eq_ok hwrite
  obtain ⟨hwalk, hplace⟩ := FileTree.walk_of_target htarget
  have hne := FileTree.ne_nil_of_hasDirectory hplace
  have kept := FileTree.keepsDirectories_put_file hplace contents
  refine ⟨⟨h.paths, fun name hname => ?_⟩, ?_⟩
  · obtain ⟨last, hlast, held⟩ := h.contents name hname
    obtain ⟨resource, -, hresource⟩ := List.mem_filterMap.1 hname
    have isName := (Path.exists_pieces_of_fileName? hresource).1
    refine ⟨last, hlast, held.of_keepsDirectories kept fun copy hcopy => ?_⟩
    rw [FileTree.item?_put hne, if_neg (apart_of_walk hwalk hplace isName hcopy)]
  · refine FileTree.read_eq_ok_iff.2 ⟨place, kept.walk hwalk, ?_⟩
    rw [FileTree.item?_put hne, if_pos rfl]

/-! ### What a page links to -/

/-- What a tag links to. -/
def tagUrl? : Token → Option String
  | .startTag _ attributes _ =>
    (attributes.find? fun a => a.name = "href" ∨ a.name = "src").bind Attribute.value
  | _ => none

/-- The tag of a resource links to the copy of that resource. -/
theorem copyPath?_of_tagUrl? {resource url : String} {token : Token}
    (hmem : token ∈ resourceTokens resource) (hurl : tagUrl? token = some url)
    (directory : String) :
    copyPath? (Path.join directory contentDirectory) resource =
      some (Path.join directory url) := by
  have named : ∃ name, Path.fileName? resource = some name ∧ url = contentUrl name := by
    rw [resourceTokens] at hmem
    cases hname : Path.fileName? resource with
    | none => simp [hname] at hmem
    | some name =>
      rw [hname] at hmem
      refine ⟨name, rfl, ?_⟩
      dsimp only at hmem
      split_ifs at hmem
      · simp only [List.mem_cons, List.not_mem_nil, or_false] at hmem
        rcases hmem with rfl | rfl
        · cases hurl
        · exact (Option.some.inj hurl).symm
      · simp only [List.mem_cons, List.not_mem_nil, or_false] at hmem
        rcases hmem with rfl | rfl | rfl
        · cases hurl
        · exact (Option.some.inj hurl).symm
        · cases hurl
      · cases hmem
  obtain ⟨name, hname, rfl⟩ := named
  rw [copyPath?, hname, Option.map_some, contentUrl, Path.join_join isName_contentDirectory]

/-- A page with the loader has the tags of all resources. -/
theorem infix_tokens_of_render {text resource : String} {page : Rendered}
    (h : render text config = .ok page) (found : page.bootTagFound = true)
    (hmem : resource ∈ config.resources) : resourceTokens resource <:+: tokens page.html := by
  have boot : ∃ token ∈ tokens text, IsBootTag token := by
    by_contra none
    have noTag : findBootTag (lex text.toList) = .none :=
      findBootTag_eq_none_iff.2 fun l hl htag =>
        none ⟨l.token, List.mem_map_of_mem hl, htag⟩
    rw [render, noTag] at h
    obtain rfl := Except.ok.inj h
    cases found
  obtain ⟨pre, carried, boot, post, first⟩ := exists_isFirstBoot boot
  rw [render_of_isFirstBoot first] at h
  cases hload : loaderTags config carried with
  | error failure =>
    rw [hload] at h
    cases h
  | ok tags =>
    rw [hload] at h
    obtain rfl := Except.ok.inj h
    obtain ⟨main, rfl⟩ := exists_loaderText hload
    have read := (isReadAs_loaderText config main first.isAttributeName).tokens
    rw [String.ofList_toList] at read
    change _ <:+: tokens (pre ++ loaderText config main carried ++ post)
    rw [first.tokens_replaced hload, filter_tokens read]
    have among : resourceTokens resource <:+: config.resources.flatMap resourceTokens :=
      List.infix_of_mem_flatten (List.mem_map_of_mem hmem)
    refine (among.trans ?_).trans (List.infix_append' ..)
    exact (List.suffix_cons_iff.2 (.inr (List.suffix_cons ..))).isInfix

/-! ### The copies of a page -/

/-- Copied resources are found below the directory they are copied to, each under its file name.
There the last resource of each name is found as it was before, unless it was there already: then it
is lost. So each resource keeps its content if no two share a name and none is copied onto itself.
The same holds of the resources of a page, and each tag of a resource that stands on the page links
to the copy of that resource. -/
theorem copied_contents {box box' : Sandbox} :
    (∀ resources outDirectory copied,
      runIn box (copyResources resources outDirectory) = (.ok copied, box') →
      HoldCopies box.tree box'.tree (Path.join outDirectory contentDirectory) resources copied ∧
      (AreApart box'.tree (Path.join outDirectory contentDirectory) resources →
        KeepContents box.tree box'.tree (Path.join outDirectory contentDirectory) resources)) ∧
    (∀ template config output summary,
      runIn box (writePage template config output) = (.ok summary, box') →
      HoldCopies box.tree box'.tree (Path.join (pageDirectory output) contentDirectory)
        config.resources summary.copied ∧
      (AreApart box'.tree (Path.join (pageDirectory output) contentDirectory) config.resources →
        KeepContents box.tree box'.tree (Path.join (pageDirectory output) contentDirectory)
          config.resources) ∧
      (summary.bootTagFound = true → ∃ page, box'.tree.read output = .ok page.toUTF8 ∧
        ∀ resource ∈ config.resources, resourceTokens resource <:+: tokens page ∧
          ∀ token ∈ resourceTokens resource, ∀ url, tagUrl? token = some url →
            copyPath? (Path.join (pageDirectory output) contentDirectory) resource =
              some (Path.join (pageDirectory output) url))) := by
  constructor
  · intro resources outDirectory copied h
    have holds := holdCopies_copyResources Sandbox.shows_tree h
    exact ⟨holds, holds.keepContents⟩
  · intro template config output summary h
    obtain ⟨text, page, made, copied, -, hrender, adds, hcopy, hwrite, hfound⟩ :=
      steps_of_writePage Sandbox.shows_tree h
    have beside := (holdCopies_copyResources Sandbox.shows_tree hcopy).of_onlyAddsDirectories adds
    obtain ⟨holds, hread⟩ := beside.write hwrite
    refine ⟨holds, holds.keepContents, fun found =>
      ⟨page.html, hread, fun resource hmem => ⟨?_, ?_⟩⟩⟩
    · exact infix_tokens_of_render hrender (hfound ▸ found) hmem
    · exact fun token htoken url hurl => copyPath?_of_tagUrl? htoken hurl (pageDirectory output)

/-- A template, and two stylesheets of one name. -/
def twoStyles : Sandbox where
  tree :=
    { items := [(["page.html"], .file "<script type=blazor-boot></script>".toUTF8),
        (["a"], .directory), (["a", "x.css"], .file "A".toUTF8),
        (["b"], .directory), (["b", "x.css"], .file "B".toUTF8)] }

/-- Settings with both of them. -/
def bothStyles : Config where
  mainAssembly := "App.exe"
  resources := ["a/x.css", "b/x.css"]

theorem copied_contents_twoStyles :
    ∃ summary box', runIn twoStyles (writePage "page.html" bothStyles "out/index.html") =
        (.ok summary, box') ∧
      summary.copied = ["out/_content/x.css", "out/_content/x.css"] ∧
      (box'.tree.read "out/_content/x.css").toOption = some "B".toUTF8 ∧
      HoldCopies twoStyles.tree box'.tree
        (Path.join (pageDirectory "out/index.html") contentDirectory) bothStyles.resources
        summary.copied ∧
      (∃ page, box'.tree.read "out/index.html" = .ok page.toUTF8 ∧
        resourceTokens "b/x.css" <:+: tokens page) ∧
      ∃ copied box'', runIn twoStyles (copyResources ["a/x.css"] "out") = (.ok copied, box'') ∧
        KeepContents twoStyles.tree box''.tree (Path.join "out" contentDirectory)
          ["a/x.css"] := by
  obtain ⟨summary, box', hpage⟩ := exists_of_isSome_run (show (runIn twoStyles
    (writePage "page.html" bothStyles "out/index.html")).1.toOption.isSome by decide +kernel)
  obtain ⟨copied, box'', halone⟩ := exists_of_isSome_run (show (runIn twoStyles
    (copyResources ["a/x.css"] "out")).1.toOption.isSome by decide +kernel)
  have done : (runIn twoStyles (writePage "page.html" bothStyles "out/index.html")).1.toOption.map
      (fun summary => (summary.bootTagFound, summary.copied)) =
      some (true, ["out/_content/x.css", "out/_content/x.css"]) := by decide +kernel
  have read : ((runIn twoStyles (writePage "page.html" bothStyles "out/index.html")).2.tree.read
      "out/_content/x.css").toOption = some "B".toUTF8 := by decide +kernel
  have places : ((runIn twoStyles (copyResources ["a/x.css"] "out")).2.tree.walk
      "a/x.css").toOption ≠ ((runIn twoStyles (copyResources ["a/x.css"] "out")).2.tree.walk
      "out/_content/x.css").toOption := by decide +kernel
  rw [hpage] at done read
  rw [halone] at places
  obtain ⟨hfound, hcopied⟩ := Prod.mk.inj (Option.some.inj done)
  obtain ⟨holds, -, links⟩ := copied_contents.2 _ _ _ _ hpage
  obtain ⟨page, hread, tags⟩ := links hfound
  refine ⟨summary, box', hpage, hcopied, read, holds,
    ⟨page, hread, (tags "b/x.css" (by decide)).1⟩, copied, box'', halone,
    (copied_contents.1 _ _ _ halone).2 ⟨by decide +kernel, fun resource hmem target htarget => ?_⟩⟩
  have named : copyPath? (Path.join "out" contentDirectory) "a/x.css" =
      some "out/_content/x.css" := by decide +kernel
  obtain rfl := List.mem_singleton.1 hmem
  obtain rfl := Option.some.inj (named.symm.trans htarget)
  exact mt (congrArg Except.toOption) places

/-- A stylesheet where it is copied to. -/
def ownCopy : Sandbox where
  tree :=
    { items := [(["out"], .directory), (["out", "_content"], .directory),
        (["out", "_content", "x.css"], .file "A".toUTF8)] }

/-- A resource that is its own copy does not keep its content. -/
theorem copied_contents_lost :
    (ownCopy.tree.read "out/_content/x.css").toOption = some "A".toUTF8 ∧
      (runIn ownCopy (copyResources ["out/_content/x.css"] "out")).1.toOption =
        some ["out/_content/x.css"] ∧
      ((runIn ownCopy (copyResources ["out/_content/x.css"] "out")).2.tree.read
        "out/_content/x.css").toOption = some .empty := by
  decide +kernel

end MarkupTree.Page
