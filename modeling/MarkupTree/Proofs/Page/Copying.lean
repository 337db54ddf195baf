import MarkupTree.Page.Writer
import MarkupTree.Proofs.Files.Refusals
import MarkupTree.Proofs.Page.Loader

/-!
# Copied resources

All resources of a page are copied into one directory, each under its file name, one after the
other. So a copy holds what the last resource of its name held
(`Page.holdCopies_copyResources`). The files that are copied are read when their turn comes, but no
earlier copy stands in the way: a resource that is found in that directory has the name of its own
copy, and then it is copied onto itself and lost. Hence the copies are right if the names differ
and no resource lies where it is copied to (`Page.HoldCopies.keepContents`).

## Main definitions

* `Page.runIn` : a run from a state of a store.
* `Page.lastNamed?` : the last resource of a name.
* `Page.HoldsCopy` : what a copy of a file holds.
* `Page.HoldCopies` : what the copies of resources hold.
* `Page.AreApart`, `Page.KeepContents` : when the copies are right, and what that means.

## Main results

* `Page.runIn_bind` : a run of two actions is a run of each.
* `Page.copiedInto_mapM` : what a row of copies does to a tree.
* `Page.holdCopies_copyResources` : what the copies of resources hold.
* `Page.HoldCopies.keepContents` : the copies of resources that are apart are right.
-/

namespace MarkupTree.Page

open FileTree (KeepsDirectories OnlyAddsDirectories)

/-! ### Runs -/

/-- A run from a state, such as a sandbox: how it ends, and the state then. -/
def runIn {σ α : Type} (box : σ) (action : ExceptT Failure (StateM σ) α) : Except Failure α × σ :=
  action.run box

section Run

variable {σ α β : Type} {box box' : σ} {wrap : Cause → Failure} {failure : Failure}

/-- A run of two actions is a run of the first, and if that succeeds the second goes on where it
ends. -/
theorem runIn_bind (x : ExceptT Failure (StateM σ) α) (f : α → ExceptT Failure (StateM σ) β)
    (box : σ) :
    runIn box (x >>= f) =
      match runIn box x with
      | (.ok a, middle) => runIn middle (f a)
      | (.error failure, middle) => (.error failure, middle) := by
  change ExceptT.bindCont f (runIn box x).1 (runIn box x).2 = _
  rcases runIn box x with ⟨_ | a, middle⟩ <;> rfl

theorem runIn_bind_eq_ok {x : ExceptT Failure (StateM σ) α}
    {f : α → ExceptT Failure (StateM σ) β} {b : β} :
    runIn box (x >>= f) = (.ok b, box') ↔
      ∃ a middle, runIn box x = (.ok a, middle) ∧ runIn middle (f a) = (.ok b, box') := by
  rw [runIn_bind]
  rcases runIn box x with ⟨_ | a, middle⟩
  · simp
  · simp

theorem runIn_bind_eq_error {x : ExceptT Failure (StateM σ) α}
    {f : α → ExceptT Failure (StateM σ) β} :
    runIn box (x >>= f) = (.error failure, box') ↔
      runIn box x = (.error failure, box') ∨
        ∃ a middle, runIn box x = (.ok a, middle) ∧
          runIn middle (f a) = (.error failure, box') := by
  rw [runIn_bind]
  rcases runIn box x with ⟨_ | a, middle⟩
  · simp
  · simp

theorem exists_of_isSome_run {action : ExceptT Failure (StateM σ) α}
    (h : (runIn box action).1.toOption.isSome) : ∃ a box', runIn box action = (.ok a, box') := by
  rcases hrun : runIn box action with ⟨_ | a, box'⟩
  · rw [hrun] at h
    cases h
  · exact ⟨a, box', rfl⟩

theorem runIn_lift_eq_ok {x : Except Failure α} {a : α} :
    runIn box (ExceptT.mk (pure x)) = (.ok a, box') ↔ x = .ok a ∧ box = box' := by
  change (x, box) = _ ↔ _
  rw [Prod.mk.injEq]

theorem runIn_lift_eq_error {x : Except Failure α} :
    runIn box (ExceptT.mk (pure x)) = (.error failure, box') ↔ x = .error failure ∧ box = box' := by
  change (x, box) = _ ↔ _
  rw [Prod.mk.injEq]

theorem runIn_attempt_eq_ok {action : StateM σ (Except Cause α)} {a : α} :
    runIn box (attempt wrap action) = (.ok a, box') ↔
      (action box).1 = .ok a ∧ (action box).2 = box' := by
  change (Except.mapError wrap (action box).1, (action box).2) = _ ↔ _
  rw [Prod.mk.injEq]
  cases (action box).1 <;> simp [Except.mapError]

theorem runIn_attempt_eq_error {action : StateM σ (Except Cause α)} :
    runIn box (attempt wrap action) = (.error failure, box') ↔
      ∃ cause, (action box).1 = .error cause ∧ wrap cause = failure ∧ (action box).2 = box' := by
  change (Except.mapError wrap (action box).1, (action box).2) = _ ↔ _
  rw [Prod.mk.injEq]
  cases (action box).1 <;> simp [Except.mapError]

variable {view : σ → FileTree}

/-- A change that succeeds is the change of the tree. -/
theorem change_eq_ok_of_attempt {action : StateM σ (Except Cause Unit)}
    {change : FileTree → Except Cause FileTree} (hd : Store.Does view action change)
    (h : runIn box (attempt wrap action) = (.ok (), box')) :
    change (view box) = .ok (view box') := by
  obtain ⟨hok, rfl⟩ := runIn_attempt_eq_ok.1 h
  exact hd.done hok

/-- A change that fails changes nothing. -/
theorem view_eq_of_attempt_error {action : StateM σ (Except Cause Unit)}
    {change : FileTree → Except Cause FileTree} (hd : Store.Does view action change)
    (h : runIn box (attempt wrap action) = (.error failure, box')) :
    view box' = view box ∧ ∃ cause, wrap cause = failure := by
  obtain ⟨cause, herror, rfl, rfl⟩ := runIn_attempt_eq_error.1 h
  exact ⟨hd.refused herror, cause, rfl⟩

variable [Store (StateM σ)]

/-- Whether making directories succeeds or not, it adds directories alone. -/
theorem onlyAddsDirectories_of_makeDirectories (shows : Store.Shows view) {path : String}
    {result : Except Failure Unit}
    (h : runIn box (attempt wrap (Store.makeDirectories path)) = (result, box')) :
    OnlyAddsDirectories (view box) (view box') := by
  obtain rfl := congrArg Prod.snd h
  exact shows.makeDirectories path box

/-- Telling something changes no file. -/
theorem view_eq_of_tell (shows : Store.Shows view) {severity : Severity} {message : String}
    (h : runIn box (tell severity message) = (.ok (), box')) : view box' = view box := by
  obtain rfl := congrArg Prod.snd h
  exact shows.tell _ box

end Run

/-! ### One copy -/

variable {σ : Type} [Store (StateM σ)] {view : σ → FileTree} {box box' : σ}
  {directory resource target : String}

theorem isName_contentDirectory : Path.IsName contentDirectory :=
  ⟨by decide, rfl, by decide⟩

theorem fileName_eq_ok {name : String} :
    fileName resource = .ok name ↔ Path.fileName? resource = some name := by
  rw [fileName]
  cases Path.fileName? resource <;> simp

theorem fileName_eq_error {failure : Failure} :
    fileName resource = .error failure ↔
      Path.fileName? resource = none ∧ failure = .noFileName resource := by
  rw [fileName]
  cases Path.fileName? resource <;> simp [eq_comm]

/-- A resource is copied under its file name. -/
theorem copy_of_copyResource (shows : Store.Shows view)
    (h : runIn box (copyResource directory resource) = (.ok target, box')) :
    ∃ name, Path.fileName? resource = some name ∧ target = Path.join directory name ∧
      (view box).copy resource target = .ok (view box') := by
  obtain ⟨name, middle, hlift, h⟩ := runIn_bind_eq_ok.1 h
  obtain ⟨hname, rfl⟩ := runIn_lift_eq_ok.1 hlift
  obtain ⟨_, copied, hcopy, h⟩ := runIn_bind_eq_ok.1 h
  obtain ⟨_, told, htell, h⟩ := runIn_bind_eq_ok.1 h
  cases h
  refine ⟨name, fileName_eq_ok.1 hname, rfl, ?_⟩
  rw [view_eq_of_tell shows htell]
  exact change_eq_ok_of_attempt (shows.copy _ _) hcopy

/-- A name below the directory of copies leads to that name where the directory is. -/
theorem exists_of_target {tree : FileTree} {directory name : String} {place : Place}
    (hd : directory ≠ "") (hn : Path.IsName name)
    (h : tree.target (Path.join directory name) = .ok place) :
    ∃ held, FileTree.walkFrom tree (tree.start directory) (Path.pieces directory) = .ok held ∧
      place = held ++ [name] := by
  obtain ⟨_, -, hwalk⟩ := bind_eq_ok_iff.1 (FileTree.walk_of_target h).1
  exact FileTree.exists_of_walkFrom_join hn hd hwalk

/-! ### A row of copies -/

/-- The last of some resources that has a name. -/
def lastNamed? (name : String) (resources : List String) : Option String :=
  (resources.filter fun resource => Path.fileName? resource = some name).getLast?

theorem fileName?_of_lastNamed? {name last : String} {resources : List String}
    (h : lastNamed? name resources = some last) : Path.fileName? last = some name :=
  of_decide_eq_true (List.mem_filter.1 (List.mem_of_getLast? h)).2

theorem lastNamed?_eq_none_iff {name : String} {resources : List String} :
    lastNamed? name resources = none ↔ name ∉ fileNames resources := by
  simp [lastNamed?, fileNames]

theorem lastNamed?_append (name : String) (first second : List String) :
    lastNamed? name (first ++ second) = (lastNamed? name second).or (lastNamed? name first) := by
  rw [lastNamed?, List.filter_append, List.getLast?_append, ← lastNamed?, ← lastNamed?]

theorem lastNamed?_singleton (name resource : String) :
    lastNamed? name [resource] =
      if Path.fileName? resource = some name then some resource else none := by
  by_cases h : Path.fileName? resource = some name <;> simp [lastNamed?, h]

/-- What copying resources to a place does to a tree. At the name of each there is then what the
last resource of that name held before, or nothing if that one was found there itself. -/
structure CopiedInto (held : Place) (resources : List String) (before after : FileTree) : Prop where
  keeps : KeepsDirectories before after
  last : ∀ name last, lastNamed? name resources = some last →
    ∃ origin, after.walk last = .ok origin ∧
      (origin = held ++ [name] ∧ after.item? (held ++ [name]) = some (.file .empty) ∨
        origin ≠ held ++ [name] ∧ ∃ contents, before.item? origin = some (.file contents) ∧
          after.item? (held ++ [name]) = some (.file contents))
  other : ∀ place, (∀ name ∈ fileNames resources, place ≠ held ++ [name]) →
    after.item? place = before.item? place

/-- One copy. -/
theorem copiedInto_singleton {held origin : Place} {name : String} {before : FileTree}
    {contents : ByteArray} (hn : Path.fileName? resource = some name)
    (hplace : before.hasDirectory (held ++ [name]) = false)
    (hwalk : before.walk resource = .ok origin)
    (hitem : before.item? origin = some (.file contents)) :
    CopiedInto held [resource] before (before.put (held ++ [name])
      (.file (if origin = held ++ [name] then .empty else contents))) := by
  have kept := FileTree.keepsDirectories_put_file hplace
    (if origin = held ++ [name] then .empty else contents)
  have written := FileTree.item?_put (FileTree.ne_nil_of_hasDirectory hplace)
    (.file (if origin = held ++ [name] then .empty else contents)) before
  refine ⟨kept, fun other last hlast => ?_, fun place hother => ?_⟩
  · rw [lastNamed?_singleton] at hlast
    split_ifs at hlast with hnamed
    obtain rfl := Option.some.inj hlast
    obtain rfl : name = other := Option.some.inj (hn.symm.trans hnamed)
    refine ⟨origin, kept.walk hwalk, ?_⟩
    rw [written, if_pos rfl]
    by_cases same : origin = held ++ [name]
    · exact .inl ⟨same, by rw [if_pos same]⟩
    · exact .inr ⟨same, contents, hitem, by rw [if_neg same]⟩
  · have names : fileNames [resource] = [name] := List.filterMap_cons_some hn
    rw [names] at hother
    rw [written, if_neg (hother name List.mem_cons_self)]

/-- Copies, and then others. What the first wrote can only be read by a later one of the same name,
and that is then copied onto itself. -/
theorem CopiedInto.append {held : Place} {first second : List String}
    {before middle after : FileTree} (h : CopiedInto held first before middle)
    (h' : CopiedInto held second middle after) :
    CopiedInto held (first ++ second) before after := by
  refine ⟨h.keeps.trans h'.keeps, fun name last hlast => ?_, fun place hplace => ?_⟩
  · rw [lastNamed?_append] at hlast
    cases hsecond : lastNamed? name second with
    | some later =>
      rw [hsecond] at hlast
      obtain rfl : later = last := Option.some.inj hlast
      obtain ⟨origin, hto, same | ⟨apart, contents, hitem, copied⟩⟩ := h'.last name later hsecond
      · exact ⟨origin, hto, .inl same⟩
      · refine ⟨origin, hto, .inr ⟨apart, contents, ?_, copied⟩⟩
        obtain ⟨directory, rfl⟩ := FileTree.exists_of_walk (fileName?_of_lastNamed? hsecond) hto
        rw [← h.other _ fun other _ same => ?_]
        · exact hitem
        · obtain ⟨rfl, hnames⟩ := List.append_inj' same rfl
          obtain rfl := List.singleton_inj.1 hnames
          exact apart rfl
    | none =>
      rw [hsecond, Option.none_or] at hlast
      obtain ⟨origin, hto, copied⟩ := h.last name last hlast
      have kept : after.item? (held ++ [name]) = middle.item? (held ++ [name]) := by
        refine h'.other _ fun other hmem same => ?_
        obtain rfl := List.singleton_inj.1 (List.append_cancel_left same)
        exact lastNamed?_eq_none_iff.1 hsecond hmem
      exact ⟨origin, h'.keeps.walk hto, kept ▸ copied⟩
  · have names : fileNames (first ++ second) = fileNames first ++ fileNames second :=
      List.filterMap_append
    rw [names] at hplace
    obtain ⟨hfirst, hsecond⟩ := List.forall_mem_append.1 hplace
    rw [h'.other place hsecond, h.other place hfirst]

/-- Where a resource is copied to. -/
def copyPath? (directory resource : String) : Option String :=
  (Path.fileName? resource).map (Path.join directory)

/-- What a row of copies into a directory does to a tree. -/
theorem copiedInto_mapM (shows : Store.Shows view) {resources copied : List String} {held : Place}
    (hd : directory ≠ "")
    (h : runIn box (resources.mapM (copyResource directory)) = (.ok copied, box'))
    (hheld : FileTree.walkFrom (view box) ((view box).start directory) (Path.pieces directory) =
      .ok held) :
    resources.map (copyPath? directory) = copied.map some ∧
      CopiedInto held resources (view box) (view box') ∧
      ∀ name ∈ fileNames resources,
        (view box').walk (Path.join directory name) = .ok (held ++ [name]) := by
  induction resources generalizing box copied with
  | nil =>
    cases h
    exact ⟨rfl, ⟨.refl _, nofun, fun _ _ => rfl⟩, nofun⟩
  | cons resource resources ih =>
    rw [List.mapM_cons] at h
    obtain ⟨target, middle, hfirst, h⟩ := runIn_bind_eq_ok.1 h
    obtain ⟨targets, last, hrest, h⟩ := runIn_bind_eq_ok.1 h
    cases h
    obtain ⟨name, hname, rfl, hcopy⟩ := copy_of_copyResource shows hfirst
    obtain ⟨origin, place, contents, hwalk, hitem, htarget, htree⟩ := FileTree.copy_eq_ok hcopy
    obtain ⟨hto, hplace⟩ := FileTree.walk_of_target htarget
    have isName := (Path.exists_pieces_of_fileName? hname).1
    obtain ⟨held', hheld', rfl⟩ := exists_of_target hd isName htarget
    obtain rfl : held' = held := Except.ok.inj (hheld'.symm.trans hheld)
    have once : CopiedInto held' [resource] (view box) (view middle) :=
      htree ▸ copiedInto_singleton hname hplace hwalk hitem
    obtain ⟨paths, into, walks⟩ :=
      ih hrest (once.keeps.start directory ▸ once.keeps.walkFrom hheld)
    refine ⟨?_, once.append into, ?_⟩
    · rw [List.map_cons, List.map_cons, paths, copyPath?, hname]
      rfl
    · have names : fileNames (resource :: resources) = name :: fileNames resources :=
        List.filterMap_cons_some hname
      rw [names]
      exact List.forall_mem_cons.2 ⟨(once.append into).keeps.walk hto, walks⟩

/-! ### What the copies hold -/

/-- What the copy of a file at `source` holds: what that file held before, or nothing if the copy
is the file itself. -/
inductive HoldsCopy (before after : FileTree) (source target : String) : Prop
  | apart {origin place : Place} {contents : ByteArray} (hsource : after.walk source = .ok origin)
      (htarget : after.walk target = .ok place) (hne : origin ≠ place)
      (held : before.item? origin = some (.file contents))
      (read : ∀ bytes, before.read source = .ok bytes → bytes = contents)
      (copied : after.read target = .ok contents)
  | itself {place : Place} (hsource : after.walk source = .ok place)
      (htarget : after.walk target = .ok place) (lost : after.read target = .ok .empty)

/-- What the copies of resources hold: each what the last resource of its name held before. -/
structure HoldCopies (before after : FileTree) (directory : String)
    (resources copied : List String) : Prop where
  paths : resources.map (copyPath? directory) = copied.map some
  contents : ∀ name ∈ fileNames resources, ∃ last, lastNamed? name resources = some last ∧
    HoldsCopy before after last (Path.join directory name)

theorem CopiedInto.holdsCopy {held : Place} {resources : List String} {before after : FileTree}
    {name last : String} (h : CopiedInto held resources before after)
    (hlast : lastNamed? name resources = some last)
    (hwalk : after.walk target = .ok (held ++ [name])) : HoldsCopy before after last target := by
  obtain ⟨origin, hto, ⟨rfl, lost⟩ | ⟨apart, contents, hitem, copied⟩⟩ := h.last name last hlast
  · exact .itself hto hwalk (FileTree.read_eq_ok_iff.2 ⟨_, hwalk, lost⟩)
  · refine .apart hto hwalk apart hitem (fun bytes hread => ?_)
      (FileTree.read_eq_ok_iff.2 ⟨_, hwalk, copied⟩)
    obtain ⟨place, hplace, hbytes⟩ := FileTree.read_eq_ok_iff.1 hread
    obtain rfl := Except.ok.inj ((h.keeps.walk hplace).symm.trans hto)
    exact FileTree.Item.file.inj (Option.some.inj (hbytes.symm.trans hitem))

/-- Directories that were made before do not matter. -/
theorem HoldsCopy.of_onlyAddsDirectories {before middle after : FileTree} {source : String}
    (h : HoldsCopy middle after source target) (hadds : OnlyAddsDirectories before middle) :
    HoldsCopy before after source target := by
  cases h with
  | apart hsource htarget hne held read copied =>
    refine .apart hsource htarget hne (hadds.file_iff.1 held) (fun bytes hread => ?_) copied
    obtain ⟨place, hwalk, hitem⟩ := FileTree.read_eq_ok_iff.1 hread
    exact read bytes (FileTree.read_eq_ok_iff.2
      ⟨place, hadds.keepsDirectories.walk hwalk, hadds.file_iff.2 hitem⟩)
  | itself hsource htarget lost => exact .itself hsource htarget lost

theorem HoldCopies.of_onlyAddsDirectories {before middle after : FileTree}
    {resources copied : List String} (h : HoldCopies middle after directory resources copied)
    (hadds : OnlyAddsDirectories before middle) :
    HoldCopies before after directory resources copied := by
  refine ⟨h.paths, fun name hname => ?_⟩
  obtain ⟨last, hlast, copy⟩ := h.contents name hname
  exact ⟨last, hlast, copy.of_onlyAddsDirectories hadds⟩

/-- Nor does what is written elsewhere later. -/
theorem HoldsCopy.of_keepsDirectories {before middle after : FileTree} {source : String}
    (h : HoldsCopy before middle source target) (hkeeps : KeepsDirectories middle after)
    (hsame : ∀ place, middle.walk target = .ok place → after.item? place = middle.item? place) :
    HoldsCopy before after source target := by
  have reads : ∀ contents, middle.read target = .ok contents →
      after.read target = .ok contents := by
    intro contents hread
    obtain ⟨place, hwalk, hitem⟩ := FileTree.read_eq_ok_iff.1 hread
    exact FileTree.read_eq_ok_iff.2
      ⟨place, hkeeps.walk hwalk, (hsame place hwalk).trans hitem⟩
  cases h with
  | apart hsource htarget hne held read copied =>
    exact .apart (hkeeps.walk hsource) (hkeeps.walk htarget) hne held read (reads _ copied)
  | itself hsource htarget lost =>
    exact .itself (hkeeps.walk hsource) (hkeeps.walk htarget) (reads _ lost)

/-- What copied resources hold. Of those that share a name only the last is kept, and a resource
that is found where it is copied to is lost. -/
theorem holdCopies_copyResources (shows : Store.Shows view) {resources copied : List String}
    {outDirectory : String}
    (h : runIn box (copyResources resources outDirectory) = (.ok copied, box')) :
    HoldCopies (view box) (view box') (Path.join outDirectory contentDirectory) resources
      copied := by
  rw [copyResources] at h
  cases resources with
  | nil =>
    cases h
    exact ⟨rfl, nofun⟩
  | cons resource resources =>
    rw [if_neg (show ¬(resource :: resources).isEmpty = true from Bool.false_ne_true)] at h
    obtain ⟨_, made, hmake, h⟩ := runIn_bind_eq_ok.1 h
    have adds := onlyAddsDirectories_of_makeDirectories shows hmake
    have hd : Path.join outDirectory contentDirectory ≠ "" :=
      Path.join_ne_empty isName_contentDirectory
    -- The first copy shows where the directory is.
    obtain ⟨held, hheld⟩ : ∃ held, FileTree.walkFrom (view made)
        ((view made).start (Path.join outDirectory contentDirectory))
        (Path.pieces (Path.join outDirectory contentDirectory)) = .ok held := by
      rw [List.mapM_cons] at h
      obtain ⟨target, middle, hfirst, -⟩ := runIn_bind_eq_ok.1 h
      obtain ⟨name, hname, rfl, hcopy⟩ := copy_of_copyResource shows hfirst
      obtain ⟨_, place, _, -, -, htarget, -⟩ := FileTree.copy_eq_ok hcopy
      obtain ⟨held, hheld, -⟩ :=
        exists_of_target hd (Path.exists_pieces_of_fileName? hname).1 htarget
      exact ⟨held, hheld⟩
    obtain ⟨paths, into, walks⟩ := copiedInto_mapM shows hd h hheld
    refine .of_onlyAddsDirectories ⟨paths, fun name hname => ?_⟩ adds
    obtain ⟨last, hlast⟩ := Option.ne_none_iff_exists'.1
      (mt lastNamed?_eq_none_iff.1 (not_not.2 hname))
    exact ⟨last, hlast, into.holdsCopy hlast (walks name hname)⟩

/-! ### Copies that are right -/

/-- No two resources share a name, and none is found where it is copied to. -/
structure AreApart (after : FileTree) (directory : String) (resources : List String) : Prop where
  names : (fileNames resources).Nodup
  places : ∀ resource ∈ resources, ∀ target, copyPath? directory resource = some target →
    after.walk resource ≠ after.walk target

/-- Each resource that could be read before is found unchanged where it was copied to. -/
def KeepContents (before after : FileTree) (directory : String) (resources : List String) : Prop :=
  ∀ resource ∈ resources, ∀ target contents, copyPath? directory resource = some target →
    before.read resource = .ok contents → after.read target = .ok contents

/-- If the names differ, each resource is the last of its name. -/
theorem lastNamed?_of_nodup {resources : List String} {name : String}
    (h : (fileNames resources).Nodup) (hmem : resource ∈ resources)
    (hn : Path.fileName? resource = some name) : lastNamed? name resources = some resource := by
  induction resources with
  | nil => cases hmem
  | cons first resources ih =>
    rw [← List.singleton_append, lastNamed?_append, lastNamed?_singleton]
    rcases List.mem_cons.1 hmem with rfl | hmem
    · rw [fileNames, List.filterMap_cons_some hn] at h
      rw [lastNamed?_eq_none_iff.2 (List.nodup_cons.1 h).1, Option.none_or, if_pos hn]
    · have rest : (fileNames resources).Nodup :=
        h.sublist ((List.sublist_cons_self first resources).filterMap Path.fileName?)
      rw [ih rest hmem]
      rfl

/-- The copies of resources that are apart are right. -/
theorem HoldCopies.keepContents {before after : FileTree} {resources copied : List String}
    (h : HoldCopies before after directory resources copied)
    (happart : AreApart after directory resources) :
    KeepContents before after directory resources := by
  intro resource hmem target contents htarget hread
  have hne := happart.places resource hmem target htarget
  obtain ⟨name, hname, rfl⟩ := Option.map_eq_some_iff.1 htarget
  obtain ⟨last, hlast, copy⟩ := h.contents name (List.mem_filterMap.2 ⟨resource, hmem, hname⟩)
  obtain rfl : resource = last :=
    Option.some.inj ((lastNamed?_of_nodup happart.names hmem hname).symm.trans hlast)
  cases copy with
  | apart hsource hplace hplaces held read copied =>
    obtain rfl := read contents hread
    exact copied
  | itself hsource hplace lost => exact absurd (hsource.trans hplace.symm) hne

end MarkupTree.Page
