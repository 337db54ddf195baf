import MarkupTree.Proofs.Page.Writing

/-!
# Pages that cannot be written

The first step that fails ends the writing of a page, and what the steps before it did is left
behind (`Page.failsWriting_of_writePage`). So it matters when a path without a file name is
noticed. In a template with a boot tag the names of all paths are needed for the text of the page,
which is made before any file is touched. Without a boot tag the text is the template's own: then
only the resources need names, and each is looked at when its turn comes, after the copies of those
before it.

## Main definitions

* `Page.FailsCopying`, `Page.FailsWriting` : how copying resources or writing a page can fail.

## Main results

* `Page.failsCopying_of_copyResources`, `Page.failsWriting_of_writePage` : there is no other way.
-/

namespace MarkupTree.Page

open FileTree (OnlyAddsDirectories)

variable {σ : Type} {view : σ → FileTree} {box box' : σ} {failure : Failure}
  {directory resource outDirectory : String} {resources : List String} {template output : String}
  {config : Config}

/-! ### Rows of actions -/

/-- A row of actions fails at one of them, when those before it have succeeded. -/
theorem runIn_mapM_eq_error {α β : Type} {f : α → ExceptT Failure (StateM σ) β}
    {row : List α} :
    runIn box (row.mapM f) = (.error failure, box') ↔
      ∃ earlier a later done middle, row = earlier ++ a :: later ∧
        runIn box (earlier.mapM f) = (.ok done, middle) ∧
        runIn middle (f a) = (.error failure, box') := by
  constructor
  · intro h
    induction row generalizing box with
    | nil => cases h
    | cons a row ih =>
      rw [List.mapM_cons] at h
      rcases runIn_bind_eq_error.1 h with hfirst | ⟨b, next, hfirst, hrest⟩
      · exact ⟨[], a, row, [], box, rfl, rfl, hfirst⟩
      · rcases runIn_bind_eq_error.1 hrest with hrest | ⟨_, _, -, hpure⟩
        · obtain ⟨earlier, a', later, done, middle, rfl, hearlier, hfails⟩ := ih hrest
          refine ⟨a :: earlier, a', later, b :: done, middle, rfl, ?_, hfails⟩
          rw [List.mapM_cons]
          exact runIn_bind_eq_ok.2 ⟨b, next, hfirst, runIn_bind_eq_ok.2 ⟨_, _, hearlier, rfl⟩⟩
        · cases hpure
  · rintro ⟨earlier, a, later, done, middle, rfl, hearlier, hfails⟩
    rw [List.mapM_append]
    refine runIn_bind_eq_error.2 (.inr ⟨_, _, hearlier, runIn_bind_eq_error.2 (.inl ?_)⟩)
    rw [List.mapM_cons]
    exact runIn_bind_eq_error.2 (.inl hfails)

/-! ### Resources that cannot be copied -/

variable [Store (StateM σ)]

/-- A resource that cannot be copied changes no file: either it has no file name, or the copy is
refused. -/
theorem failure_of_copyResource (shows : Store.Shows view)
    (h : runIn box (copyResource directory resource) = (.error failure, box')) :
    Path.fileName? resource = none ∧ failure = .noFileName resource ∧ box' = box ∨
      ∃ target cause, failure = .copyResource resource target cause ∧ view box' = view box := by
  rcases runIn_bind_eq_error.1 h with hlift | ⟨name, middle, hlift, h⟩
  · obtain ⟨hname, rfl⟩ := runIn_lift_eq_error.1 hlift
    obtain ⟨hnone, rfl⟩ := fileName_eq_error.1 hname
    exact .inl ⟨hnone, rfl, rfl⟩
  · obtain ⟨hname, rfl⟩ := runIn_lift_eq_ok.1 hlift
    rcases runIn_bind_eq_error.1 h with hcopy | ⟨_, copied, -, h⟩
    · obtain ⟨same, cause, rfl⟩ := view_eq_of_attempt_error (shows.copy _ _) hcopy
      exact .inr ⟨_, cause, rfl, same⟩
    · rcases runIn_bind_eq_error.1 h with htell | ⟨_, _, -, hpure⟩
      · cases htell
      · cases hpure

/-- How copying resources can fail: the directory of the copies cannot be made, or one resource has
no name or its copy is refused, when those before it have been copied. -/
inductive FailsCopying (view : σ → FileTree) (resources : List String) (outDirectory : String)
    (box : σ) : Failure → σ → Prop
  | making {cause : Cause} {box' : σ} (adds : OnlyAddsDirectories (view box) (view box')) :
      FailsCopying view resources outDirectory box
        (.write (Path.join outDirectory contentDirectory) cause) box'
  | naming {earlier later copied : List String} {resource : String} {made box' : σ}
      (split : resources = earlier ++ resource :: later)
      (adds : OnlyAddsDirectories (view box) (view made))
      (hcopied : runIn made (copyResources earlier outDirectory) = (.ok copied, box'))
      (hname : Path.fileName? resource = none) :
      FailsCopying view resources outDirectory box (.noFileName resource) box'
  | copying {earlier later copied : List String} {resource target : String} {cause : Cause}
      {made middle box' : σ} (split : resources = earlier ++ resource :: later)
      (adds : OnlyAddsDirectories (view box) (view made))
      (hcopied : runIn made (copyResources earlier outDirectory) = (.ok copied, middle))
      (same : view box' = view middle) :
      FailsCopying view resources outDirectory box (.copyResource resource target cause) box'

/-- There is no other way to fail. -/
theorem failsCopying_of_copyResources (shows : Store.Shows view)
    (h : runIn box (copyResources resources outDirectory) = (.error failure, box')) :
    FailsCopying view resources outDirectory box failure box' := by
  rw [copyResources] at h
  split_ifs at h
  · cases h
  · rcases runIn_bind_eq_error.1 h with hmake | ⟨_, made, hmake, h⟩
    · have adds := onlyAddsDirectories_of_makeDirectories shows hmake
      obtain ⟨cause, -, rfl, -⟩ := runIn_attempt_eq_error.1 hmake
      exact .making adds
    · obtain ⟨earlier, resource, later, copied, middle, split, hearlier, hfails⟩ :=
        runIn_mapM_eq_error.1 h
      -- Without any resource before the one that fails there is no directory to be made for them.
      obtain ⟨made, adds, hcopied⟩ : ∃ made, OnlyAddsDirectories (view box) (view made) ∧
          runIn made (copyResources earlier outDirectory) = (.ok copied, middle) := by
        cases earlier with
        | nil =>
          cases hearlier
          exact ⟨_, onlyAddsDirectories_of_makeDirectories shows hmake, rfl⟩
        | cons first earlier =>
          exact ⟨box, .refl _, runIn_bind_eq_ok.2 ⟨(), made, hmake, hearlier⟩⟩
      rcases failure_of_copyResource shows hfails with ⟨hname, rfl, rfl⟩ | ⟨_, _, rfl, same⟩
      · exact .naming split adds hcopied hname
      · exact .copying split adds hcopied same

/-! ### Pages -/

/-- How writing a page can fail, step by step, and what is done until then. -/
inductive FailsWriting (view : σ → FileTree) (template : String) (config : Config)
    (output : String) (box : σ) : Failure → σ → Prop
  | reading {cause : Cause} {box' : σ} (same : view box' = view box) :
      FailsWriting view template config output box (.read template cause) box'
  | rendering {text : String} {failure : Failure} {box' : σ}
      (hread : runIn box (attempt (.read template) (readText template)) = (.ok text, box'))
      (hrender : render text config = .error failure) :
      FailsWriting view template config output box failure box'
  | making {text : String} {page : Rendered} {cause : Cause} {box' : σ}
      (hread : ((view box).read template).bind textOf = .ok text)
      (hrender : render text config = .ok page)
      (adds : OnlyAddsDirectories (view box) (view box')) :
      FailsWriting view template config output box (.write (pageDirectory output) cause) box'
  | copying {text : String} {page : Rendered} {failure : Failure} {made box' : σ}
      (hread : ((view box).read template).bind textOf = .ok text)
      (hrender : render text config = .ok page)
      (adds : OnlyAddsDirectories (view box) (view made))
      (fails : FailsCopying view config.resources (pageDirectory output) made failure box') :
      FailsWriting view template config output box failure box'
  | writing {text : String} {page : Rendered} {copied : List String} {cause : Cause}
      {made middle box' : σ} (hread : ((view box).read template).bind textOf = .ok text)
      (hrender : render text config = .ok page)
      (adds : OnlyAddsDirectories (view box) (view made))
      (hcopied : runIn made (copyResources config.resources (pageDirectory output)) =
        (.ok copied, middle))
      (same : view box' = view middle) :
      FailsWriting view template config output box (.write output cause) box'

/-- There is no other way to fail. -/
theorem failsWriting_of_writePage (shows : Store.Shows view)
    (h : runIn box (writePage template config output) = (.error failure, box')) :
    FailsWriting view template config output box failure box' := by
  rcases runIn_bind_eq_error.1 h with htext | ⟨text, first, htext, h⟩
  · obtain ⟨cause, -, rfl, rfl⟩ := runIn_attempt_eq_error.1 htext
    exact .reading (shows.read template box)
  obtain ⟨hread, hfirst⟩ := read_of_readText shows htext
  rcases runIn_bind_eq_error.1 h with hlift | ⟨page, _, hlift, h⟩
  · obtain ⟨hrender, rfl⟩ := runIn_lift_eq_error.1 hlift
    exact .rendering htext hrender
  obtain ⟨hrender, rfl⟩ := runIn_lift_eq_ok.1 hlift
  obtain ⟨told, htold, hview⟩ := runIn_tellAll shows page.journal first
  have unchanged := hview.trans hfirst
  rcases runIn_bind_eq_error.1 h with htell | ⟨_, _, htell, h⟩
  · rw [htold] at htell
    cases htell
  rw [htold] at htell
  cases htell
  rcases runIn_bind_eq_error.1 h with hmake | ⟨_, made, hmake, h⟩
  · have adds := onlyAddsDirectories_of_makeDirectories shows hmake
    obtain ⟨cause, -, rfl, -⟩ := runIn_attempt_eq_error.1 hmake
    exact .making hread hrender (unchanged ▸ adds)
  have adds := unchanged ▸ onlyAddsDirectories_of_makeDirectories shows hmake
  rcases runIn_bind_eq_error.1 h with hcopy | ⟨copies, copied, hcopy, h⟩
  · exact .copying hread hrender adds (failsCopying_of_copyResources shows hcopy)
  rcases runIn_bind_eq_error.1 h with hwrite | ⟨_, _, -, h⟩
  · obtain ⟨same, cause, rfl⟩ := view_eq_of_attempt_error (shows.write _ _) hwrite
    exact .writing hread hrender adds hcopy same
  rcases runIn_bind_eq_error.1 h with htell | ⟨_, _, -, hpure⟩
  · cases htell
  · cases hpure

end MarkupTree.Page
