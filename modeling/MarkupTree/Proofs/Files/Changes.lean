import MarkupTree.Proofs.Files.Walking

/-!
# What is changed in a file tree

The operations on a file tree change little. Whatever some of them do one after another, directories
stay, and new ones are made only where nothing was; and a file is written only where one of the
paths leads that were written to (`FileTree.WritesOnly`). A path is judged by where it leads in the
end: the directories on its way may have been made before the file was written.

## Main definitions

* `FileTree.file?` : what the file at a place holds.
* `FileTree.Changed` : what may have become of a place.
* `FileTree.WritesOnly` : nothing changes but that directories are made and files are written where
  some paths lead.

## Main results

* `FileTree.WritesOnly.trans` : changes one after another.
* `FileTree.WritesOnly.file?_eq` : where none of the paths leads, files stay as they are.
* `FileTree.writesOnly_write`, `FileTree.writesOnly_copy` : the changes by one operation.
-/

namespace MarkupTree.FileTree

variable {tree tree' before middle after : FileTree} {place : Place} {path : String}
  {paths more : List String} {contents : ByteArray}

/-! ### Files by place -/

/-- What the file at a place holds, if there is one. -/
def file? (tree : FileTree) (place : Place) : Option ByteArray :=
  match tree.item? place with
  | some (.file contents) => some contents
  | _ => none

theorem file?_eq_some_iff :
    tree.file? place = some contents ↔ tree.item? place = some (.file contents) := by
  rw [file?]
  split
  · next held h => simp [h]
  · next h => exact ⟨nofun, fun hfile => absurd hfile (h contents)⟩

theorem file?_eq_none_of_directory (h : tree.item? place = some .directory) :
    tree.file? place = none := by
  rw [file?, h]

theorem file?_congr (h : after.item? place = before.item? place) :
    after.file? place = before.file? place := by
  rw [file?, file?, h]

/-! ### Changes -/

/-- What may have become of a place, if files were written where `paths` lead. -/
inductive Changed (paths : List String) (before after : FileTree) (place : Place) : Prop
  | same (h : after.item? place = before.item? place)
  | made (hnone : before.item? place = none) (hnew : after.item? place = some .directory)
  | written {path : String} {contents : ByteArray} (hpath : path ∈ paths)
      (hwalk : after.walk path = .ok place) (hplace : before.hasDirectory place = false)
      (hfile : after.item? place = some (.file contents))

/-- Nothing changes but that there are directories where nothing was, and files where `paths` lead
and no directory was. -/
structure WritesOnly (paths : List String) (before after : FileTree) : Prop where
  base : after.base = before.base
  changed : ∀ place, Changed paths before after place

theorem OnlyAddsDirectories.writesOnly (h : OnlyAddsDirectories before after)
    (paths : List String) : WritesOnly paths before after := by
  refine ⟨h.base, fun place => ?_⟩
  rcases h.item place with same | ⟨hnone, hnew⟩
  · exact .same same
  · exact .made hnone hnew

theorem WritesOnly.refl (paths : List String) (tree : FileTree) : WritesOnly paths tree tree :=
  ⟨rfl, fun _ => .same rfl⟩

theorem WritesOnly.mono (h : WritesOnly paths before after) (hsub : paths ⊆ more) :
    WritesOnly more before after := by
  refine ⟨h.base, fun place => ?_⟩
  cases h.changed place with
  | same h => exact .same h
  | made hnone hnew => exact .made hnone hnew
  | written hpath hwalk hplace hfile => exact .written (hsub hpath) hwalk hplace hfile

theorem WritesOnly.keepsDirectories (h : WritesOnly paths before after) :
    KeepsDirectories before after := by
  refine ⟨h.base, fun place hplace => ?_⟩
  cases h.changed place with
  | same h => exact h.trans hplace
  | made hnone hnew => exact hnew
  | written hpath hwalk hno hfile =>
    rw [hasDirectory_eq_true.2 hplace] at hno
    cases hno

/-- Changes one after another. Where a path led before the second of them, it still leads. -/
theorem WritesOnly.trans (h : WritesOnly paths before middle) (h' : WritesOnly paths middle after) :
    WritesOnly paths before after := by
  refine ⟨h'.base.trans h.base, fun place => ?_⟩
  cases h.changed place with
  | same first =>
    have whether : before.hasDirectory place = middle.hasDirectory place := by
      rw [hasDirectory, hasDirectory, first]
    cases h'.changed place with
    | same second => exact .same (second.trans first)
    | made hnone hnew => exact .made (first ▸ hnone) hnew
    | written hpath hwalk hplace hfile => exact .written hpath hwalk (whether ▸ hplace) hfile
  | made hnone hnew => exact .made hnone (h'.keepsDirectories.directory place hnew)
  | written hpath hwalk hplace hfile =>
    cases h'.changed place with
    | same second =>
      exact .written hpath (h'.keepsDirectories.walk hwalk) hplace (second.trans hfile)
    | made hnone hnew => cases hfile.symm.trans hnone
    | written hpath' hwalk' hplace' hfile' => exact .written hpath' hwalk' hplace hfile'

/-- Where none of the paths leads, files stay as they are, and none appears. -/
theorem WritesOnly.file?_eq (h : WritesOnly paths before after)
    (hplace : ∀ path ∈ paths, after.walk path ≠ .ok place) :
    after.file? place = before.file? place := by
  cases h.changed place with
  | same h => exact file?_congr h
  | made hnone hnew => rw [file?_eq_none_of_directory hnew, file?, hnone]
  | written hpath hwalk hno hfile => exact absurd hwalk (hplace _ hpath)

/-! ### Single operations -/

/-- A file that is put where a path leads. -/
theorem writesOnly_put (htarget : tree.target path = .ok place) (contents : ByteArray) :
    WritesOnly [path] tree (tree.put place (.file contents)) := by
  obtain ⟨hwalk, hplace⟩ := walk_of_target htarget
  refine ⟨rfl, fun other => ?_⟩
  have written := item?_put (ne_nil_of_hasDirectory hplace) (.file contents) tree other
  by_cases same : other = place
  · subst same
    rw [if_pos rfl] at written
    have leads := (keepsDirectories_put_file hplace contents).walk hwalk
    exact .written List.mem_cons_self leads hplace written
  · rw [if_neg same] at written
    exact .same written

theorem writesOnly_write (h : tree.write path contents = .ok tree') :
    WritesOnly [path] tree tree' := by
  obtain ⟨place, htarget, rfl⟩ := write_eq_ok h
  exact writesOnly_put htarget contents

theorem writesOnly_copy {source target : String} (h : tree.copy source target = .ok tree') :
    WritesOnly [target] tree tree' := by
  obtain ⟨origin, place, contents, -, -, htarget, rfl⟩ := copy_eq_ok h
  exact writesOnly_put htarget _

end MarkupTree.FileTree
