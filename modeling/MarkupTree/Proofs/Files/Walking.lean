import MarkupTree.Files.Tree
import MarkupTree.Proofs.Files.Paths
import MarkupTree.Proofs.Replay.Parallel

/-!
# Walking in a file tree that changes

A walk reads nothing but which places are directories. So a change that leaves every directory
where it is (`FileTree.KeepsDirectories`) leaves every walk that succeeds as it is. Each operation
is described by the one place that it changes: a file that is written stands where its path leads
(`FileTree.write_eq_ok`), and so does the copy of a file (`FileTree.copy_eq_ok`), while making
directories puts directories where nothing was (`FileTree.onlyAddsDirectories_makeDirectories`).

## Main definitions

* `FileTree.KeepsDirectories` : no directory is lost.
* `FileTree.OnlyAddsDirectories` : nothing changes but that there are directories where nothing was.

## Main results

* `FileTree.KeepsDirectories.walk` : walks stay as they are.
* `FileTree.walk_of_target` : a file is written where its path leads.
* `FileTree.write_eq_ok`, `FileTree.copy_eq_ok` : what is at which place afterwards.
* `FileTree.exists_of_walk`, `FileTree.exists_of_walkFrom_join` : the name at the end of a path.
-/

namespace MarkupTree.FileTree

variable {tree tree' : FileTree} {place reached : Place} {path piece name : String}
  {contents : ByteArray}

/-! ### One step of a walk -/

theorem walkFrom_append_eq_ok {pieces more : List String} :
    walkFrom tree place (pieces ++ more) = .ok reached ↔
      ∃ middle, walkFrom tree place pieces = .ok middle ∧
        walkFrom tree middle more = .ok reached := by
  rw [walkFrom_append, bind_eq_ok_iff]

/-- A step starts at a directory. -/
theorem item?_of_walkFrom_cons {pieces : List String}
    (h : walkFrom tree place (piece :: pieces) = .ok reached) :
    tree.item? place = some .directory := by
  rw [walkFrom] at h
  split at h
  · cases h
  · cases h
  · assumption

theorem walkFrom_filler (hp : Path.isFiller piece = true) :
    walkFrom tree place [piece] = .ok reached ↔
      tree.item? place = some .directory ∧ place = reached := by
  rw [walkFrom]
  split <;> simp [walkFrom, *]

theorem walkFrom_up :
    walkFrom tree place [".."] = .ok reached ↔
      tree.item? place = some .directory ∧ place.dropLast = reached := by
  have leads : Path.isFiller ".." = false := rfl
  rw [walkFrom]
  split <;> simp [walkFrom, *]

theorem walkFrom_name (hn : Path.IsName name) :
    walkFrom tree place [name] = .ok reached ↔
      tree.item? place = some .directory ∧ name.utf8ByteSize ≤ maxName ∧
        place ++ [name] = reached := by
  rw [walkFrom]
  split
  · simp [*]
  · simp [*]
  · by_cases hlong : maxName < name.utf8ByteSize
    · simp [hn.leads, hn.notUp, hlong, Nat.not_le.2 hlong]
    · simp [walkFrom, hn.leads, hn.notUp, Nat.not_lt.1 hlong, *]

/-- Fillers lead nowhere. -/
theorem eq_of_walkFrom_fillers {fillers : List String}
    (hf : ∀ piece ∈ fillers, Path.isFiller piece = true)
    (h : walkFrom tree place fillers = .ok reached) : reached = place := by
  induction fillers with
  | nil => exact (Except.ok.inj h).symm
  | cons piece fillers ih =>
    obtain ⟨hpiece, hrest⟩ := List.forall_mem_cons.1 hf
    rw [← List.singleton_append] at h
    obtain ⟨middle, hstep, hwalk⟩ := walkFrom_append_eq_ok.1 h
    obtain ⟨-, rfl⟩ := (walkFrom_filler hpiece).1 hstep
    exact ih hrest hwalk

theorem walkFrom_fillers {fillers : List String}
    (hf : ∀ piece ∈ fillers, Path.isFiller piece = true)
    (h : tree.item? place = some .directory) : walkFrom tree place fillers = .ok place := by
  induction fillers with
  | nil => rfl
  | cons piece fillers ih =>
    obtain ⟨hpiece, hrest⟩ := List.forall_mem_cons.1 hf
    rw [walkFrom, h]
    exact (if_pos hpiece).trans (ih hrest)

/-- A file is read where its path leads. -/
theorem read_eq_ok_iff : tree.read path = .ok contents ↔
    ∃ place, tree.walk path = .ok place ∧ tree.item? place = some (.file contents) := by
  rw [read, bind_eq_ok_iff]
  refine exists_congr fun place => and_congr_right fun _ => ?_
  split <;> simp [*]

/-! ### Changes that keep directories -/

/-- What is a directory stays one, and paths start where they did. -/
structure KeepsDirectories (tree tree' : FileTree) : Prop where
  base : tree'.base = tree.base
  directory : ∀ place, tree.item? place = some .directory → tree'.item? place = some .directory

theorem KeepsDirectories.refl (tree : FileTree) : KeepsDirectories tree tree :=
  ⟨rfl, fun _ h => h⟩

theorem KeepsDirectories.trans {tree'' : FileTree} (h : KeepsDirectories tree tree')
    (h' : KeepsDirectories tree' tree'') : KeepsDirectories tree tree'' :=
  ⟨h'.base.trans h.base, fun place hplace => h'.directory place (h.directory place hplace)⟩

theorem KeepsDirectories.start (h : KeepsDirectories tree tree') (path : String) :
    tree'.start path = tree.start path := by
  rw [FileTree.start, FileTree.start, h.base]

theorem KeepsDirectories.walkFrom (h : KeepsDirectories tree tree') {pieces : List String}
    (hw : walkFrom tree place pieces = .ok reached) :
    walkFrom tree' place pieces = .ok reached := by
  induction pieces generalizing place with
  | nil => exact hw
  | cons piece pieces ih =>
    have start := item?_of_walkFrom_cons hw
    rw [FileTree.walkFrom, start] at hw
    rw [FileTree.walkFrom, h.directory place start]
    split_ifs at hw ⊢
    · exact ih hw
    · exact ih hw
    · exact ih hw

/-- Walks stay as they are. -/
theorem KeepsDirectories.walk (h : KeepsDirectories tree tree')
    (hw : tree.walk path = .ok reached) : tree'.walk path = .ok reached := by
  obtain ⟨_, hcheck, hw⟩ := bind_eq_ok_iff.1 hw
  exact bind_eq_ok_iff.2 ⟨_, hcheck, h.start path ▸ h.walkFrom hw⟩

theorem hasDirectory_eq_true : tree.hasDirectory place = true ↔
    tree.item? place = some .directory := by
  rw [hasDirectory]
  cases tree.item? place with
  | none => simp
  | some item => cases item <;> simp [Item.isDirectory]

theorem ne_nil_of_hasDirectory (h : tree.hasDirectory place = false) : place ≠ [] := by
  rintro rfl
  have root : tree.hasDirectory [] = true := hasDirectory_eq_true.2 rfl
  rw [root] at h
  cases h

theorem keepsDirectories_put_file (h : tree.hasDirectory place = false) (contents : ByteArray) :
    KeepsDirectories tree (tree.put place (.file contents)) := by
  refine ⟨rfl, fun other hother => ?_⟩
  have apart : other ≠ place := by
    rintro rfl
    rw [hasDirectory_eq_true.2 hother] at h
    cases h
  rw [item?_put (ne_nil_of_hasDirectory h), if_neg apart, hother]

/-! ### Making directories -/

/-- Nothing changes but that there are directories where nothing was. -/
structure OnlyAddsDirectories (tree tree' : FileTree) : Prop where
  base : tree'.base = tree.base
  item : ∀ place, tree'.item? place = tree.item? place ∨
    tree.item? place = none ∧ tree'.item? place = some .directory

theorem OnlyAddsDirectories.refl (tree : FileTree) : OnlyAddsDirectories tree tree :=
  ⟨rfl, fun _ => .inl rfl⟩

theorem OnlyAddsDirectories.trans {tree'' : FileTree} (h : OnlyAddsDirectories tree tree')
    (h' : OnlyAddsDirectories tree' tree'') : OnlyAddsDirectories tree tree'' := by
  refine ⟨h'.base.trans h.base, fun place => ?_⟩
  rcases h.item place, h'.item place with ⟨same | ⟨hnone, hnew⟩, same' | ⟨hnone', hnew'⟩⟩
  · exact .inl (same'.trans same)
  · exact .inr ⟨same ▸ hnone', hnew'⟩
  · exact .inr ⟨hnone, same'.trans hnew⟩
  · exact .inr ⟨hnone, hnew'⟩

theorem OnlyAddsDirectories.keepsDirectories (h : OnlyAddsDirectories tree tree') :
    KeepsDirectories tree tree' := by
  refine ⟨h.base, fun place hplace => ?_⟩
  rcases h.item place with same | ⟨hnone, -⟩
  · exact same.trans hplace
  · rw [hplace] at hnone
    cases hnone

/-- No file is added or changed. -/
theorem OnlyAddsDirectories.file_iff (h : OnlyAddsDirectories tree tree') :
    tree'.item? place = some (.file contents) ↔ tree.item? place = some (.file contents) := by
  rcases h.item place with same | ⟨hnone, hnew⟩
  · rw [same]
  · simp [hnone, hnew]

theorem onlyAddsDirectories_makeDirectory {start : Place} {backwards : List String}
    (h : tree.makeDirectory start backwards = .ok tree') : OnlyAddsDirectories tree tree' := by
  obtain ⟨place, -, h⟩ := bind_eq_ok_iff.1 h
  cases hitem : tree.item? place with
  | some item => simp [hitem] at h
  | none =>
    rw [hitem] at h
    obtain rfl := Except.ok.inj h
    have hplace : place ≠ [] := by
      rintro rfl
      cases hitem
    refine ⟨rfl, fun other => ?_⟩
    rw [item?_put hplace]
    by_cases hother : other = place
    · subst hother
      exact .inr ⟨hitem, if_pos rfl⟩
    · exact .inl (if_neg hother)

theorem onlyAddsDirectories_makeAll (tree : FileTree) (start : Place) (backwards : List String) :
    OnlyAddsDirectories tree (tree.makeAll start backwards).2 := by
  induction backwards with
  | nil => exact .refl tree
  | cons piece above ih =>
    rw [makeAll]
    split
    · next made hfirst => exact onlyAddsDirectories_makeDirectory hfirst
    · split
      · next cause made habove =>
        rw [habove] at ih
        exact ih
      · next made habove =>
        rw [habove] at ih
        split
        · next all hlast => exact ih.trans (onlyAddsDirectories_makeDirectory hlast)
        · split <;> exact ih
    · split <;> exact .refl tree

/-- Making directories adds directories and nothing else. -/
theorem onlyAddsDirectories_makeDirectories (tree : FileTree) (path : String) :
    OnlyAddsDirectories tree (tree.makeDirectories path).2 := by
  rw [makeDirectories]
  split
  · exact .refl tree
  · exact .refl tree
  · exact onlyAddsDirectories_makeAll tree _ _

/-! ### Where files are written -/

theorem pieces_of_piecesFromEnd {last : String} {above : List String}
    (h : piecesFromEnd path = last :: above) (hend : ¬path.endsWith "/") :
    Path.pieces path = above.reverse ++ [last] := by
  rw [piecesFromEnd] at h
  cases hpieces : (Path.pieces path).reverse with
  | nil => exact absurd (List.reverse_eq_nil_iff.1 hpieces) (Path.pieces_ne_nil path)
  | cons piece more =>
    have split : Path.pieces path = more.reverse ++ [piece] := by
      rw [← List.reverse_cons, ← hpieces, List.reverse_reverse]
    rw [hpieces, List.dropWhile_cons] at h
    split_ifs at h with hempty
    · obtain rfl := String.isEmpty_iff.1 hempty
      refine absurd (Path.endsWith_slash_of_pieces split fun hmore => ?_) hend
      rw [List.reverse_eq_nil_iff.1 hmore] at h
      cases h
    · obtain ⟨rfl, rfl⟩ := List.cons.inj h
      exact split

/-- The last piece of a path leads on from a directory. -/
theorem exists_last_step (h : tree.walk path = .ok place) :
    ∃ front last directory, Path.pieces path = front ++ [last] ∧
      tree.item? directory = some .directory ∧
      walkFrom tree (tree.start path) front = .ok directory ∧
      walkFrom tree directory [last] = .ok place := by
  obtain ⟨_, -, h⟩ := bind_eq_ok_iff.1 h
  obtain ⟨front, last, hpieces⟩ : ∃ front last, Path.pieces path = front ++ [last] :=
    ⟨_, _, (List.dropLast_concat_getLast (Path.pieces_ne_nil path)).symm⟩
  rw [hpieces] at h
  obtain ⟨directory, hfront, hlast⟩ := walkFrom_append_eq_ok.1 h
  exact ⟨front, last, directory, hpieces, item?_of_walkFrom_cons hlast, hfront, hlast⟩

/-- The last piece of a file's path leads on from a directory, and not to one. -/
theorem exists_walk_of_target (h : tree.target path = .ok place) :
    ∃ front last directory, Path.pieces path = front ++ [last] ∧
      checkPath path = .ok () ∧ tree.hasDirectory place = false ∧
      tree.item? directory = some .directory ∧
      walkFrom tree (tree.start path) front = .ok directory ∧
      walkFrom tree directory [last] = .ok place := by
  obtain ⟨_, hcheck, h⟩ := bind_eq_ok_iff.1 h
  cases hpieces : piecesFromEnd path with
  | nil => simp [hpieces] at h
  | cons last above =>
    rw [hpieces] at h
    obtain ⟨directory, habove, h⟩ := bind_eq_ok_iff.1 h
    split_ifs at h with hend
    obtain ⟨found, hlast, h⟩ := bind_eq_ok_iff.1 h
    split_ifs at h with hdirectory
    obtain rfl := Except.ok.inj h
    obtain ⟨middle, hwalk, hdot⟩ := walkFrom_append_eq_ok.1 habove
    obtain ⟨hmiddle, rfl⟩ := (walkFrom_filler rfl).1 hdot
    exact ⟨above.reverse, last, middle, pieces_of_piecesFromEnd hpieces hend, hcheck,
      Bool.eq_false_iff.2 hdirectory, hmiddle, hwalk, hlast⟩

/-- A file is written where its path leads. -/
theorem walk_of_target (h : tree.target path = .ok place) :
    tree.walk path = .ok place ∧ tree.hasDirectory place = false := by
  obtain ⟨front, last, directory, hpieces, hcheck, hplace, -, hwalk, hlast⟩ :=
    exists_walk_of_target h
  refine ⟨bind_eq_ok_iff.2 ⟨(), hcheck, ?_⟩, hplace⟩
  rw [hpieces]
  exact walkFrom_append_eq_ok.2 ⟨directory, hwalk, hlast⟩

theorem write_eq_ok (h : tree.write path contents = .ok tree') :
    ∃ place, tree.target path = .ok place ∧ tree' = tree.put place (.file contents) := by
  obtain ⟨place, htarget, h⟩ := bind_eq_ok_iff.1 h
  exact ⟨place, htarget, (Except.ok.inj h).symm⟩

theorem put_put (place : Place) (first second : Item) (tree : FileTree) :
    (tree.put place first).put place second = tree.put place second := by
  simp [put, List.filter_filter]

/-- A copy is written where its path leads. A file that is copied onto itself is empty after
that. -/
theorem copy_eq_ok {source target : String} (h : tree.copy source target = .ok tree') :
    ∃ origin place contents, tree.walk source = .ok origin ∧
      tree.item? origin = some (.file contents) ∧ tree.target target = .ok place ∧
      tree' = tree.put place (.file (if origin = place then .empty else contents)) := by
  obtain ⟨origin, hwalk, h⟩ := bind_eq_ok_iff.1 h
  cases hitem : tree.item? origin with
  | none => simp [hitem] at h
  | some item =>
    cases item with
    | directory => simp [hitem] at h
    | file contents =>
      rw [hitem] at h
      obtain ⟨place, htarget, h⟩ := bind_eq_ok_iff.1 h
      have hplace := ne_nil_of_hasDirectory (walk_of_target htarget).2
      refine ⟨origin, place, contents, hwalk, hitem, htarget, ?_⟩
      dsimp only at h
      rw [item?_put hplace] at h
      split_ifs at h ⊢
      · rw [← put_put place (.file .empty)]
        exact (Except.ok.inj h).symm
      · rw [hitem] at h
        rw [← put_put place (.file .empty)]
        exact (Except.ok.inj h).symm

/-! ### Names at the end of a path -/

/-- A path that leads anywhere leads to its file name, if it has one. -/
theorem exists_of_walk (hn : Path.fileName? path = some name) (h : tree.walk path = .ok place) :
    ∃ directory, place = directory ++ [name] := by
  obtain ⟨isName, front, fillers, hpieces, hfillers⟩ := Path.exists_pieces_of_fileName? hn
  obtain ⟨_, -, h⟩ := bind_eq_ok_iff.1 h
  rw [hpieces, ← List.singleton_append] at h
  obtain ⟨directory, -, h⟩ := walkFrom_append_eq_ok.1 h
  obtain ⟨named, hstep, hrest⟩ := walkFrom_append_eq_ok.1 h
  obtain ⟨-, -, rfl⟩ := (walkFrom_name isName).1 hstep
  exact ⟨directory, eq_of_walkFrom_fillers hfillers hrest⟩

/-- A name below a path starts where the path starts. -/
theorem start_join (hp : path ≠ "") (name : String) :
    tree.start (Path.join path name) = tree.start path := by
  have same : (Path.join path name).startsWith "/" = path.startsWith "/" := by
    obtain ⟨c, cs, hpath⟩ := List.exists_cons_of_ne_nil (mt String.toList_eq_nil_iff.1 hp)
    rw [Bool.eq_iff_iff, String.startsWith_string_iff, String.startsWith_string_iff, Path.join]
    split <;> simp [hpath]
  rw [start, start, same]

/-- A name below a path leads to that name where the path leads. -/
theorem exists_of_walkFrom_join (hn : Path.IsName name) (hp : path ≠ "")
    (h : walkFrom tree (tree.start (Path.join path name)) (Path.pieces (Path.join path name)) =
      .ok place) :
    ∃ directory, walkFrom tree (tree.start path) (Path.pieces path) = .ok directory ∧
      place = directory ++ [name] := by
  obtain ⟨front, hjoin, hpieces⟩ := Path.exists_pieces_join hn path
  rw [hjoin, start_join hp] at h
  obtain ⟨directory, hfront, hlast⟩ := walkFrom_append_eq_ok.1 h
  obtain ⟨hdirectory, -, rfl⟩ := (walkFrom_name hn).1 hlast
  refine ⟨directory, ?_, rfl⟩
  rcases hpieces with same | empty
  · rw [same]
    exact hfront
  · rw [empty]
    exact walkFrom_append_eq_ok.2 ⟨directory, hfront, (walkFrom_filler rfl).2 ⟨hdirectory, rfl⟩⟩

end MarkupTree.FileTree
