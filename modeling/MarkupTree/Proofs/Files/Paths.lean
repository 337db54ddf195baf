import MarkupTree.Files.Path
import Mathlib.Data.List.Infix

/-!
# The pieces of a path

A path is known by its pieces: those of two paths with a slash between them are the pieces of both,
and a name is a piece of its own. From this follows what the file name of a path and a name below
it have to do with its pieces.

## Main results

* `Text.splitAll_append_cons` : a text is split at each of its marks independently.
* `Path.pieces_append`, `Path.pieces_intercalate` : the pieces of composed paths.
* `Path.exists_pieces_of_fileName?` : the file name is the last piece that leads on.
* `Path.parent?_of_pieces` : what the path above another is made up of.
* `Path.join_join`, `Path.exists_pieces_join` : names below a path.
-/

namespace MarkupTree

namespace Text

variable {mark : Char} {s t : List Char}

theorem splitAll_of_notMem (h : mark ∉ s) : splitAll mark s = [s] := by
  induction s with
  | nil => rfl
  | cons c cs ih =>
    obtain ⟨hc, hcs⟩ := not_or.1 (mt List.mem_cons.2 h)
    rw [splitAll, if_neg (Ne.symm hc), ih hcs]

/-- A text is split at each of its marks independently. -/
theorem splitAll_append_cons (mark : Char) (s t : List Char) :
    splitAll mark (s ++ mark :: t) = splitAll mark s ++ splitAll mark t := by
  induction s with
  | nil => simp [splitAll]
  | cons c cs ih =>
    rw [List.cons_append, splitAll, splitAll, ih]
    split
    · rfl
    · cases h : splitAll mark cs with
      | nil => exact absurd h (splitAll_ne_nil mark cs)
      | cons piece pieces => rfl

end Text

namespace Path

/-- A name that can stand below a path: it has no slash and leads on. -/
structure IsName (name : String) : Prop where
  notMem : '/' ∉ name.toList
  leads : isFiller name = false
  notUp : name ≠ ".."

/-! ### Pieces of composed paths -/

theorem pieces_ne_nil (path : String) : pieces path ≠ [] := by
  rw [pieces, ne_eq, List.map_eq_nil_iff]
  exact Text.splitAll_ne_nil '/' path.toList

theorem notMem_of_mem_pieces {path piece : String} (h : piece ∈ pieces path) :
    '/' ∉ piece.toList := by
  obtain ⟨cs, hcs, rfl⟩ := List.mem_map.1 h
  rw [String.toList_ofList]
  exact Text.not_mem_of_mem_splitAll hcs

theorem pieces_append (path more : String) :
    pieces (path ++ "/" ++ more) = pieces path ++ pieces more := by
  have marked : (path ++ "/" ++ more).toList = path.toList ++ '/' :: more.toList := by
    rw [String.toList_append, String.toList_append, List.append_assoc]
    rfl
  rw [pieces, marked, Text.splitAll_append_cons, List.map_append]
  rfl

theorem pieces_of_notMem {name : String} (h : '/' ∉ name.toList) : pieces name = [name] := by
  rw [pieces, Text.splitAll_of_notMem h, List.map_singleton, String.ofList_toList]

theorem pieces_intercalate {names : List String} (hne : names ≠ [])
    (h : ∀ name ∈ names, '/' ∉ name.toList) : pieces ("/".intercalate names) = names := by
  induction names with
  | nil => exact absurd rfl hne
  | cons name names ih =>
    obtain ⟨hname, hnames⟩ := List.forall_mem_cons.1 h
    cases names with
    | nil =>
      rw [String.intercalate_singleton]
      exact pieces_of_notMem hname
    | cons next more =>
      rw [String.intercalate_cons_cons, pieces_append, pieces_of_notMem hname,
        ih (List.cons_ne_nil next more) hnames]
      rfl

/-- A path is made up of its pieces. -/
theorem intercalate_pieces (path : String) : "/".intercalate (pieces path) = path := by
  rw [← String.toList_inj, String.toList_intercalate, pieces, List.map_map]
  have back : String.toList ∘ String.ofList = id := funext fun _ => String.toList_ofList
  rw [back, List.map_id]
  exact Text.intercalate_splitAll '/' path.toList

/-! ### Slashes at the ends -/

theorem endsWith_slash_iff {path : String} :
    path.endsWith "/" ↔ ∃ front, path = front ++ "/" := by
  rw [String.endsWith_eq_endsWith_toSlice, String.Slice.endsWith_string_iff, String.copy_toSlice]
  constructor
  · rintro ⟨front, h⟩
    refine ⟨String.ofList front, String.toList_inj.1 ?_⟩
    rw [String.toList_append, String.toList_ofList, h]
  · rintro ⟨front, rfl⟩
    rw [String.toList_append]
    exact List.suffix_append ..

/-- A path ends with a slash if its last piece is empty and is not the only one. -/
theorem endsWith_slash_of_pieces {path : String} {front : List String}
    (h : pieces path = front ++ [""]) (hf : front ≠ []) : path.endsWith "/" := by
  refine endsWith_slash_iff.2 ⟨"/".intercalate front, ?_⟩
  have plain : ∀ name ∈ front, '/' ∉ name.toList := fun name hname =>
    notMem_of_mem_pieces (h ▸ List.mem_append_left _ hname)
  have same : pieces ("/".intercalate front ++ "/" ++ "") = pieces path := by
    rw [pieces_append, pieces_intercalate hf plain, h]
    rfl
  rw [← intercalate_pieces path, ← same, intercalate_pieces, String.append_empty]

/-- A path starts with a slash if its first piece is empty and is not the only one. -/
theorem startsWith_slash_iff {path first : String} {rest : List String}
    (h : pieces path = first :: rest) : path.startsWith "/" ↔ first = "" ∧ rest ≠ [] := by
  rw [String.startsWith_string_iff]
  rw [pieces] at h
  cases hpath : path.toList with
  | nil =>
    rw [hpath] at h
    obtain ⟨-, rfl⟩ := List.cons.inj h
    simp
  | cons c cs =>
    rw [hpath, Text.splitAll] at h
    split_ifs at h with hc
    · obtain ⟨rfl, rfl⟩ := List.cons.inj h
      simp [hc, Text.splitAll_ne_nil]
    · cases hcs : Text.splitAll '/' cs with
      | nil => exact absurd hcs (Text.splitAll_ne_nil '/' cs)
      | cons piece pieces =>
        rw [hcs] at h
        obtain ⟨rfl, rfl⟩ := List.cons.inj h
        simp [Ne.symm hc]

/-! ### File names -/

theorem exists_dropFillers (ps : List String) :
    ∃ dropped, ps = dropped ++ dropFillers ps ∧ ∀ piece ∈ dropped, isFiller piece = true := by
  induction ps using dropFillers.induct with
  | case1 => exact ⟨[], rfl, nofun⟩
  | case2 first => exact ⟨[], rfl, nofun⟩
  | case3 piece next more hfiller ih =>
    obtain ⟨dropped, hps, hdropped⟩ := ih
    refine ⟨piece :: dropped, ?_, List.forall_mem_cons.2 ⟨hfiller, hdropped⟩⟩
    rw [dropFillers, if_pos hfiller, List.cons_append, ← hps]
  | case4 piece next more hfiller =>
    refine ⟨[], ?_, nofun⟩
    rw [dropFillers, if_neg hfiller, List.nil_append]

theorem dropFillers_ne_nil {ps : List String} (h : ps ≠ []) : dropFillers ps ≠ [] := by
  induction ps using dropFillers.induct with
  | case1 => exact h
  | case2 first => exact h
  | case3 piece next more hfiller ih =>
    rw [dropFillers, if_pos hfiller]
    exact ih (List.cons_ne_nil next more)
  | case4 piece next more hfiller =>
    rw [dropFillers, if_neg hfiller]
    exact h

theorem dropFillers_of_not {piece : String} {ps : List String} (h : isFiller piece = false) :
    dropFillers (piece :: ps) = piece :: ps := by
  cases ps with
  | nil => rfl
  | cons next more => rw [dropFillers, if_neg (by simp [h])]

/-- The file name of a path is the last of its pieces that leads on. -/
theorem exists_pieces_of_fileName? {path name : String} (h : fileName? path = some name) :
    IsName name ∧ ∃ front fillers, pieces path = front ++ name :: fillers ∧
      ∀ piece ∈ fillers, isFiller piece = true := by
  obtain ⟨dropped, hpieces, hdropped⟩ := exists_dropFillers (pieces path).reverse
  rw [fileName?, backwards] at h
  cases hrest : dropFillers (pieces path).reverse with
  | nil => simp [hrest] at h
  | cons last above =>
    rw [hrest] at h hpieces
    obtain ⟨hname, rfl⟩ : (isFiller last || last == "..") = false ∧ last = name := by
      simpa [Option.ite_none_left_eq_some] using h
    obtain ⟨hleads, hup⟩ := Bool.or_eq_false_iff.1 hname
    have split : pieces path = above.reverse ++ last :: dropped.reverse := by
      simpa using congrArg List.reverse hpieces
    have mem : last ∈ pieces path := split ▸ List.mem_append_right _ List.mem_cons_self
    exact ⟨⟨notMem_of_mem_pieces mem, hleads, ne_of_beq_false hup⟩, above.reverse, dropped.reverse,
      split, fun piece hpiece => hdropped piece (List.mem_reverse.1 hpiece)⟩

/-- The path above one whose last piece leads on is made up of the pieces before that one, without
the fillers at their end. -/
theorem parent?_of_pieces {path last : String} {front : List String}
    (h : pieces path = front ++ [last]) (hlast : isFiller last = false) :
    front = [] ∧ parent? path = some "" ∨
      ∃ kept fillers, front = kept ++ fillers ∧ kept ≠ [] ∧
        (∀ piece ∈ fillers, isFiller piece = true) ∧
        parent? path = some (if kept = [""] then "/" else "/".intercalate kept) := by
  have back : backwards path = last :: front.reverse := by
    rw [backwards, h, List.reverse_concat, dropFillers_of_not hlast]
  rw [parent?, back]
  cases hfront : front.reverse with
  | nil =>
    have some : last.isEmpty = false := (Bool.or_eq_false_iff.1 hlast).1
    exact .inl ⟨List.reverse_eq_nil_iff.1 hfront, by simp [some]⟩
  | cons piece more =>
    obtain ⟨dropped, hmore, hdropped⟩ := exists_dropFillers (piece :: more)
    refine .inr ⟨(dropFillers (piece :: more)).reverse, dropped.reverse, ?_, ?_, ?_, ?_⟩
    · rw [← List.reverse_append, ← hmore, ← hfront, List.reverse_reverse]
    · exact mt List.reverse_eq_nil_iff.1 (dropFillers_ne_nil (List.cons_ne_nil piece more))
    · exact fun piece hpiece => hdropped piece (List.mem_reverse.1 hpiece)
    · simp only [ofBackwards, List.reverse_eq_iff, List.reverse_singleton]

/-! ### Names below a path -/

variable {path name : String}

theorem IsName.ne_empty (h : IsName name) : name ≠ "" := by
  rintro rfl
  cases h.leads

theorem IsName.not_endsWith (h : IsName name) : ¬(join path name).endsWith "/" := by
  intro hend
  obtain ⟨front, hfront⟩ := endsWith_slash_iff.1 hend
  obtain ⟨before, hbefore⟩ : ∃ before, join path name = before ++ name := by
    rw [join]
    split
    · exact ⟨path, rfl⟩
    · exact ⟨path ++ "/", rfl⟩
  have same : before.toList ++ name.toList = front.toList ++ ['/'] := by
    rw [← String.toList_append, ← hbefore, hfront, String.toList_append]
    rfl
  have last := congrArg List.getLast? same
  have some : name.toList ≠ [] := mt String.toList_eq_nil_iff.1 h.ne_empty
  rw [List.getLast?_append_of_ne_nil _ some, List.getLast?_concat] at last
  exact h.notMem (List.mem_of_getLast? last)

theorem join_ne_empty (h : IsName name) : join path name ≠ "" := by
  rw [join, ne_eq, ← String.toList_eq_nil_iff]
  split <;> simp [h.ne_empty]

theorem join_of_join (h : IsName name) (below : String) :
    join (join path name) below = join path name ++ "/" ++ below := by
  rw [join, if_neg]
  simp [h.not_endsWith, join_ne_empty h]

/-- A name below a name below a path. -/
theorem join_join (h : IsName name) (path below : String) :
    join (join path name) below = join path (name ++ "/" ++ below) := by
  rw [join_of_join h, join, join]
  split <;> simp only [String.append_assoc]

/-- A name below a path is its last piece. Those before it are the pieces of the path, apart from an
empty one at its end. -/
theorem exists_pieces_join (h : IsName name) (path : String) :
    ∃ front, pieces (join path name) = front ++ [name] ∧
      (pieces path = front ∨ pieces path = front ++ [""]) := by
  have single := pieces_of_notMem h.notMem
  rw [join]
  split
  · next hpath =>
    rcases Bool.or_eq_true_iff.1 hpath with hempty | hend
    · rw [String.isEmpty_iff] at hempty
      subst hempty
      exact ⟨[], by simpa using single, .inr rfl⟩
    · obtain ⟨front, rfl⟩ := endsWith_slash_iff.1 hend
      refine ⟨pieces front, by rw [pieces_append, single], .inr ?_⟩
      have := pieces_append front ""
      rwa [String.append_empty] at this
  · exact ⟨pieces path, by rw [pieces_append, single], .inl rfl⟩

end Path

end MarkupTree
