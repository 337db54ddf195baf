import MarkupTree.Golden.Expected
import Mathlib.Data.List.DropRight

/-!
# Lines of expected-output files

An expected-output file is read line by line, without the white space at the end of each line. So
neither blank lines matter nor what ends a line: the reader takes the lines of a text that is joined
from rows as it would take the rows themselves (`ExpectedFile.foldlM_addLine_intercalate`), but for
the blank ones (`ExpectedFile.Spaced.foldlM_addLine`).

Of the other rows, those that begin with a hash and a space are headers. A header that is written
with a colon after its key is read back without the white space around key and value, and with the
capital letters of its key made small.

## Main definitions

* `ExpectedFile.IsBlank` : the blank lines.
* `ExpectedFile.Spaced` : some lines with blank lines put between them.
* `ExpectedFile.headerLine`, `ExpectedFile.headerRead` : a header as it is written and as it is
  read.

## Main results

* `ExpectedFile.foldlM_addLine_intercalate` : the lines of a joined text.
* `ExpectedFile.foldlM_headers` : headers with different keys.
* `ExpectedFile.foldlM_lines` : lines that are no headers.
* `ExpectedFile.parse_of_spaced` : a whole file.
-/

namespace MarkupTree

/-! ### White space at the end -/

namespace White

variable {c : Char}

theorem trimEnd_concat_of_isWhite (h : isWhite c = true) (s : List Char) :
    trimEnd (s ++ [c]) = trimEnd s :=
  List.rdropWhile_concat_pos isWhite s c h

/-- White space is dropped if there is nothing else after it. -/
theorem trimEnd_cons (c : Char) (s : List Char) :
    trimEnd (c :: s) = if isWhite c && (trimEnd s).isEmpty then [] else c :: trimEnd s := by
  rw [trimEnd, trimEnd, List.reverse_cons, List.dropWhile_append]
  cases hs : s.reverse.dropWhile isWhite with
  | nil => by_cases hc : isWhite c <;> simp [hc]
  | cons d ds => simp

/-- A character that is not white shields all before it, whatever follows it. -/
theorem trimEnd_append_cons_of_not (h : isWhite c = false) (s t : List Char) :
    trimEnd (s ++ c :: t) = s ++ c :: trimEnd t := by
  induction s with
  | nil => simp [trimEnd_cons, h]
  | cons d s ih => simp [trimEnd_cons, ih]

theorem trim_cons_of_isWhite (h : isWhite c = true) (s : List Char) : trim (c :: s) = trim s := by
  rw [trim, trim, List.dropWhile_cons_of_pos h]

theorem trim_cons_of_not (h : isWhite c = false) (s : List Char) :
    trim (c :: s) = c :: trimEnd s := by
  rw [trim, List.dropWhile_cons_of_neg (by simp [h])]
  exact trimEnd_append_cons_of_not h [] s

theorem trim_trimEnd (s : List Char) : trim (trimEnd s) = trim s := by
  induction s with
  | nil => rfl
  | cons c s ih =>
    cases hc : isWhite c with
    | true =>
      rw [trim_cons_of_isWhite hc, trimEnd_cons, ← ih]
      split
      · next h => rw [List.isEmpty_iff.1 (Bool.and_eq_true_iff.1 h).2]
      · exact trim_cons_of_isWhite hc _
    | false =>
      rw [trim_cons_of_not hc, trimEnd_cons, if_neg (by simp [hc]), trim_cons_of_not hc]
      exact congrArg (c :: ·) (List.rdropWhile_idempotent isWhite s)

theorem trimEnd_eq_nil_iff {s : List Char} : trimEnd s = [] ↔ ∀ c ∈ s, isWhite c = true :=
  List.rdropWhile_eq_nil_iff

/-- The end of a line is white space. -/
theorem trimEnd_dropReturn (s : List Char) : trimEnd (Text.dropReturn s) = trimEnd s := by
  unfold Text.dropReturn
  split_ifs with h
  · obtain ⟨before, rfl⟩ := List.getLast?_eq_some_iff.1 h
    rw [List.dropLast_concat, trimEnd_concat_of_isWhite rfl]
  · rfl

end White

namespace ExpectedFile

variable {file : ExpectedFile} {rows lines : List String}

/-! ### Joined rows -/

theorem linesFrom_append {row : List Char} (h : '\n' ∉ row) (line rest : List Char) :
    Text.linesFrom line (row ++ rest) = Text.linesFrom (row.reverse ++ line) rest := by
  induction row generalizing line with
  | nil => rfl
  | cons c row ih =>
    obtain ⟨hc, hrow⟩ := not_or.1 (List.mem_cons.not.1 h)
    rw [List.cons_append, Text.linesFrom, if_neg (Ne.symm hc), ih hrow, List.reverse_cons,
      List.append_assoc]
    rfl

/-- The lines of a text that goes on after a row. -/
theorem lines_append_newline {row : String} (h : '\n' ∉ row.toList) (text : String) :
    Text.lines (row ++ "\n" ++ text) =
      String.ofList (Text.dropReturn row.toList) :: Text.lines text := by
  have whole : (row ++ "\n" ++ text).toList = row.toList ++ '\n' :: text.toList := by simp
  rw [Text.lines, whole, linesFrom_append h, Text.linesFrom, if_pos rfl, List.append_nil,
    List.reverse_reverse, List.map_cons, Text.lines]

theorem lines_of_notMem {row : String} (h : '\n' ∉ row.toList) :
    Text.lines row = if row.toList = [] then [] else [row] := by
  have whole := linesFrom_append h [] []
  rw [List.append_nil, List.append_nil] at whole
  rw [Text.lines, whole, Text.linesFrom]
  split_ifs <;> simp_all

/-- The lines of a text that is joined from rows are taken as the rows would be. -/
theorem foldlM_addLine_intercalate (h : ∀ row ∈ rows, '\n' ∉ row.toList) (file : ExpectedFile) :
    ((Text.lines ("\n".intercalate rows)).map White.trimmedEnd).foldlM addLine file =
      (rows.map White.trimmedEnd).foldlM addLine file := by
  induction rows generalizing file with
  | nil => rfl
  | cons row rows ih =>
    obtain ⟨hrow, hrows⟩ := List.forall_mem_cons.1 h
    cases rows with
    | nil =>
      rw [String.intercalate_singleton, lines_of_notMem hrow]
      split_ifs with hempty
      · rw [String.toList_eq_nil_iff.1 hempty]
        rfl
      · rfl
    | cons next rows =>
      have same : White.trimmedEnd (String.ofList (Text.dropReturn row.toList)) =
          White.trimmedEnd row := by
        rw [White.trimmedEnd, String.toList_ofList, White.trimEnd_dropReturn, White.trimmedEnd]
      rw [String.intercalate_cons_cons, lines_append_newline hrow, List.map_cons, same,
        List.map_cons, List.foldlM_cons, List.foldlM_cons]
      exact bind_congr fun file => ih hrows file

/-! ### Blank lines -/

/-- A line of nothing but white space. -/
def IsBlank (row : String) : Prop := ∀ c ∈ row.toList, White.isWhite c = true ∧ c ≠ '\n'

instance : DecidablePred IsBlank := fun row =>
  List.decidableBAll (fun c => White.isWhite c = true ∧ c ≠ '\n') row.toList

/-- The rows are the lines, in order, with any number of blank lines before, between and after
them. -/
inductive Spaced : (lines rows : List String) → Prop
  | nil : Spaced [] []
  | blank {row : String} {lines rows : List String} (h : IsBlank row) (hs : Spaced lines rows) :
      Spaced lines (row :: rows)
  | line {line : String} {lines rows : List String} (hs : Spaced lines rows) :
      Spaced (line :: lines) (line :: rows)

theorem trimmedEnd_of_isBlank {row : String} (h : IsBlank row) : White.trimmedEnd row = "" := by
  rw [White.trimmedEnd, White.trimEnd_eq_nil_iff.2 fun c hc => (h c hc).1, String.ofList_nil]

theorem Spaced.notMem (h : Spaced lines rows) (hlines : ∀ line ∈ lines, '\n' ∉ line.toList) :
    ∀ row ∈ rows, '\n' ∉ row.toList := by
  induction h with
  | nil => exact hlines
  | blank hblank _ ih =>
    exact List.forall_mem_cons.2 ⟨fun hmem => (hblank _ hmem).2 rfl, ih hlines⟩
  | line _ ih =>
    obtain ⟨hline, hlines⟩ := List.forall_mem_cons.1 hlines
    exact List.forall_mem_cons.2 ⟨hline, ih hlines⟩

/-- Blank lines are passed over. -/
theorem Spaced.foldlM_addLine (h : Spaced lines rows) (file : ExpectedFile) :
    (rows.map White.trimmedEnd).foldlM addLine file =
      (lines.map White.trimmedEnd).foldlM addLine file := by
  induction h generalizing file with
  | nil => rfl
  | blank hblank _ ih =>
    rw [List.map_cons, trimmedEnd_of_isBlank hblank]
    exact ih file
  | line _ ih => exact bind_congr ih

/-! ### Headers -/

/-- A header as it is written. -/
def headerLine (header : String × String) : String := "# " ++ header.1 ++ ": " ++ header.2

/-- A header as it is read: without white space around its key and its value, the key in small
letters. -/
def headerRead (header : String × String) : String × String :=
  (Ascii.lowercase (White.trimmed header.1), White.trimmed header.2)

/-- A header that can be read back: its key has no colon, and it takes one line. -/
structure IsHeader (header : String × String) : Prop where
  key : ':' ∉ header.1.toList
  line : '\n' ∉ header.1.toList ∧ '\n' ∉ header.2.toList

variable {header : String × String} {headers : List (String × String)}

theorem IsHeader.notMem (h : IsHeader header) : '\n' ∉ (headerLine header).toList := by
  simp [headerLine, h.line]

theorem toList_headerLine (header : String × String) :
    (headerLine header).toList =
      ('#' :: ' ' :: header.1.toList) ++ ':' :: ' ' :: header.2.toList := by
  simp [headerLine]

/-- A header is read back from its line. -/
theorem addLine_headerLine (h : IsHeader header)
    (hnew : file.header? (headerRead header).1 = none) :
    addLine file (White.trimmedEnd (headerLine header)) =
      .ok { file with headers := file.headers ++ [headerRead header] } := by
  have colon : White.isWhite ':' = false := rfl
  have line : (White.trimmedEnd (headerLine header)).toList =
      '#' :: ' ' :: (header.1.toList ++ ':' :: White.trimEnd (' ' :: header.2.toList)) := by
    rw [White.toList_trimmedEnd, toList_headerLine, White.trimEnd_append_cons_of_not colon]
    rfl
  have parts : parseHeader? (header.1.toList ++ ':' :: White.trimEnd (' ' :: header.2.toList)) =
      some (headerRead header) := by
    rw [parseHeader?, Text.splitFirst?_eq_some_iff.2 ⟨rfl, h.key⟩, Option.map_some,
      White.trim_trimEnd, White.trim_cons_of_isWhite rfl]
    simp [headerRead, Ascii.lowercase, White.trimmed]
  unfold addLine
  rw [line]
  simp [parts, hnew]

theorem header?_eq_none {key : String} (h : key ∉ file.headers.map Prod.fst) :
    file.header? key = none := by
  refine List.lookup_eq_none_iff.2 fun given hgiven => bne_iff_ne.2 ?_
  rintro rfl
  exact h (List.mem_map_of_mem hgiven)

/-- Headers with different keys are read in their order. -/
theorem foldlM_headers (h : ∀ header ∈ headers, IsHeader header) (file : ExpectedFile)
    (hkeys : ((file.headers ++ headers.map headerRead).map Prod.fst).Nodup) :
    ((headers.map headerLine).map White.trimmedEnd).foldlM addLine file =
      .ok { file with headers := file.headers ++ headers.map headerRead } := by
  induction headers generalizing file with
  | nil => simp [pure, Except.pure]
  | cons header headers ih =>
    obtain ⟨hheader, hheaders⟩ := List.forall_mem_cons.1 h
    have new : file.header? (headerRead header).1 = none := by
      refine header?_eq_none fun hmem => ?_
      rw [List.map_append, List.map_cons, List.map_cons] at hkeys
      exact (List.nodup_append.1 hkeys).2.2 _ hmem _ List.mem_cons_self rfl
    rw [List.map_cons, List.append_cons] at hkeys
    rw [List.map_cons, List.map_cons, List.foldlM_cons, addLine_headerLine hheader new,
      List.map_cons, List.append_cons _ _ (headers.map headerRead)]
    exact ih hheaders { file with headers := file.headers ++ [headerRead header] } hkeys

/-! ### Other lines -/

/-- What is no header is taken as it is. -/
theorem addLine_of_not_header {line : String} (hne : line ≠ "")
    (hmark : ∀ s, line.toList ≠ '#' :: ' ' :: s) :
    addLine file line = .ok { file with lines := file.lines ++ [line] } := by
  unfold addLine
  split
  · next h => exact absurd (String.toList_eq_nil_iff.1 h) hne
  · next s h => exact absurd h (hmark s)
  · rfl

/-- A line that is taken as it is: without white space at its end, not empty, and no header. -/
structure IsPlainLine (line : String) : Prop where
  ends : White.trimmedEnd line = line
  notEmpty : line ≠ ""
  notHeader : ∀ s, line.toList ≠ '#' :: ' ' :: s

theorem foldlM_lines (h : ∀ line ∈ lines, IsPlainLine line) (file : ExpectedFile) :
    (lines.map White.trimmedEnd).foldlM addLine file =
      .ok { file with lines := file.lines ++ lines } := by
  induction lines generalizing file with
  | nil => simp [pure, Except.pure]
  | cons line lines ih =>
    obtain ⟨hline, hlines⟩ := List.forall_mem_cons.1 h
    rw [List.map_cons, hline.ends, List.foldlM_cons,
      addLine_of_not_header hline.notEmpty hline.notHeader, List.append_cons _ _ lines]
    exact ih hlines _

/-! ### Whole files -/

/-- A file with headers of different keys, the format among them, and with plain lines below them is
read as it was written, whatever blank lines are put into it. -/
theorem parse_of_spaced {format : String} (hheaders : ∀ header ∈ headers, IsHeader header)
    (hkeys : ((headers.map headerRead).map Prod.fst).Nodup)
    (hformat : ("format", format) ∈ headers.map headerRead)
    (hlines : ∀ line ∈ lines, IsPlainLine line ∧ '\n' ∉ line.toList)
    (hrows : Spaced (headers.map headerLine ++ lines) rows) :
    parse ("\n".intercalate rows) format = .ok ⟨headers.map headerRead, lines⟩ := by
  have oneLine : ∀ line ∈ headers.map headerLine ++ lines, '\n' ∉ line.toList := by
    refine List.forall_mem_append.2 ⟨List.forall_mem_map.2 fun header hheader => ?_,
      fun line hline => (hlines line hline).2⟩
    exact (hheaders header hheader).notMem
  have taken : ((Text.lines ("\n".intercalate rows)).map White.trimmedEnd).foldlM addLine {} =
      .ok ⟨headers.map headerRead, lines⟩ := by
    rw [foldlM_addLine_intercalate (hrows.notMem oneLine), hrows.foldlM_addLine, List.map_append,
      List.foldlM_append, foldlM_headers hheaders {} (by simpa using hkeys)]
    exact foldlM_lines (fun line hline => (hlines line hline).1) _
  have named : header? ⟨headers.map headerRead, lines⟩ "format" = some format := by
    obtain ⟨before, after, hsplit⟩ := List.append_of_mem hformat
    refine List.lookup_eq_some_iff.2 ⟨before, after, hsplit, fun given hgiven => bne_iff_ne.2 ?_⟩
    rw [hsplit, List.map_append, List.map_cons] at hkeys
    exact fun heq => (List.nodup_append.1 hkeys).2.2 _ (List.mem_map_of_mem hgiven) _
      List.mem_cons_self heq.symm
  rw [parse, taken]
  simp only [bind, Except.bind, named, if_true]

end ExpectedFile

end MarkupTree
