import MarkupTree.Proofs.Golden.Lines
import MarkupTree.Proofs.Outline.Trees

/-!
# Outlines in expected-output files

An outline that is written under headers, one of which names its format, is read back as it was
written (`ExpectedFile.parse_outline`). The writer escapes texts, markup and payloads, but names and
labels are shown as they are. So no name or label may have a line feed. What ends a line must not be
white space either, and only the names of methods and of attributes end a line; a method without a
name would leave a space there.

Whatever the depth, a line begins with a space or with the first two characters of its kind, and
none of these is a hash before a space. So no line of an outline is taken for a header.

## Main definitions

* `Node.KeepsToLine` : the name or label of a node can be read back from its line.

## Main results

* `Outline.isPlainLine` : a line of an outline is taken as it is.
* `ExpectedFile.Spaced.exists_of_intercalate` : the text of an outline stands for its lines.
* `ExpectedFile.parse_outline` : an outline under headers is read back.
-/

namespace MarkupTree

variable {n tree : Node} {depth : Nat}

/-! ### Nodes that keep to their lines -/

namespace White

/-- Whether the last character of a text is white space. -/
def endsWhite (s : String) : Bool := s.toList.getLast?.any isWhite

/-- Nothing is dropped if the last part of a text does not end in white space. -/
theorem trimmedEnd_append {last : String} (hne : last ≠ "") (hlast : endsWhite last = false)
    (start : String) : trimmedEnd (start ++ last) = start ++ last := by
  obtain ⟨before, c, hc⟩ :=
    (List.eq_nil_or_concat' last.toList).resolve_left (mt String.toList_eq_nil_iff.1 hne)
  have solid : isWhite c = false := by
    rwa [endsWhite, hc, List.getLast?_concat, Option.any_some] at hlast
  rw [trimmedEnd, String.toList_append, hc, ← List.append_assoc, trimEnd_append_cons solid,
    List.append_assoc, ← hc, ← String.toList_append, String.ofList_toList]

end White

/-- The name or label of a node is on one line, and its end can be told there. -/
def Node.KeepsToLine : Node → Prop
  | method name _ => '\n' ∉ name.toList ∧ name ≠ "" ∧ White.endsWhite name = false
  | element name _ => '\n' ∉ name.toList
  | attr name _ => '\n' ∉ name.toList ∧ White.endsWhite name = false
  | foreign label _ _ => '\n' ∉ label.toList
  | document _ | markup _ | text _ => True

instance : DecidablePred Node.KeepsToLine
  | .method name _ =>
    inferInstanceAs (Decidable ('\n' ∉ name.toList ∧ name ≠ "" ∧ White.endsWhite name = false))
  | .element name _ => inferInstanceAs (Decidable ('\n' ∉ name.toList))
  | .attr name _ =>
    inferInstanceAs (Decidable ('\n' ∉ name.toList ∧ White.endsWhite name = false))
  | .foreign label _ _ => inferInstanceAs (Decidable ('\n' ∉ label.toList))
  | .document _ | .markup _ | .text _ => isTrue trivial

namespace Outline

theorem newline_notMem_hexPair {k : Nat} (h : k < 32) : '\n' ∉ hexPair k := by
  interval_cases k <;> decide

theorem newline_notMem_escapeChar (c : Char) : '\n' ∉ escapeChar c := by
  unfold escapeChar
  split_ifs with _ _ hn _ _ hcontrol
  case pos => decide
  case pos => decide
  case pos => decide
  case pos => decide
  case pos => decide
  case pos =>
    have small : c.toNat < 32 := hcontrol
    simp [newline_notMem_hexPair small]
  case neg => simp [Ne.symm hn]

theorem newline_notMem_escape (s : String) : '\n' ∉ (escape s).toList := by
  rw [escape, String.toList_ofList, List.mem_flatMap]
  rintro ⟨c, -, hc⟩
  exact newline_notMem_escapeChar c hc

/-- A line has no line feed in it. -/
theorem newline_notMem_line (h : n.KeepsToLine) : '\n' ∉ (line n).toList := by
  cases n with
  | document children => simp [line]
  | method name children => simp [line, h.1]
  | markup pieces => simp [line, quoted, newline_notMem_escape]
  | element name children =>
    have hname : '\n' ∉ name.toList := h
    simp [line, hname]
  | attr name parts => simp [line, h.1]
  | text t => simp [line, quoted, newline_notMem_escape]
  | foreign label payload children =>
    have hlabel : '\n' ∉ label.toList := h
    simp only [line]
    split_ifs <;> simp [hlabel, newline_notMem_escape]

/-- The end of a line is solid. -/
theorem exists_line_eq_append (h : n.KeepsToLine) :
    ∃ start last, line n = start ++ last ∧ last ≠ "" ∧ White.endsWhite last = false := by
  cases n with
  | document children => exact ⟨"", "#document", by simp [line], by decide, rfl⟩
  | method name children => exact ⟨"#method ", name, by rw [line], h.2⟩
  | markup pieces =>
    exact ⟨"#markup " ++ ("\"" ++ escape (String.join pieces)), "\"",
      by simp only [line, quoted, String.append_assoc], by decide, rfl⟩
  | element name children => exact ⟨"<" ++ name, ">", by rw [line], by decide, rfl⟩
  | attr name parts =>
    by_cases hname : name = ""
    · exact ⟨"", "@", by simp [line, hname], by decide, rfl⟩
    · exact ⟨"@", name, by rw [line], hname, h.2⟩
  | text t => exact ⟨"\"" ++ escape t, "\"", by rw [line, quoted], by decide, rfl⟩
  | foreign label payload children =>
    have brace : "\x7d" ≠ "" ∧ White.endsWhite "\x7d" = false := ⟨by decide, rfl⟩
    by_cases hpayload : payload.isEmpty
    · exact ⟨"\x7b" ++ label, "\x7d", by rw [line, if_pos hpayload], brace⟩
    · exact ⟨"\x7b" ++ label ++ " " ++ escape payload, "\x7d", by rw [line, if_neg hpayload], brace⟩

/-- No line begins like a header, whatever its indent. -/
theorem ne_header (depth : Nat) (n : Node) (s : List Char) :
    (indent depth ++ line n).toList ≠ '#' :: ' ' :: s := by
  intro h
  rw [String.toList_append, indent, String.toList_ofList] at h
  cases depth with
  | zero =>
    have kind := kindOf?_line n
    rw [show (line n).toList = '#' :: ' ' :: s from h] at kind
    cases kind
  | succ depth => cases h

/-- A line of an outline is taken as it is. -/
theorem isPlainLine (h : n.KeepsToLine) (depth : Nat) :
    ExpectedFile.IsPlainLine (indent depth ++ line n) where
  ends := by
    obtain ⟨start, last, hline, hne, hlast⟩ := exists_line_eq_append h
    rw [hline, ← String.append_assoc]
    exact White.trimmedEnd_append hne hlast _
  notEmpty := by
    obtain ⟨c, cs, hline, -⟩ := exists_head_line n
    refine mt String.toList_eq_nil_iff.2 ?_
    simp [hline]
  notHeader := ne_header depth n

theorem newline_notMem_indent_line (h : n.KeepsToLine) (depth : Nat) :
    '\n' ∉ (indent depth ++ line n).toList := by
  simp [indent, newline_notMem_line h]

theorem linesOfAll_eq_flatMap (depth : Nat) (ns : List Node) :
    linesOfAll depth ns = ns.flatMap (linesAt depth) := by
  induction ns with
  | nil => rfl
  | cons n ns ih => rw [linesOfAll, ih, List.flatMap_cons]

/-- Every line of an outline is the line of a node of the tree, with some indent. -/
theorem exists_of_mem_linesAt (n : Node) :
    ∀ {depth : Nat} {l : String}, l ∈ linesAt depth n →
      ∃ deeper, ∃ m ∈ n.postorder, l = indent deeper ++ line m := by
  induction n using Node.induction with
  | step n ih =>
    intro depth l hl
    rw [linesAt_eq, linesOfAll_eq_flatMap] at hl
    rw [Node.postorder_eq, Node.postorderAll_eq_flatMap]
    rcases List.mem_cons.1 hl with rfl | hl
    · exact ⟨depth, n, List.mem_append_right _ List.mem_cons_self, rfl⟩
    · obtain ⟨c, hc, hl⟩ := List.mem_flatMap.1 hl
      obtain ⟨children, hn, hmem⟩ := Node.exists_of_mem_childList hc
      obtain ⟨deeper, m, hm, rfl⟩ := ih children hn c hmem hl
      exact ⟨deeper, m, List.mem_append_left _ (List.mem_flatMap_of_mem hc hm), rfl⟩

theorem linesAt_ne_nil (depth : Nat) (n : Node) : linesAt depth n ≠ [] := by
  rw [linesAt_eq]
  exact List.cons_ne_nil _ _

end Outline

namespace ExpectedFile

variable {before lines rows : List String} {headers : List (String × String)}

/-! ### Texts among rows -/

theorem Spaced.append_left (h : Spaced lines rows) :
    (more : List String) → Spaced (more ++ lines) (more ++ rows)
  | [] => h
  | _ :: more => .line (h.append_left more)

/-- A text of several lines among some rows may be put there line by line. -/
theorem Spaced.exists_of_intercalate (hne : lines ≠ [])
    (h : Spaced (before ++ ["\n".intercalate lines]) rows) :
    ∃ rows', Spaced (before ++ lines) rows' ∧ rows ≠ [] ∧ rows' ≠ [] ∧
      "\n".intercalate rows' = "\n".intercalate rows := by
  generalize hall : before ++ ["\n".intercalate lines] = all at h
  induction h generalizing before with
  | nil => simp at hall
  | @blank row _ rows hblank _ ih =>
    obtain ⟨rows', hspaced, hrows, hrows', htext⟩ := ih hall
    refine ⟨row :: rows', .blank hblank hspaced, List.cons_ne_nil _ _, List.cons_ne_nil _ _, ?_⟩
    rw [String.intercalate_cons_of_ne_nil hrows, String.intercalate_cons_of_ne_nil hrows', htext]
  | @line row _ rows hs ih =>
    cases before with
    | nil =>
      obtain ⟨rfl, rfl⟩ := List.cons.inj hall
      refine ⟨lines ++ rows, by simpa using hs.append_left lines, List.cons_ne_nil _ _,
        by simp [hne], ?_⟩
      cases rows with
      | nil => simp
      | cons next rows =>
        rw [String.intercalate_append_of_ne_nil hne (List.cons_ne_nil _ _),
          String.intercalate_cons_cons]
    | cons first before =>
      obtain ⟨rfl, htail⟩ := List.cons.inj hall
      obtain ⟨rows', hspaced, hrows, hrows', htext⟩ := ih htail
      refine ⟨first :: rows', .line hspaced, List.cons_ne_nil _ _, List.cons_ne_nil _ _, ?_⟩
      rw [String.intercalate_cons_of_ne_nil hrows, String.intercalate_cons_of_ne_nil hrows', htext]

/-! ### Outlines under headers -/

/-- The lines above an outline: its format, then other headers. -/
def headerLines (headers : List (String × String)) : List String :=
  headerLine ("format", Outline.format) :: headers.map headerLine

/-- The outline of a tree under headers is read back: all headers in their order, and the lines of
the outline as they are, with none of them taken for a header. The outline may have been written as
one text or line by line, and blank lines may stand anywhere. -/
theorem parse_outline (htree : ∀ n ∈ tree.postorder, n.KeepsToLine)
    (hheaders : ∀ header ∈ headers, IsHeader header)
    (hkeys : ("format" :: headers.map fun header => (headerRead header).1).Nodup)
    (hrows : Spaced (headerLines headers ++ [tree.outlineText]) rows ∨
      Spaced (headerLines headers ++ tree.outline) rows) :
    parse ("\n".intercalate rows) Outline.format =
      .ok ⟨("format", Outline.format) :: headers.map headerRead, tree.outline⟩ := by
  have format : headerRead ("format", Outline.format) = ("format", Outline.format) := by decide
  have isFormat : IsHeader ("format", Outline.format) := ⟨by decide, by decide⟩
  have all : ∀ header ∈ ("format", Outline.format) :: headers, IsHeader header :=
    List.forall_mem_cons.2 ⟨isFormat, hheaders⟩
  have keys : (((("format", Outline.format) :: headers).map headerRead).map Prod.fst).Nodup := by
    rwa [List.map_cons, format, List.map_cons, List.map_map]
  have lines : ∀ l ∈ tree.outline, IsPlainLine l ∧ '\n' ∉ l.toList := by
    intro l hl
    obtain ⟨depth, n, hn, rfl⟩ := Outline.exists_of_mem_linesAt tree hl
    exact ⟨Outline.isPlainLine (htree n hn) depth,
      Outline.newline_notMem_indent_line (htree n hn) depth⟩
  have readBack {rows : List String} (h : Spaced (headerLines headers ++ tree.outline) rows) :
      parse ("\n".intercalate rows) Outline.format =
        .ok ⟨("format", Outline.format) :: headers.map headerRead, tree.outline⟩ := by
    rw [parse_of_spaced all keys (by simp [format]) lines h, List.map_cons, format]
  rcases hrows with h | h
  · obtain ⟨rows', hspaced, -, -, htext⟩ := h.exists_of_intercalate (Outline.linesAt_ne_nil 0 tree)
    rw [← htext]
    exact readBack hspaced
  · exact readBack h

/-- A text that looks like a header, and one of a carriage return, under a second header. -/
theorem parse_outline_markedText :
    parse ("\n".intercalate ["# format: ir-tree-v1", "", "# Status : error: x ", "\t\r",
        "#method Render", "  \"# a: b\"", "  \"\\r\""]) Outline.format =
      .ok ⟨[("format", "ir-tree-v1"), ("status", "error: x")],
        ["#method Render", "  \"# a: b\"", "  \"\\r\""]⟩ := by
  have tree : ∀ n ∈ (Node.method "Render" [.text "# a: b", .text "\r"]).postorder,
      n.KeepsToLine := by decide
  have header : ∀ header ∈ [("Status ", "error: x ")], IsHeader header :=
    List.forall_mem_singleton.2 ⟨by decide, by decide⟩
  have keys : ("format" :: [("Status ", "error: x ")].map fun header =>
      (headerRead header).1).Nodup := by decide
  exact parse_outline tree header keys
    (.inr (.line (.blank (by decide) (.line (.blank (by decide) (.line (.line (.line .nil))))))))

end ExpectedFile

end MarkupTree
