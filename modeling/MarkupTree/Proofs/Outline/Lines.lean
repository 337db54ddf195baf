import MarkupTree.Markup.Reference
import MarkupTree.Text.Split
import MarkupTree.Tree.Codec
import MarkupTree.Tree.Outline
import Mathlib.Logic.Function.Basic
import Mathlib.Tactic.IntervalCases

/-!
# Lines of outlines

The line of a node shows all of the node but its children (`Outline.face`), and nothing of it is
lost on the line: nodes with the same line have the same face (`Outline.face_eq_of_line_eq`). The
first characters of a line tell the kind of the node, and the rest is read from there. Texts are
escaped by a code that is decoded character by character, so no two of them are escaped alike.

The label and the payload of a foreign node are separated by a space, and only the payload is
escaped. So the label must have no space itself.

## Main definitions

* `Outline.readEscaped?` : the decoder of the escape code.
* `Outline.face` : what a line shows of a node.
* `Node.HasPlainLabel` : a foreign node has no space in its label.

## Main results

* `Outline.escape_injective` : no two texts are escaped alike.
* `Outline.face_eq_of_line_eq` : a line determines what it shows.
* `Outline.spacesBefore_indent` : the spaces before a line tell the depth of its node.
-/

namespace MarkupTree

namespace Outline

/-! ### The escape code -/

/-- One character at the head of an escaped text, and what follows it. -/
def readEscaped? : List Char → Option (Char × List Char)
  | [] => none
  | '\\' :: 'n' :: s => some ('\n', s)
  | '\\' :: 'r' :: s => some ('\r', s)
  | '\\' :: 't' :: s => some ('\t', s)
  | '\\' :: 'u' :: '\x7b' :: a :: b :: '\x7d' :: s =>
    some (Char.ofNat (16 * Reference.digitValue a + Reference.digitValue b), s)
  | '\\' :: c :: s => some (c, s)
  | c :: s => some (c, s)

theorem readEscaped?_control {n : Nat} (h : n < 32) (rest : List Char) :
    readEscaped? ('\\' :: 'u' :: '\x7b' :: (hexPair n ++ '\x7d' :: rest)) =
      some (Char.ofNat n, rest) := by
  interval_cases n <;> rfl

/-- Every character is read back from its escaped form, whatever follows it. -/
theorem readEscaped?_escapeChar (c : Char) (rest : List Char) :
    readEscaped? (escapeChar c ++ rest) = some (c, rest) := by
  unfold escapeChar
  split_ifs with hback hquote hn hr ht hcontrol
  case pos => subst hback; rfl
  case pos => subst hquote; rfl
  case pos => subst hn; rfl
  case pos => subst hr; rfl
  case pos => subst ht; rfl
  case pos =>
    have small : c.toNat < 32 := hcontrol
    have control := readEscaped?_control small rest
    rw [Char.ofNat_toNat] at control
    simpa using control
  case neg => simp [readEscaped?, hback]

theorem flatMap_escapeChar_inj {s t : List Char}
    (h : s.flatMap escapeChar = t.flatMap escapeChar) : s = t := by
  induction s generalizing t with
  | nil =>
    cases t with
    | nil => rfl
    | cons d t =>
      have read := readEscaped?_escapeChar d (t.flatMap escapeChar)
      rw [← List.flatMap_cons, ← h] at read
      cases read
  | cons c s ih =>
    have read := readEscaped?_escapeChar c (s.flatMap escapeChar)
    rw [← List.flatMap_cons, h] at read
    cases t with
    | nil => cases read
    | cons d t =>
      rw [List.flatMap_cons, readEscaped?_escapeChar] at read
      obtain ⟨rfl, hrest⟩ := Prod.mk.inj (Option.some.inj read)
      rw [ih hrest.symm]

/-- No two texts are escaped alike. -/
theorem escape_injective : Function.Injective escape := fun _ _ h =>
  String.toList_inj.1 (flatMap_escapeChar_inj (String.ofList_inj.1 h))

/-- Quoted texts are read back up to their closing quotes. -/
theorem quoted_inj {s t : String} (h : quoted s = quoted t) : s = t := by
  rw [quoted, quoted, String.append_left_inj, String.append_right_inj] at h
  exact escape_injective h

end Outline

/-! ### What a line shows -/

namespace Node

/-- The kind of a node. -/
def kind : Node → Kind
  | document _ => .document
  | method _ _ => .method
  | markup _ => .markup
  | element _ _ => .element
  | attr _ _ => .attr
  | text _ => .text
  | foreign _ _ _ => .foreign

/-- If the node is a foreign one, there is no space in its label. -/
def HasPlainLabel : Node → Prop
  | foreign label _ _ => ' ' ∉ label.toList
  | _ => True

instance : DecidablePred HasPlainLabel
  | foreign label _ _ => inferInstanceAs (Decidable (' ' ∉ label.toList))
  | document _ | method _ _ | markup _ | element _ _ | attr _ _ | text _ => isTrue trivial

end Node

namespace Outline

variable {m n : Node}

/-- What the line of a node shows: the node without its children, its markup in one piece. -/
def face : Node → Node
  | .document _ => .document []
  | .method name _ => .method name []
  | .markup pieces => .markup [String.join pieces]
  | .element name _ => .element name []
  | .attr name _ => .attr name []
  | .text text => .text text
  | .foreign label payload _ => .foreign label payload []

/-- The kind of node that a line is of, by its first characters. -/
def kindOf? : List Char → Option Node.Kind
  | '#' :: 'd' :: _ => some .document
  | '#' :: 'm' :: 'e' :: _ => some .method
  | '#' :: 'm' :: 'a' :: _ => some .markup
  | '<' :: _ => some .element
  | '@' :: _ => some .attr
  | '"' :: _ => some .text
  | '\x7b' :: _ => some .foreign
  | _ => none

theorem kindOf?_line (n : Node) : kindOf? (line n).toList = some n.kind := by
  cases n with
  | document children => simp [line, kindOf?, Node.kind]
  | method name children => simp [line, kindOf?, Node.kind]
  | markup pieces => simp [line, kindOf?, Node.kind]
  | element name children => simp [line, kindOf?, Node.kind]
  | attr name parts => simp [line, kindOf?, Node.kind]
  | text t => simp [line, quoted, kindOf?, Node.kind]
  | foreign label payload children => simp only [line]; split_ifs <;> simp [kindOf?, Node.kind]

/-- What stands between the braces of a foreign node's line. -/
def inBraces (label payload : String) : List Char :=
  label.toList ++ if payload.isEmpty then [] else ' ' :: (escape payload).toList

theorem line_foreign (label payload : String) (children : List Node) :
    (line (.foreign label payload children)).toList =
      '\x7b' :: (inBraces label payload ++ ['\x7d']) := by
  simp only [line, inBraces]
  split_ifs <;> simp

/-- The label of a foreign node goes up to the first space between the braces. There is none if
there is no payload. -/
theorem splitFirst?_inBraces {label : String} (h : ' ' ∉ label.toList) (payload : String) :
    Text.splitFirst? ' ' (inBraces label payload) =
      if payload.isEmpty then none else some (label.toList, (escape payload).toList) := by
  unfold inBraces
  split_ifs
  · rwa [List.append_nil, Text.splitFirst?_eq_none_iff]
  · exact Text.splitFirst?_eq_some_iff.2 ⟨rfl, h⟩

theorem inBraces_inj {label label' payload payload' : String} (hl : ' ' ∉ label.toList)
    (hl' : ' ' ∉ label'.toList) (h : inBraces label payload = inBraces label' payload') :
    label = label' ∧ payload = payload' := by
  have parts := congrArg (Text.splitFirst? ' ') h
  rw [splitFirst?_inBraces hl, splitFirst?_inBraces hl'] at parts
  split_ifs at parts with hp hp'
  · rw [String.isEmpty_iff] at hp hp'
    subst hp hp'
    exact ⟨String.toList_inj.1 (List.append_cancel_right h), rfl⟩
  · obtain ⟨hlabel, hpayload⟩ := Prod.mk.inj (Option.some.inj parts)
    exact ⟨String.toList_inj.1 hlabel, escape_injective (String.toList_inj.1 hpayload)⟩

/-- A line determines what it shows. -/
theorem face_eq_of_line_eq (hm : m.HasPlainLabel) (hn : n.HasPlainLabel)
    (h : line m = line n) : face m = face n := by
  have kinds : m.kind = n.kind := by
    have kind := kindOf?_line m
    rw [h, kindOf?_line] at kind
    exact (Option.some.inj kind).symm
  -- Only the same kind on both sides is left of each case.
  cases m with
  | document children => cases n <;> cases kinds; rfl
  | method name children =>
    cases n <;> cases kinds
    rw [line, line, String.append_right_inj] at h
    rw [face, face, h]
  | markup pieces =>
    cases n <;> cases kinds
    rw [line, line, String.append_right_inj] at h
    rw [face, face, quoted_inj h]
  | element name children =>
    cases n <;> cases kinds
    rw [line, line, String.append_left_inj, String.append_right_inj] at h
    rw [face, face, h]
  | attr name parts =>
    cases n <;> cases kinds
    rw [line, line, String.append_right_inj] at h
    rw [face, face, h]
  | text t =>
    cases n <;> cases kinds
    rw [line, line] at h
    rw [face, face, quoted_inj h]
  | foreign label payload children =>
    cases n <;> cases kinds
    have inside := congrArg String.toList h
    rw [line_foreign, line_foreign, List.cons_inj_right, List.append_left_inj] at inside
    obtain ⟨hlabel, hpayload⟩ := inBraces_inj hm hn inside
    rw [face, face, hlabel, hpayload]

/-! ### The indent -/

/-- The number of spaces before a line. -/
def spacesBefore (l : String) : Nat := (l.toList.takeWhile (· == ' ')).length

/-- A line does not begin with a space. -/
theorem exists_head_line (n : Node) : ∃ c cs, (line n).toList = c :: cs ∧ c ≠ ' ' := by
  cases h : (line n).toList with
  | nil =>
    have kind := kindOf?_line n
    rw [h] at kind
    cases kind
  | cons c cs =>
    refine ⟨c, cs, rfl, ?_⟩
    rintro rfl
    have kind := kindOf?_line n
    rw [h] at kind
    cases kind

/-- The depth of a node is read from its indented line. -/
theorem spacesBefore_indent (depth : Nat) (n : Node) :
    spacesBefore (indent depth ++ line n) = 2 * depth := by
  obtain ⟨c, cs, hline, hc⟩ := exists_head_line n
  have spaces : ∀ d ∈ List.replicate (2 * depth) ' ', (d == ' ') = true := by simp
  rw [spacesBefore, String.toList_append, indent, String.toList_ofList, hline,
    List.takeWhile_append_of_pos spaces, List.takeWhile_cons_of_neg (by simpa using hc),
    List.append_nil, List.length_replicate]

end Outline

end MarkupTree
