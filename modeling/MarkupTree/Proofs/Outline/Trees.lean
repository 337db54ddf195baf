import MarkupTree.Proofs.Outline.Lines
import MarkupTree.Proofs.Pass.Accounting

/-!
# Trees from outlines

An outline has one line for each node, and it determines the tree but for one thing: the text of a
markup node is shown as a whole, so that its pieces are not told apart (`outline_eq_iff`). This
holds of trees without spaces in the labels of foreign nodes.

A line tells all of its node but the children, and the depth of the node. The lines of the children
follow at once, each deeper by one, and they end before the first line that is not deeper than the
node, or with the outline. So the lines of a tree at a given depth are cut off in one way from
whatever less deep lines may follow them, and a forest is read off its lines one tree after the
other.

## Main definitions

* `Node.joinMarkup` : a tree with its markup in one piece at each node.
* `Node.HasPlainLabels` : no foreign node of a tree has a space in its label.
* `Outline.StartsAbove` : the lines that may follow those of a tree at a given depth.

## Main results

* `Outline.isReadBack` : the lines of a tree determine the tree and where they end.
* `outline_eq_iff` : outlines identify trees, and have a line for each node.
-/

namespace MarkupTree

variable {m n : Node} {ms ns : List Node} {depth : Nat} {rest rest' : List String}

namespace Node

/-! ### Markup in one piece -/

mutual

/-- A tree with the text of each markup node in one piece. -/
def joinMarkup : Node → Node
  | document children => document (joinMarkupAll children)
  | method name children => method name (joinMarkupAll children)
  | markup pieces => markup [String.join pieces]
  | element name children => element name (joinMarkupAll children)
  | attr name parts => attr name (joinMarkupAll parts)
  | text t => text t
  | foreign label payload children => foreign label payload (joinMarkupAll children)

/-- Trees with the text of each markup node in one piece. -/
def joinMarkupAll : List Node → List Node
  | [] => []
  | n :: ns => n.joinMarkup :: joinMarkupAll ns

end

/-- A tree with joined markup is what its root's line shows, with the children below it. -/
theorem joinMarkup_eq (n : Node) :
    n.joinMarkup = (Outline.face n).withChildren (joinMarkupAll n.childList) := by
  cases n <;> rfl

theorem exists_of_mem_childList (h : m ∈ n.childList) :
    ∃ children, n.children? = some children ∧ m ∈ children := by
  cases hn : n.children? with
  | none =>
    rw [childList_of_none hn] at h
    cases h
  | some children =>
    rw [childList_of_children? hn] at h
    exact ⟨children, rfl, h⟩

/-! ### Labels -/

/-- No foreign node of a tree has a space in its label. -/
def HasPlainLabels (n : Node) : Prop := ∀ m ∈ n.postorder, m.HasPlainLabel

instance : DecidablePred HasPlainLabels := fun n =>
  inferInstanceAs (Decidable (∀ m ∈ n.postorder, m.HasPlainLabel))

theorem HasPlainLabels.root (h : n.HasPlainLabels) : n.HasPlainLabel :=
  h n (by rw [postorder_eq]; exact List.mem_append_right _ List.mem_cons_self)

theorem HasPlainLabels.of_mem (h : n.HasPlainLabels) (hm : m ∈ n.childList) :
    m.HasPlainLabels := by
  intro inner hinner
  refine h inner ?_
  rw [postorder_eq, postorderAll_eq_flatMap]
  exact List.mem_append_left _ (List.mem_flatMap_of_mem hm hinner)

end Node

namespace Outline

/-! ### The lines of a tree -/

/-- The line of a node is followed by the lines of its children. -/
theorem linesAt_eq (depth : Nat) (n : Node) :
    linesAt depth n = (indent depth ++ line n) :: linesOfAll (depth + 1) n.childList := by
  cases n <;> rfl

mutual

theorem length_linesAt (depth : Nat) : (n : Node) → (linesAt depth n).length = n.size
  | .document children | .method _ children | .element _ children | .attr _ children
  | .foreign _ _ children => by
    rw [linesAt, List.length_cons, length_linesOfAll (depth + 1) children, Node.size, Nat.add_comm]
  | .markup _ | .text _ => rfl

theorem length_linesOfAll (depth : Nat) :
    (ns : List Node) → (linesOfAll depth ns).length = Node.sizeAll ns
  | [] => rfl
  | n :: ns => by
    rw [linesOfAll, List.length_append, length_linesAt depth n, length_linesOfAll depth ns,
      Node.sizeAll]

end

/-- The first of some lines, if there is one, is less deep than `depth`. -/
def StartsAbove (depth : Nat) (rest : List String) : Prop :=
  ∀ l ∈ rest.head?, spacesBefore l < 2 * depth

theorem startsAbove_nil (depth : Nat) : StartsAbove depth [] := nofun

theorem not_startsAbove_linesAt (depth : Nat) (n : Node) (rest : List String) :
    ¬StartsAbove depth (linesAt depth n ++ rest) := by
  intro h
  rw [linesAt_eq, List.cons_append] at h
  have first := h _ rfl
  rw [spacesBefore_indent] at first
  exact Nat.lt_irrefl _ first

/-- What may follow the siblings of a node may follow its children, with the siblings before it. -/
theorem StartsAbove.linesOfAll_append (h : StartsAbove depth rest) (ns : List Node) :
    StartsAbove (depth + 1) (linesOfAll depth ns ++ rest) := by
  intro l hl
  cases ns with
  | nil => exact Nat.lt_of_lt_of_le (h l hl) (by omega)
  | cons n ns =>
    rw [linesOfAll, linesAt_eq, List.cons_append, List.cons_append] at hl
    obtain rfl := Option.some.inj hl
    rw [spacesBefore_indent]
    omega

/-! ### The tree of some lines -/

/-- The lines of the tree determine it and where they end, wherever they stand in an outline. -/
def IsReadBack (n : Node) : Prop :=
  ∀ {m : Node} {depth : Nat} {rest rest' : List String}, n.HasPlainLabels → m.HasPlainLabels →
    StartsAbove (depth + 1) rest → StartsAbove (depth + 1) rest' →
    linesAt depth n ++ rest = linesAt depth m ++ rest' → n.joinMarkup = m.joinMarkup ∧ rest = rest'

/-- A forest is read back from its lines, if each of its trees is. -/
theorem eq_of_linesOfAll_append (hread : ∀ n ∈ ns, IsReadBack n)
    (hns : ∀ n ∈ ns, n.HasPlainLabels) (hms : ∀ m ∈ ms, m.HasPlainLabels)
    (hr : StartsAbove depth rest) (hr' : StartsAbove depth rest')
    (h : linesOfAll depth ns ++ rest = linesOfAll depth ms ++ rest') :
    Node.joinMarkupAll ns = Node.joinMarkupAll ms ∧ rest = rest' := by
  induction ns generalizing ms with
  | nil =>
    cases ms with
    | nil => exact ⟨rfl, h⟩
    | cons m ms =>
      obtain rfl : rest = linesOfAll depth (m :: ms) ++ rest' := h
      rw [linesOfAll, List.append_assoc] at hr
      exact absurd hr (not_startsAbove_linesAt depth m _)
  | cons n ns ih =>
    cases ms with
    | nil =>
      obtain rfl : linesOfAll depth (n :: ns) ++ rest = rest' := h
      rw [linesOfAll, List.append_assoc] at hr'
      exact absurd hr' (not_startsAbove_linesAt depth n _)
    | cons m ms =>
      obtain ⟨hn, hns⟩ := List.forall_mem_cons.1 hns
      obtain ⟨hm, hms⟩ := List.forall_mem_cons.1 hms
      obtain ⟨hfirst, hlater⟩ := List.forall_mem_cons.1 hread
      rw [linesOfAll, linesOfAll, List.append_assoc, List.append_assoc] at h
      obtain ⟨htree, htail⟩ :=
        hfirst hn hm (hr.linesOfAll_append ns) (hr'.linesOfAll_append ms) h
      obtain ⟨htrees, hrest⟩ := ih hlater hns hms htail
      exact ⟨by rw [Node.joinMarkupAll, Node.joinMarkupAll, htree, htrees], hrest⟩

/-- Every tree is read back from its lines. -/
theorem isReadBack (n : Node) : IsReadBack n := by
  induction n using Node.induction with
  | step n ih =>
    intro m depth rest rest' hn hm hr hr' h
    rw [linesAt_eq, linesAt_eq, List.cons_append, List.cons_append] at h
    obtain ⟨hline, htail⟩ := List.cons.inj h
    rw [String.append_right_inj] at hline
    have children : ∀ c ∈ n.childList, IsReadBack c := by
      intro c hc
      obtain ⟨list, hlist, hmem⟩ := Node.exists_of_mem_childList hc
      exact ih list hlist c hmem
    obtain ⟨hchildren, hrest⟩ := eq_of_linesOfAll_append children (fun _ => hn.of_mem)
      (fun _ => hm.of_mem) hr hr' htail
    refine ⟨?_, hrest⟩
    rw [n.joinMarkup_eq, m.joinMarkup_eq, face_eq_of_line_eq hn.root hm.root hline, hchildren]

/-! ### The outline of joined markup -/

theorem line_joinMarkup (n : Node) : line n.joinMarkup = line n := by
  cases n with
  | markup pieces => simp [Node.joinMarkup, line, String.join]
  | _ => rfl

mutual

/-- Joined markup is shown as the markup was before. -/
theorem linesAt_joinMarkup (depth : Nat) :
    (n : Node) → linesAt depth n.joinMarkup = linesAt depth n
  | .document children | .method _ children | .element _ children | .attr _ children
  | .foreign _ _ children => by
    rw [linesAt_eq, linesAt_eq, line_joinMarkup]
    exact congrArg _ (linesOfAll_joinMarkupAll (depth + 1) children)
  | .markup _ | .text _ => by
    rw [linesAt_eq, linesAt_eq, line_joinMarkup]
    rfl

theorem linesOfAll_joinMarkupAll (depth : Nat) :
    (ns : List Node) → linesOfAll depth (Node.joinMarkupAll ns) = linesOfAll depth ns
  | [] => rfl
  | n :: ns => by
    rw [Node.joinMarkupAll, linesOfAll, linesOfAll, linesAt_joinMarkup depth n,
      linesOfAll_joinMarkupAll depth ns]

end

end Outline

/-- Outlines identify trees. Two trees without spaces in the labels of foreign nodes have the same
outline exactly if they are the same but for the pieces of their markup. Each outline has as many
lines as its tree has nodes. -/
theorem outline_eq_iff :
    (∀ m n : Node, m.HasPlainLabels → n.HasPlainLabels →
      (m.outline = n.outline ↔ m.joinMarkup = n.joinMarkup)) ∧
    ∀ n : Node, n.outline.length = n.size := by
  refine ⟨fun m n hm hn => ⟨fun h => ?_, fun h => ?_⟩, Outline.length_linesAt 0⟩
  · have lines : Outline.linesAt 0 m ++ [] = Outline.linesAt 0 n ++ [] := congrArg (· ++ []) h
    exact (Outline.isReadBack m hm hn (Outline.startsAbove_nil 1) (Outline.startsAbove_nil 1)
      lines).1
  · have joined := congrArg (Outline.linesAt 0) h
    rwa [Outline.linesAt_joinMarkup, Outline.linesAt_joinMarkup] at joined

/-- Two trees whose markup is in different pieces, under a payload that looks like more lines. -/
theorem outline_eq_iff_splitMarkup :
    (Node.document [.foreign "if" "x\n  <p>" [.markup ["<p", ">"]]]).joinMarkup =
      (Node.document [.foreign "if" "x\n  <p>" [.markup ["<", "p>"]]]).joinMarkup :=
  have lines : (Node.document [.foreign "if" "x\n  <p>" [.markup ["<p", ">"]]]).outline =
      (Node.document [.foreign "if" "x\n  <p>" [.markup ["<", "p>"]]]).outline := by decide
  (outline_eq_iff.1 _ _ (by decide) (by decide)).1 lines

/-- Without the condition on labels a space in a label is taken for the one that ends it. -/
example : (Node.foreign "if" "x y" []).outline = (Node.foreign "if x" "y" []).outline := by
  decide

end MarkupTree
