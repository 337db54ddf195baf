import MarkupTree.Proofs.Replay.Conservation
import MarkupTree.Proofs.Replay.Correspondence

/-!
# What a replay carries

The children that are not markup are carried: whole as they are, with all that is inside them, they
stand somewhere in what is built, in the order that they had (`carried_sublist_of_build`). A replay
may add to a text, but only to one that it made itself.

An equation cannot say this, since what is built has more nodes than those that were carried, and a
built element may well be equal to a carried one. So each carried child is *wrapped*: it is put into
a shell of a kind that no markup gives. The replay of the wrapped children puts shells where that of
the plain ones puts children, and it conserves what is in the shells.

## Main definitions

* `Node.postorder` : the nodes of a tree, leaves first.
* `Node.wrap`, `Node.wrapped` : a child in a shell, and the nodes in the shells of a tree.

## Main results

* `conserved_wrapped` : what is in shells is conserved by building.
* `carried_sublist_of_build` : the nodes of the children that are not markup are among those of what
  is built, in the same order.
-/

namespace MarkupTree

variable {rules : TextRules} {stats : Stats} {children : List Node} {built : Built}

namespace Node

/-! ### The nodes of a tree -/

mutual

/-- The nodes of a tree, each with all that is inside it, in the order of a walk that comes to a
node after its children. -/
def postorder : Node → List Node
  | document children => postorderAll children ++ [document children]
  | method name children => postorderAll children ++ [method name children]
  | markup pieces => [markup pieces]
  | element name children => postorderAll children ++ [element name children]
  | attr name parts => postorderAll parts ++ [attr name parts]
  | text t => [text t]
  | foreign label payload children => postorderAll children ++ [foreign label payload children]

/-- The nodes of a list of trees. -/
def postorderAll : List Node → List Node
  | [] => []
  | n :: ns => n.postorder ++ postorderAll ns

end

theorem postorderAll_eq_flatMap (ns : List Node) : postorderAll ns = ns.flatMap postorder := by
  induction ns with
  | nil => rfl
  | cons n ns ih => simp [postorderAll, ih]

theorem postorder_of_children? {n : Node} (h : n.children? = some children) :
    n.postorder = children.flatMap postorder ++ [n] := by
  cases n <;> simp_all [children?, postorder, postorderAll_eq_flatMap]

theorem postorder_of_none {n : Node} (h : n.children? = none) : n.postorder = [n] := by
  cases n <;> first | rfl | cases h

/-! ### Shells -/

/-- A child in a shell. Markup stays as it is, and the shell of an attribute is an attribute. -/
def wrap : Node → Node
  | markup pieces => markup pieces
  | attr name parts => attr name [foreign "" "" [attr name parts]]
  | n => foreign "" "" [n]

mutual

/-- The nodes in the shells of a tree. -/
def wrapped : Node → List Node
  | document children => wrappedAll children
  | method _ children => wrappedAll children
  | markup _ => []
  | element _ children => wrappedAll children
  | attr _ parts => wrappedAll parts
  | text _ => []
  | foreign _ _ children => postorderAll children

/-- The nodes in the shells of a list of trees. -/
def wrappedAll : List Node → List Node
  | [] => []
  | n :: ns => n.wrapped ++ wrappedAll ns

end

theorem wrappedAll_eq_flatMap (ns : List Node) : wrappedAll ns = ns.flatMap wrapped := by
  induction ns with
  | nil => rfl
  | cons n ns ih => simp [wrappedAll, ih]

theorem wrapped_wrap {n : Node} (h : n.isMarkup = false) : n.wrap.wrapped = n.postorder := by
  cases n with
  | markup _ => cases h
  | _ => simp [wrap, wrapped, wrappedAll, postorderAll]

/-- The shells of a list of children hold the nodes of those that are not markup. -/
theorem flatMap_wrapped_wrap (children : List Node) :
    (children.map wrap).flatMap wrapped =
      (children.filter fun c => !c.isMarkup).flatMap postorder := by
  induction children with
  | nil => rfl
  | cons c cs ih =>
    rw [List.map_cons, List.flatMap_cons, ih, List.filter_cons]
    cases hc : c.isMarkup with
    | false => simp [wrapped_wrap hc]
    | true =>
      cases c <;> first | rfl | cases hc

end Node

open Node

/-! ### Building with shells -/

/-- What is in shells is conserved by building. -/
theorem conserved_wrapped : Conserved wrapped where
  text _ := rfl
  markup _ := rfl
  ofAttribute _ := rfl
  element _ children := wrappedAll_eq_flatMap children

/-- The nodes in the shells of one tree are among the nodes of another, in the same order. -/
def HoldsWrapped (m n : Node) : Prop := n.wrapped.Sublist m.postorder

theorem flatMap_wrapped_sublist {ms ns : List Node} (h : List.Forall₂ HoldsWrapped ms ns) :
    (ns.flatMap wrapped).Sublist (ms.flatMap postorder) := by
  induction h with
  | nil => exact .slnil
  | cons hn _ ih =>
    rw [List.flatMap_cons, List.flatMap_cons]
    exact hn.append ih

/-- Holding what is in shells is kept by building. -/
theorem keeps_holdsWrapped : Builder.Keeps HoldsWrapped fun _ _ => True where
  text _ := List.nil_sublist _
  ofAttribute _ := List.nil_sublist _
  element name ms ns h := by
    rw [HoldsWrapped, conserved_wrapped.element, postorder_of_children? rfl]
    exact (flatMap_wrapped_sublist h).trans (List.sublist_append_left _ _)
  countRun _ := trivial
  countToken _ := trivial
  countDropped _ := trivial
  countElement _ _ := trivial

/-- A replay treats a child and the same child in a shell alike. -/
theorem corresponds_wrap (n : Node) : Corresponds HoldsWrapped n n.wrap := by
  have holds (h : n.isMarkup = false) : HoldsWrapped n n.wrap := by
    rw [HoldsWrapped, wrapped_wrap h]
  cases n with
  | markup _ => exact .markup rfl
  | attr _ _ => exact .attr (holds rfl)
  | _ => exact .carried (holds rfl) rfl rfl rfl rfl

/-- The nodes of the children that are not markup are among the nodes of what is built, in the same
order. -/
theorem carried_sublist_of_build (hb : build rules stats children = .ok built) :
    ((children.filter fun c => !c.isMarkup).flatMap postorder).Sublist
      (built.children.flatMap postorder) := by
  have alike : List.Forall₂ (Corresponds HoldsWrapped) children (children.map wrap) :=
    List.forall₂_map_right_iff.2 (List.forall₂_same.2 fun c _ => corresponds_wrap c)
  have replays := parallel_build keeps_holdsWrapped rules (s := stats) (u := {}) trivial alike
  obtain ⟨shells, hs, holds, -⟩ := replays.exists_of_ok_left hb
  have inside := conserved_wrapped.build hs
  rw [flatMap_wrapped_wrap] at inside
  rw [← inside]
  exact flatMap_wrapped_sublist holds

end MarkupTree
