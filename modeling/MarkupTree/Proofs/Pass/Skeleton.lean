import MarkupTree.Proofs.Pass.Settling
import MarkupTree.Proofs.Replay.Conservation

/-!
# The skeleton of a tree

Of the nodes of a tree, markup, texts, elements and attributes are what markup can say. The others,
the document, its methods and the foreign nodes, come from elsewhere and are only carried into
place. With the names they have and the way they stand in each other, they make up the *skeleton*
of the tree. A pass that succeeds keeps the skeleton (`skeleton_restructure`), although it puts
these nodes into elements at any depth.

The skeleton of a list of trees is read off them one by one, and markup adds nothing to it, so a
replay conserves it. A tree keeps its skeleton because its children do, before and after they are
rebuilt.

## Main definitions

* `Skeleton` : a node of a skeleton, with its fields and the skeleton inside it.
* `Node.skeleton` : the skeleton of a tree, a forest.

## Main results

* `conserved_skeleton` : the skeleton is conserved by building.
* `skeleton_restructure` : the pass keeps the skeleton.
-/

namespace MarkupTree

/-- A node of a skeleton: one that markup cannot stand for, with the skeleton inside it. -/
inductive Skeleton
  | document (inside : List Skeleton)
  | method (name : String) (inside : List Skeleton)
  | foreign (label payload : String) (inside : List Skeleton)

namespace Node

mutual

/-- The skeleton of a tree. Elements and attributes are left out, and what is inside them stands in
their place. -/
def skeleton : Node → List Skeleton
  | document children => [.document (skeletonAll children)]
  | method name children => [.method name (skeletonAll children)]
  | markup _ => []
  | element _ children => skeletonAll children
  | attr _ parts => skeletonAll parts
  | text _ => []
  | foreign label payload children => [.foreign label payload (skeletonAll children)]

/-- The skeleton of a list of trees. -/
def skeletonAll : List Node → List Skeleton
  | [] => []
  | n :: ns => n.skeleton ++ skeletonAll ns

end

example :
    skeleton (.method "show"
      [.markup ["<p>"], .element "b" [.foreign "expr" "x" [], .attr "id" [.foreign "expr" "y" []]],
        .foreign "branch" "c" [.text "t", .foreign "expr" "z" []]]) =
      [.method "show"
        [.foreign "expr" "x" [], .foreign "expr" "y" [],
          .foreign "branch" "c" [.foreign "expr" "z" []]]] := rfl

theorem skeletonAll_eq_flatMap (ns : List Node) : skeletonAll ns = ns.flatMap skeleton := by
  induction ns with
  | nil => rfl
  | cons n ns ih => rw [skeletonAll, ih, List.flatMap_cons]

/-- The skeleton of a node depends on its children only through their skeletons. -/
theorem skeleton_withChildren {n : Node} {children others : List Node}
    (hn : n.children? = some children) (h : skeletonAll others = skeletonAll children) :
    (n.withChildren others).skeleton = n.skeleton := by
  cases n with
  | markup _ | text _ => cases hn
  | _ =>
    cases hn
    simp only [withChildren, skeleton, h]

end Node

/-- Markup adds nothing to a skeleton. -/
theorem conserved_skeleton : Conserved Node.skeleton where
  text _ := rfl
  markup _ := rfl
  ofAttribute _ := rfl
  element _ children := Node.skeletonAll_eq_flatMap children

variable {policy : Policy} {n r : Node} {children settled : List Node}

theorem skeletonAll_build {rules : TextRules} {stats : Stats} {built : Built}
    (hb : build rules stats children = .ok built) :
    Node.skeletonAll built.children = Node.skeletonAll children := by
  rw [Node.skeletonAll_eq_flatMap, Node.skeletonAll_eq_flatMap]
  exact conserved_skeleton.build hb

theorem skeletonAll_of_settles (hs : List.Forall₂ (Settles policy) children settled)
    (h : ∀ c ∈ children, ∀ d, Settles policy c d → d.skeleton = c.skeleton) :
    Node.skeletonAll settled = Node.skeletonAll children := by
  induction hs with
  | nil => rfl
  | cons hc _ ih =>
    obtain ⟨first, others⟩ := List.forall_mem_cons.1 h
    rw [Node.skeletonAll, first _ hc, ih others, Node.skeletonAll]

/-- Rebuilding its children keeps the skeleton of a node. -/
theorem Regrows.skeleton (hn : n.children? = some children) (h : Regrows policy n settled r)
    (hs : Node.skeletonAll settled = Node.skeletonAll children) : r.skeleton = n.skeleton := by
  rw [Regrows] at h
  split at h
  · obtain ⟨built, hb, rfl⟩ := h
    exact Node.skeleton_withChildren hn ((skeletonAll_build hb).trans hs)
  · subst h
    exact Node.skeleton_withChildren hn hs

/-- A tree has the skeleton of what it settles to. -/
theorem Settles.skeleton (h : Settles policy n r) : r.skeleton = n.skeleton := by
  induction n using Node.induction generalizing r with
  | step n ih =>
    cases hn : n.children? with
    | none => rw [h.unique (settles_of_none hn)]
    | some children =>
      obtain ⟨settled, hs, hg⟩ := (settles_iff hn).1 h
      have inside : ∀ c ∈ children, ∀ d, Settles policy c d → d.skeleton = c.skeleton :=
        fun c hc d hd => ih children hn c hc hd
      exact hg.skeleton hn (skeletonAll_of_settles hs inside)

/-- If the pass over a tree succeeds, the tree that it leaves has the same skeleton: no document,
method or foreign node is lost or comes twice, none changes its fields or its order among the
others, and none moves into or out of another. -/
theorem skeleton_restructure {tree : Node} (h : (restructure policy tree).failure = none) :
    (restructure policy tree).result.skeleton = tree.skeleton := by
  have settles : Settles policy tree (restructure policy tree).result := ⟨h, rfl⟩
  exact settles.skeleton

/-- Foreign nodes in a list, in a start tag and in a branch, with markup around and inside them. -/
def foreignInList : Node :=
  .document
    [.markup ["<ul "], .attr "class" [.foreign "expr" "k" [.markup ["<br>"]]], .markup ["><li>"],
      .foreign "branch" "c" [.markup ["<b>"], .foreign "expr" "x" [], .markup ["</b>"]],
      .foreign "expr" "y" [], .markup ["</li></ul>"]]

theorem skeleton_restructure_foreignInList :
    (restructure {} foreignInList).result.skeleton =
      [.document
        [.foreign "expr" "k" [], .foreign "branch" "c" [.foreign "expr" "x" []],
          .foreign "expr" "y" []]] :=
  @skeleton_restructure {} foreignInList (by decide +kernel)

end MarkupTree
