import MarkupTree.Tree.Pass

/-!
# Editing sessions

A session holds a tree that is worked on step by step, at any place in it. A place is given by the
numbers of the children that lead to it from the root.

## Main definitions

* `Node.at?`, `Node.replace` : the node at a place, and a tree with another node there.
* `Session` : a tree under work, with the counts that its rebuilding steps share.
* `Session.run`, `Session.rebuild`, `Session.append` : the steps that change the tree.

## Main results

* `Node.at?_replace` : a node that was put in some place is found there.
* `Node.replace_self` : putting back the node that is in a place changes nothing.
-/

namespace MarkupTree

namespace Node

/-- The node at a place, if there is one. -/
def at? : (tree : Node) → (place : List Nat) → Option Node
  | n, [] => some n
  | n, i :: place => do
    let children ← n.children?
    let child ← children[i]?
    child.at? place

/-- A tree with another node at a place. Where there is no such place, nothing is changed. -/
def replace : (tree : Node) → (place : List Nat) → (new : Node) → Node
  | _, [], new => new
  | n, i :: place, new =>
    match n.children? with
    | none => n
    | some children => n.withChildren (children.modify i fun child => child.replace place new)

/-- A node that was put in some place is found there. -/
theorem at?_replace {tree old new : Node} {place : List Nat} (h : tree.at? place = some old) :
    (tree.replace place new).at? place = some new := by
  induction place generalizing tree with
  | nil => rfl
  | cons i place ih =>
    simp only [at?, Option.bind_eq_bind, Option.bind_eq_some_iff] at h
    obtain ⟨children, hc, child, hi, h⟩ := h
    simp [at?, replace, hc, children?_withChildren hc, List.getElem?_modify_eq, hi, ih h]

/-- Putting back the node that is in a place changes nothing. -/
theorem replace_self {tree old : Node} {place : List Nat} (h : tree.at? place = some old) :
    tree.replace place old = tree := by
  induction place generalizing tree with
  | nil => exact (Option.some.inj h).symm
  | cons i place ih =>
    simp only [at?, Option.bind_eq_bind, Option.bind_eq_some_iff] at h
    obtain ⟨children, hc, child, hi, h⟩ := h
    have same : children.modify i (fun c => c.replace place old) = children := by
      refine List.ext_getElem? fun j => ?_
      rw [List.getElem?_modify]
      by_cases hj : i = j
      · subst hj
        simp [hi, ih h]
      · simp [hj]
    simp [replace, hc, same, withChildren_of_children? hc]

end Node

/-- A tree under work. -/
structure Session where
  tree : Node
  /-- The counts of all rebuilding steps so far. -/
  stats : Stats := {}
deriving DecidableEq

namespace Session

/-- Puts another node at a place. -/
def put (place : List Nat) (node : Node) (session : Session) : Session :=
  { session with tree := session.tree.replace place node }

/-- Gives structure to all markup under `node`, which stands at `place`. Counts afresh. -/
def run (policy : Policy) (place : List Nat) (node : Node) (session : Session) :
    Outcome Session :=
  let done := restructure policy node
  { done with result := session.put place done.result }

/-- Rebuilds the children of `node`, which stands at `place`. Goes on with the shared counts. -/
def rebuild (policy : Policy) (place : List Nat) (node : Node) (session : Session) :
    Outcome Session :=
  let done := node.rebuild policy { stats := session.stats }
  { done with
    result := { session.put place done.result with stats := done.progress.stats } }

/-- Appends a child to `node`, which stands at `place`, and says how many there are then. A node
of a kind without children takes none. -/
def append (child : Node) (place : List Nat) (node : Node) (session : Session) :
    Option (Nat × Session) :=
  node.children?.map fun children =>
    (children.length + 1, session.put place (node.withChildren (children ++ [child])))

end Session

end MarkupTree
