import MarkupTree.Journal
import MarkupTree.Tree.Builder

/-!
# The pass over a tree

All markup of a tree gets structure from the leaves up: a node's children are finished before the
node's own list of children is rebuilt, and only nodes with a markup child are rebuilt. A failure
ends the pass. The tree is kept as it then stands: what was finished stays finished, the failing
node has no children, and what was not reached is as it was.

## Main definitions

* `Outcome` : a result, the counts and the journal, and the failure if there was one.
* `Node.rebuild` : rebuilds the children of one node.
* `visit`, `visitAll` : the pass over a tree, and over a list of trees.
* `restructure` : the pass over a whole tree, on its own.
-/

namespace MarkupTree

/-- The part of the library that tells of the pass. -/
def treeTopic : String := "template_ir.rewrite"

/-- A journal entry of the pass. -/
def treeEntry (message : String) : Entry := ⟨.debug, treeTopic, message⟩

/-- What has been counted and told so far. -/
structure Progress where
  stats : Stats := {}
  /-- Oldest first. -/
  journal : List Entry := []
deriving DecidableEq

/-- What was done, whether or not it could be completed. -/
structure Outcome (α : Type) where
  result : α
  progress : Progress
  failure : Option Failure

/-- Tells one thing more. -/
def Progress.tell (p : Progress) (message : String) : Progress :=
  { p with journal := p.journal ++ [treeEntry message] }

/-! ### One node -/

/-- Rebuilds the children of one node. If that fails, the node is left without children. -/
def Node.rebuild (policy : Policy) (p : Progress) (node : Node) : Outcome Node :=
  match node.children? with
  | none => ⟨node, p, none⟩
  | some children =>
    match build (policy.rules node) p.stats children with
    | .ok built => ⟨node.withChildren built.children, { p with stats := built.stats }, none⟩
    | .error halt =>
      { result := node.withChildren []
        progress := { p with stats := halt.stats }.tell halt.failure.detail
        failure := some halt.failure }

/-- What the journal calls a node. -/
def Node.journalName : Node → String
  | .document _ => "#document"
  | .method name _ => "#method " ++ name
  | .element name _ => "<" ++ name ++ ">"
  | .attr name _ => "@" ++ name
  | .foreign label _ _ => "\x7b" ++ label ++ "\x7d"
  | .markup _ => "#markup"
  | .text _ => "#text"

/-- Counts and tells that a node was rebuilt. -/
def Progress.rebuilt (p : Progress) (node : Node) : Progress :=
  { p with stats := p.stats.countRebuilt }.tell
    ("rebuilt " ++ toString (node.children?.getD []).length ++ " child(ren) of " ++
      node.journalName)

/-- Finishes a node whose children have been visited: rebuilds it if a child is markup. -/
def finishNode (policy : Policy) (make : List Node → Node) (visited : Outcome (List Node)) :
    Outcome Node :=
  match visited.failure with
  | some failure => ⟨make visited.result, visited.progress, some failure⟩
  | none =>
    if visited.result.any Node.isMarkup then
      let rebuilt := (make visited.result).rebuild policy visited.progress
      match rebuilt.failure with
      | some failure => { rebuilt with failure := some failure }
      | none => { rebuilt with progress := rebuilt.progress.rebuilt rebuilt.result }
    else ⟨make visited.result, visited.progress, none⟩

/-! ### Whole trees -/

/-- Counts a visit. -/
def Progress.visit (p : Progress) : Progress := { p with stats := p.stats.countVisit }

mutual

/-- Visits a tree, its leaves first. -/
def visit (policy : Policy) (p : Progress) : Node → Outcome Node
  | .document children => finishNode policy .document (visitAll policy p.visit children)
  | .method name children => finishNode policy (.method name) (visitAll policy p.visit children)
  | .element name children => finishNode policy (.element name) (visitAll policy p.visit children)
  | .attr name parts => finishNode policy (.attr name) (visitAll policy p.visit parts)
  | .foreign label payload children =>
    finishNode policy (.foreign label payload) (visitAll policy p.visit children)
  | .markup pieces => ⟨.markup pieces, p.visit, none⟩
  | .text text => ⟨.text text, p.visit, none⟩

/-- Visits trees from left to right, up to the first failure. -/
def visitAll (policy : Policy) (p : Progress) : List Node → Outcome (List Node)
  | [] => ⟨[], p, none⟩
  | n :: ns =>
    let first := visit policy p n
    match first.failure with
    | some failure => ⟨first.result :: ns, first.progress, some failure⟩
    | none =>
      let others := visitAll policy first.progress ns
      { others with result := first.result :: others.result }

end

/-- How a pass ended, for the journal. -/
def endOfPass (stats : Stats) : Option Failure → String
  | none =>
    "rewrite finished: " ++ toString stats.visited ++ " node(s) visited, " ++
      toString stats.rebuilt ++ " rebuilt, " ++ toString stats.elements ++ " element(s) built"
  | some failure => "rewrite failed: " ++ failure.message

/-- Gives structure to all markup of a tree. -/
def restructure (policy : Policy) (tree : Node) : Outcome Node :=
  let visited := visit policy {} tree
  { visited with
    progress := visited.progress.tell (endOfPass visited.progress.stats visited.failure) }

end MarkupTree
