import MarkupTree.Markup.Token

/-!
# Template trees

A template is a tree of nodes. Some of its nodes hold markup that has no structure yet; the others
are the structure: elements with their attributes and texts, the document and its methods, and
foreign nodes, which stand for whatever else a template has and are carried along.

## Main definitions

* `Node` : a tree.
* `Node.children?`, `Node.withChildren` : the children of a node, read and replaced.
* `Node.containsMarkup` : whether any part of a tree is still markup without structure.
* `Node.ofAttribute` : the node of an attribute of a start tag.
-/

namespace MarkupTree

/-- A template tree. The parts of an attribute's value count as its children. The text of a markup
node is in pieces, which belong together without a gap. -/
inductive Node
  | document (children : List Node)
  | method (name : String) (children : List Node)
  | markup (pieces : List String)
  | element (name : String) (children : List Node)
  | attr (name : String) (parts : List Node)
  | text (text : String)
  | foreign (label payload : String) (children : List Node)

namespace Node

/-- Whether a node is markup without structure. -/
def isMarkup : Node → Bool
  | markup _ => true
  | _ => false

/-- Whether a node is an element. -/
def isElement : Node → Bool
  | element .. => true
  | _ => false

/-- Whether a node is a method. -/
def isMethod : Node → Bool
  | method .. => true
  | _ => false

/-- The children of a node of a kind that has them. -/
def children? : Node → Option (List Node)
  | document children => some children
  | method _ children => some children
  | element _ children => some children
  | attr _ parts => some parts
  | foreign _ _ children => some children
  | markup _ => none
  | text _ => none

/-- A node with other children, if it is of a kind that has any. -/
def withChildren (children : List Node) : Node → Node
  | document _ => document children
  | method name _ => method name children
  | element name _ => element name children
  | attr name _ => attr name children
  | foreign label payload _ => foreign label payload children
  | markup pieces => markup pieces
  | text t => text t

/-- The text of a markup node. -/
def markupText? : Node → Option String
  | markup pieces => some (String.join pieces)
  | _ => none

/-- The node of an attribute: its value is one text, empty if it was written without one. -/
def ofAttribute (a : Attribute) : Node := attr a.name [text (a.value.getD "")]

/-! ### Whole trees -/

mutual

/-- Whether a node, or anything below it, is markup without structure. -/
def containsMarkup : Node → Bool
  | document children => anyContainsMarkup children
  | method _ children => anyContainsMarkup children
  | markup _ => true
  | element _ children => anyContainsMarkup children
  | attr _ parts => anyContainsMarkup parts
  | text _ => false
  | foreign _ _ children => anyContainsMarkup children

/-- Whether any of a list of trees contains markup without structure. -/
def anyContainsMarkup : List Node → Bool
  | [] => false
  | n :: ns => n.containsMarkup || anyContainsMarkup ns

end

mutual

/-- Equality of trees, as a test. -/
def same : Node → Node → Bool
  | document cs, document ds => sameAll cs ds
  | method m cs, method n ds => m == n && sameAll cs ds
  | markup p, markup q => p == q
  | element m cs, element n ds => m == n && sameAll cs ds
  | attr m cs, attr n ds => m == n && sameAll cs ds
  | text s, text t => s == t
  | foreign l p cs, foreign k q ds => l == k && p == q && sameAll cs ds
  | _, _ => false

/-- Equality of lists of trees, as a test. -/
def sameAll : List Node → List Node → Bool
  | [], [] => true
  | m :: ms, n :: ns => same m n && sameAll ms ns
  | _, _ => false

end

mutual

theorem same_iff : (m n : Node) → (same m n ↔ m = n)
  | document cs, n => by cases n <;> simp [same, sameAll_iff cs]
  | method _ cs, n => by cases n <;> simp [same, sameAll_iff cs]
  | markup _, n => by cases n <;> simp [same]
  | element _ cs, n => by cases n <;> simp [same, sameAll_iff cs]
  | attr _ cs, n => by cases n <;> simp [same, sameAll_iff cs]
  | text _, n => by cases n <;> simp [same]
  | foreign _ _ cs, n => by cases n <;> simp [same, sameAll_iff cs, and_assoc]

theorem sameAll_iff : (ms ns : List Node) → (sameAll ms ns ↔ ms = ns)
  | [], ns => by cases ns <;> simp [sameAll]
  | m :: ms, ns => by cases ns <;> simp [sameAll, same_iff m, sameAll_iff ms]

end

instance : DecidableEq Node := fun m n => decidable_of_iff _ (same_iff m n)

/-! ### Laws -/

theorem children?_withChildren {n : Node} {old new : List Node} (h : n.children? = some old) :
    (n.withChildren new).children? = some new := by
  cases n <;> simp_all [children?, withChildren]

theorem withChildren_withChildren (n : Node) (old new : List Node) :
    (n.withChildren old).withChildren new = n.withChildren new := by
  cases n <;> rfl

theorem withChildren_of_children? {n : Node} {children : List Node}
    (h : n.children? = some children) : n.withChildren children = n := by
  cases n <;> simp_all [children?, withChildren]

@[simp] theorem isMarkup_withChildren (n : Node) (new : List Node) :
    (n.withChildren new).isMarkup = n.isMarkup := by
  cases n <;> rfl

theorem anyContainsMarkup_eq_any (ns : List Node) :
    anyContainsMarkup ns = ns.any containsMarkup := by
  induction ns with
  | nil => rfl
  | cons n ns ih => simp [anyContainsMarkup, ih]

end Node

end MarkupTree
