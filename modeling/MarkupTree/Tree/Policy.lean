import MarkupTree.Tree.Node

/-!
# Policies

How texts are treated where markup is given structure. The structure itself does not depend on it.

## Main definitions

* `RootWhitespace`, `Policy` : the choices.
* `TextRules`, `Policy.rules` : what the choices mean under a given root.
-/

namespace MarkupTree

/-- What becomes of white space where no element is open: it is always dropped, or dropped only
right under a method, or kept as text. -/
inductive RootWhitespace
  | elide
  | methodScopeOnly
  | preserve
deriving DecidableEq

/-- How texts are treated. -/
structure Policy where
  rootWhitespace : RootWhitespace := .elide
  /-- Texts of one markup node that end up next to each other become one. -/
  coalesceText : Bool := false
deriving DecidableEq

/-- A policy applied to one root. -/
structure TextRules where
  /-- White space right under the root is dropped. -/
  elides : Bool
  /-- Neighbouring texts of one markup node become one. -/
  coalesces : Bool
deriving DecidableEq

/-- What a policy means for the children of `root`. -/
def Policy.rules (policy : Policy) (root : Node) : TextRules where
  elides := match policy.rootWhitespace with
    | .elide => true
    | .methodScopeOnly => root.isMethod
    | .preserve => false
  coalesces := policy.coalesceText

end MarkupTree
