import MarkupTree.Text.Quoted

/-!
# Failures

Why markup cannot be given structure. A failure is final: what was being built is given up.

## Main definitions

* `Failure` : the causes.
* `Failure.label`, `Failure.message`, `Failure.detail` : a cause in words.
-/

namespace MarkupTree

/-- Why markup has no structure. -/
inductive Failure
  /-- An end tag that does not belong to the innermost open element, or with none open. -/
  | unbalancedClose (expected : Option String) (found : String)
  /-- An attribute node where no element is open. -/
  | attributeOutsideElement (name : String)
  /-- Elements still open at the end, the outermost first. -/
  | unbalancedTree (names : List String)
  /-- A document type declaration. -/
  | unsupportedDoctype (text : String)
deriving DecidableEq

namespace Failure

/-- A short fixed name for the kind of a failure. -/
def label : Failure → String
  | unbalancedClose .. => "unbalanced_close"
  | attributeOutsideElement _ => "attribute_outside_element"
  | unbalancedTree _ => "unbalanced_tree"
  | unsupportedDoctype _ => "unsupported_token"

/-- What is open, as a message says it. -/
def openLabel : Option String → String
  | some name => "open element <" ++ name ++ ">"
  | none => "any open element"

/-- A failure as a message. -/
def message : Failure → String
  | unbalancedClose expected found =>
    "end tag </" ++ found ++ "> does not close " ++ openLabel expected
  | attributeOutsideElement name => "attribute `" ++ name ++ "` appears outside of an element"
  | unbalancedTree names =>
    "unclosed element(s) at end of content: " ++ ", ".intercalate names
  | unsupportedDoctype _ => "unsupported doctype token in markup"

/-- What the journal says of a failure where it arises. -/
def detail : Failure → String
  | unbalancedClose expected found =>
    "end tag </" ++ found ++ "> with innermost open element " ++ Text.quotedOption expected
  | attributeOutsideElement name => "attribute `" ++ name ++ "` outside element"
  | unbalancedTree names => "unbalanced tree, still open: " ++ Text.quotedList names
  | unsupportedDoctype text => "unsupported token Doctype(" ++ Text.quoted text ++ ")"

end Failure

end MarkupTree
