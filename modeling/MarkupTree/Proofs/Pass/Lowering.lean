import MarkupTree.Proofs.Lexing.Spelling
import MarkupTree.Proofs.Replay.Correspondence

/-!
# Lowering structure to markup

A tree with structure can be *lowered*: its elements, texts and attributes are written as markup,
and what cannot be written is carried along. The markup before, between and after the carried nodes
becomes markup nodes. An attribute whose value is not a single text is carried too, from the middle
of its start tag, so one markup node ends inside the tag and the next one goes on with it.

A list of children is written from its end, so each piece is put before the text that follows it.
The text of a markup node is closed off where a carried node stands before it.

## Main definitions

* `Flat` : a list of children that is being written, from some place in it to its end.
* `Reach` : how far a lowering reaches.
* `spell`, `spellAll`, `spellAttributes` : the written form of a node, of a list of children, and
  of the attributes among them.
* `lower` : a whole tree with its children lowered.
* `fits` : the nodes whose written form gives them back.
* `isLowerable` : the trees for which this is so.
-/

namespace MarkupTree

/-! ### Lists of children that are being written -/

/-- What has been written of a list of children: the text at its start, in a markup node that may
still get more text before it, and the nodes after that. -/
structure Flat where
  head : List Char := []
  tail : List Node := []

namespace Flat

/-- Writes more text before the rest. -/
def write (s : List Char) (f : Flat) : Flat := { f with head := s ++ f.head }

/-- The finished list. There is no markup node without text. -/
def nodes (f : Flat) : List Node :=
  if f.head.isEmpty then f.tail else .markup [String.ofList f.head] :: f.tail

/-- Puts a node that is carried along before the rest. -/
def carry (n : Node) (f : Flat) : Flat := { tail := n :: f.nodes }

end Flat

/-! ### Lowering -/

/-- How far a lowering reaches below one list of children. -/
inductive Reach
  /-- Not below the list: foreign nodes are carried as they are. -/
  | here
  /-- The children of foreign nodes are lowered too. -/
  | below
  /-- So are those of foreign nodes that are part of an attribute's value. -/
  | everywhere
deriving DecidableEq

/-- The text that makes up the value of an attribute, if the value is a single text. -/
def literal? : (parts : List Node) → Option String
  | [.text text] => some text
  | _ => none

mutual

/-- Writes a node before the rest. Attributes are not written here, but with their start tag. -/
def spell (reach : Reach) : Node → (after : Flat) → Flat
  | .text text, after => after.write (escapeText text)
  | .element name children, after =>
    let content :=
      if isVoid name then after else spellAll reach children (after.write (spellEndTag name))
    (spellAttributes reach children (content.write ['>'])).write ('<' :: name.toList)
  | .foreign label payload children, after =>
    after.carry (.foreign label payload
      (if reach = .here then children else (spellAll reach children {}).nodes))
  | .attr _ _, after => after
  | n, after => after.carry n

/-- Writes a list of nodes before the rest. -/
def spellAll (reach : Reach) : List Node → (after : Flat) → Flat
  | [], after => after
  | n :: ns, after => spell reach n (spellAll reach ns after)

/-- Writes a node before the rest of a start tag, if it is an attribute. -/
def spellInTag (reach : Reach) : Node → (after : Flat) → Flat
  | .attr name parts, after =>
    match literal? parts with
    | some value => after.write (spellAttribute name value)
    | none => after.carry (.attr name (lowerParts reach parts))
  | _, after => after

/-- Writes the attributes among some nodes before the rest of a start tag. -/
def spellAttributes (reach : Reach) : List Node → (after : Flat) → Flat
  | [], after => after
  | n :: ns, after => spellInTag reach n (spellAttributes reach ns after)

/-- A part of an attribute's value that is carried along. -/
def lowerPart (reach : Reach) : Node → Node
  | .foreign label payload children =>
    .foreign label payload
      (if reach = .everywhere then (spellAll reach children {}).nodes else children)
  | n => n

/-- The value of an attribute that is carried along. -/
def lowerParts (reach : Reach) : List Node → List Node
  | [] => []
  | n :: ns => lowerPart reach n :: lowerParts reach ns

end

/-- A list of children as markup and carried nodes. -/
def flatten (reach : Reach) (children : List Node) : List Node :=
  (spellAll reach children {}).nodes

/-- A document, method or foreign node with its children lowered. -/
def lower (reach : Reach) : Node → Node
  | .document children => .document (flatten reach children)
  | .method name children => .method name (flatten reach children)
  | .foreign label payload children => .foreign label payload (flatten reach children)
  | n => n

example :
    lower .below (.document
      [.element "p" [.attr "id" [.foreign "expr" "i" []], .attr "class" [.text "a"], .text "<"],
        .foreign "branch" "c" [.element "br" []]]) =
      .document
        [.markup ["<p"], .attr "id" [.foreign "expr" "i" []], .markup [" class=\"a\">&lt;</p>"],
          .foreign "branch" "c" [.markup ["<br>"]]] := by
  rfl

/-! ### What can be lowered -/

/-- Whether a node is a text. -/
def Node.isText : Node → Bool
  | .text _ => true
  | _ => false

/-- Whether a list of nodes starts with a text. -/
def startsWithText : List Node → Bool
  | n :: _ => n.isText
  | [] => false

/-- Whether no text stands next to another: their written forms would run together. -/
def textsApart : List Node → Bool
  | [] => true
  | n :: ns => !(n.isText && startsWithText ns) && textsApart ns

/-- Whether the rules drop a node right under the root. -/
def TextRules.drops (rules : TextRules) : Node → Bool
  | .text text => rules.elides && Builder.isWhiteText text
  | _ => false

/-- Whether some nodes can stand where no element is open. -/
def standUnder (rules : TextRules) (children : List Node) : Bool :=
  textsApart children && children.all fun n => !n.isAttr && !rules.drops n

/-- Whether some nodes can stand in the element `name`: first attributes and then content, which a
void element has none of. -/
def standInside (name : String) (children : List Node) : Bool :=
  textsApart children && (children.dropWhile Node.isAttr).all (fun n => !n.isAttr) &&
    (!isVoid name || children.all Node.isAttr)

mutual

/-- Whether a node, and all below it, can be lowered so that its written form gives it back. -/
def fits (policy : Policy) (reach : Reach) : Node → Bool
  | .text text => text != ""
  | .element name children =>
    isElementName name && standInside name children && allFit policy reach children
  | .attr name parts =>
    if (literal? parts).isSome then isAttributeName name else allFitInValue policy reach parts
  | .foreign label payload children =>
    standUnder (policy.rules (.foreign label payload children)) children &&
      allFit policy reach children
  | _ => false

/-- Whether all nodes of a list, and all below them, can be lowered. -/
def allFit (policy : Policy) (reach : Reach) : List Node → Bool
  | [] => true
  | n :: ns => fits policy reach n && allFit policy reach ns

/-- Whether a part of an attribute's value can be carried along. It has no markup in it, and if the
lowering reaches into it, it can be lowered. -/
def fitsInValue (policy : Policy) (reach : Reach) : Node → Bool
  | .foreign label payload children =>
    if reach = .everywhere then
      standUnder (policy.rules (.foreign label payload children)) children &&
        allFit policy reach children
    else !Node.anyContainsMarkup children
  | n => !n.containsMarkup

/-- Whether all parts of an attribute's value can be carried along. -/
def allFitInValue (policy : Policy) (reach : Reach) : List Node → Bool
  | [] => true
  | n :: ns => fitsInValue policy reach n && allFitInValue policy reach ns

end

/-- Whether a tree can be lowered so that the pass gives it back: a document, a method or a foreign
node, below which there are only texts, elements with their attributes, and foreign nodes. -/
def isLowerable (policy : Policy) (reach : Reach) (tree : Node) : Bool :=
  match tree with
  | .document children | .method _ children | .foreign _ _ children =>
    standUnder (policy.rules tree) children && allFit policy reach children
  | _ => false

end MarkupTree
