import MarkupTree.Markup.Lexeme
import MarkupTree.Text.White
import MarkupTree.Tree.Failure
import MarkupTree.Tree.Policy
import MarkupTree.Tree.Stats

/-!
# Building structure

A list of children, some of them markup, is replayed from left to right against the row of
elements that are open. Every open element owns what was put into it so far; when it ends, it is
put into the next one out. A markup node may end inside a start tag: the nodes that follow go into
the element that the tag opens, and the next markup node goes on inside the tag.

## Main definitions

* `Frame`, `Builder` : an open element, and the state of the replay.
* `Builder.receive` : one token.
* `Builder.addRun` : one markup node.
* `Builder.addChild` : one child of any kind.
* `build` : the whole list of children.
-/

namespace MarkupTree

/-- An open element and what was put into it so far, newest first. -/
structure Frame where
  name : String
  children : List Node

/-- The state of a replay. -/
structure Builder where
  /-- What was put right under the root so far, newest first. -/
  root : List Node := []
  /-- The open elements, the innermost first. -/
  frames : List Frame := []
  /-- The newest node where nodes are put now is a text of the present markup node. -/
  textTail : Bool := false
  /-- The start tag of the innermost element has not ended. -/
  tagPending : Bool := false
  stats : Stats := {}

/-- Why and with which counts a replay ended early. -/
structure Halt where
  failure : Failure
  stats : Stats

namespace Builder

/-! ### Putting nodes in place -/

/-- Puts a node into the innermost open element, or right under the root. -/
def push (node : Node) (b : Builder) : Builder :=
  match b.frames with
  | [] => { b with root := node :: b.root, textTail := false }
  | f :: fs =>
    { b with frames := { f with children := node :: f.children } :: fs, textTail := false }

/-- Puts nodes in place, the first first. -/
def pushAll (nodes : List Node) (b : Builder) : Builder := nodes.foldl (fun b n => b.push n) b

/-- A row of nodes, newest first, with more text at the end of its newest text. -/
def extendText (more : String) : List Node → List Node
  | .text t :: ns => .text (t ++ more) :: ns
  | ns => .text more :: ns

/-- Adds text to the newest node, a text. -/
def extendTail (more : String) (b : Builder) : Builder :=
  match b.frames with
  | [] => { b with root := extendText more b.root }
  | f :: fs => { b with frames := { f with children := extendText more f.children } :: fs }

/-- Whether a text consists of white space. -/
def isWhiteText (text : String) : Bool := text.toList.all White.isWhite

/-- Puts a text of the present markup node in place, as the rules say. -/
def addText (rules : TextRules) (text : String) (b : Builder) : Builder :=
  if b.frames.isEmpty && rules.elides && isWhiteText text then
    { b with stats := b.stats.countDropped }
  else if rules.coalesces && b.textTail then b.extendTail text
  else { b.push (.text text) with textTail := true }

/-! ### Elements -/

/-- Ends the innermost open element and puts it into the next one out. -/
def closeInnermost (b : Builder) : Builder :=
  match b.frames with
  | [] => b
  | f :: fs => { b with frames := fs }.push (.element f.name f.children.reverse)

/-- Ends the innermost element if it is void and its start tag has ended. A tag that closes itself
ends no other element. -/
def closeIfVoid (name : String) (ending : TagEnd) (b : Builder) : Builder :=
  if ending = .selfClosing ∧ isVoid name then b.closeInnermost else b

/-- Opens an element with the attributes of its start tag. -/
def openElement (name : String) (attributes : List Attribute) (ending : TagEnd) (b : Builder) :
    Builder :=
  let opened : Builder :=
    { b with
      frames := ⟨name, (attributes.map Node.ofAttribute).reverse⟩ :: b.frames
      textTail := false
      tagPending := ending == .cutOff
      stats := b.stats.countElement (b.frames.length + 2) }
  opened.closeIfVoid name ending

/-- Goes on with the start tag of the innermost element. -/
def continueTag (name : String) (attributes : List Attribute) (ending : TagEnd) (b : Builder) :
    Builder :=
  let continued : Builder :=
    { b.pushAll (attributes.map Node.ofAttribute) with tagPending := ending == .cutOff }
  continued.closeIfVoid name ending

/-- Ends the innermost element by an end tag, which has to be its own. -/
def closeElement (found : String) (b : Builder) : Except Halt Builder :=
  match b.frames with
  | [] => .error ⟨.unbalancedClose none found, b.stats⟩
  | f :: _ =>
    if f.name = found then .ok b.closeInnermost
    else .error ⟨.unbalancedClose (some f.name) found, b.stats⟩

/-! ### Tokens and children -/

/-- One more token read. -/
def countToken (b : Builder) : Builder := { b with stats := b.stats.countToken }

/-- Takes one token. -/
def receive (rules : TextRules) (b : Builder) (token : Token) : Except Halt Builder :=
  let b := b.countToken
  match token with
  | .text text => .ok (b.addText rules text)
  | .startTag name attributes ending => .ok (b.openElement name attributes ending)
  | .endTag name => b.closeElement name
  | .doctype text => .error ⟨.unsupportedDoctype text, b.stats⟩
  | .comment _ => .ok b
  | .endOfInput => .ok b

/-- Takes the first token of a markup node that goes on inside a start tag. -/
def receiveContinued (rules : TextRules) (b : Builder) (token : Token) : Except Halt Builder :=
  match token with
  | .startTag name attributes ending => .ok (b.countToken.continueTag name attributes ending)
  | token => b.receive rules token

/-- Takes a row of tokens. -/
def receiveAll (rules : TextRules) (b : Builder) (tokens : List Token) : Except Halt Builder :=
  tokens.foldlM (receive rules) b

/-- Takes the tokens of a markup node, whose first goes on with a start tag if `pending` says so. -/
def receiveRun (rules : TextRules) (b : Builder) : (pending : Option String) → (text : String) →
    Except Halt Builder
  | none, text => b.receiveAll rules (tokens text)
  | some name, text =>
    match tagRestTokens name text with
    | [] => .ok b
    | first :: others => do (← b.receiveContinued rules first).receiveAll rules others

/-- The name of the element whose start tag has not ended. -/
def pendingName? (b : Builder) : Option String :=
  if b.tagPending then b.frames.head?.map Frame.name else none

/-- Takes the text of a markup node. -/
def addRun (rules : TextRules) (b : Builder) (text : String) : Except Halt Builder := do
  let begun : Builder := { b with tagPending := false, stats := b.stats.countRun }
  let ended ← begun.receiveRun rules b.pendingName? text
  return { ended with textTail := false }

/-- Takes one child. -/
def addChild (rules : TextRules) (b : Builder) : Node → Except Halt Builder
  | .markup pieces => b.addRun rules (String.join pieces)
  | .attr name parts =>
    if b.frames.isEmpty then .error ⟨.attributeOutsideElement name, b.stats⟩
    else .ok (b.push (.attr name parts))
  | node => .ok (b.push node)

/-- The names of the open elements, the outermost first. -/
def openNames (b : Builder) : List String := (b.frames.map Frame.name).reverse

/-- Ends the replay, with no element open. -/
def finish (b : Builder) : Except Halt Builder :=
  if b.frames.isEmpty then .ok b else .error ⟨.unbalancedTree b.openNames, b.stats⟩

end Builder

/-- The children that a replay built, and its counts. -/
structure Built where
  children : List Node
  stats : Stats

/-- Gives structure to a list of children, going on with the counts `stats`. -/
def build (rules : TextRules) (stats : Stats) (children : List Node) : Except Halt Built := do
  let started : Builder := { stats }
  let ended ← children.foldlM (Builder.addChild rules) started
  let finished ← ended.finish
  return ⟨finished.root.reverse, finished.stats⟩

end MarkupTree
