import MarkupTree.Proofs.Replay.Parallel

/-!
# What a replay conserves

A replay puts every child that is not markup into one place and never moves it to before or after
another. So whatever is read off nodes, as a list, is the same of the children and of what they are
built into, as long as texts, markup and the attributes of start tags give nothing to read and an
element gives what its children give (`Conserved.build`).

The state of a replay has all its nodes in document order: right under the root, and then in each
open element, the outermost first (`Builder.placed`). Putting a node in place adds it at the end,
and ending an element only puts a row of nodes into one, so each step adds what its child gives.

## Main definitions

* `Conserved` : readings of nodes to which markup adds nothing.
* `Builder.placed` : the nodes of a replay in document order.

## Main results

* `Conserved.receive`, `Conserved.addRun` : a token and a markup node add nothing.
* `Conserved.addChild` : a child adds what is read off it.
* `Conserved.build` : a list of children and what it is built into give the same.
-/

namespace MarkupTree

variable {α : Type} {read : Node → List α} {b c : Builder} {rules : TextRules}

/-- A reading of nodes to which markup adds nothing: not its texts, not the attributes of its start
tags, and of its elements only what is inside them. -/
structure Conserved (read : Node → List α) : Prop where
  text : ∀ t, read (.text t) = []
  markup : ∀ pieces, read (.markup pieces) = []
  ofAttribute : ∀ a, read (.ofAttribute a) = []
  element : ∀ name children, read (.element name children) = children.flatMap read

namespace Builder

/-! ### Nodes in document order -/

/-- The nodes that were put in place, in document order. -/
def placed (b : Builder) : List Node := (b.frames.flatMap Frame.children ++ b.root).reverse

theorem placed_push (node : Node) (b : Builder) : (b.push node).placed = b.placed ++ [node] := by
  rw [push]
  split
  · next h => simp [placed, h]
  · next f fs h => simp [placed, h]

theorem placed_pushAll (nodes : List Node) (b : Builder) :
    (b.pushAll nodes).placed = b.placed ++ nodes := by
  induction nodes generalizing b with
  | nil => exact (List.append_nil _).symm
  | cons n ns ih =>
    have later := ih (b.push n)
    rw [placed_push, List.append_assoc] at later
    exact later

end Builder

namespace Conserved

/-! ### Steps that add nothing -/

theorem extendText (h : Conserved read) (more : String) (nodes : List Node) :
    (Builder.extendText more nodes).reverse.flatMap read = nodes.reverse.flatMap read := by
  unfold Builder.extendText
  split <;> simp [h.text]

theorem extendTail (h : Conserved read) (more : String) (b : Builder) :
    (b.extendTail more).placed.flatMap read = b.placed.flatMap read := by
  rw [Builder.extendTail]
  split
  · next hf => simp [Builder.placed, hf, h.extendText more b.root]
  · next f fs hf => simp [Builder.placed, hf, h.extendText more f.children]

theorem addText (h : Conserved read) (text : String) (b : Builder) :
    (b.addText rules text).placed.flatMap read = b.placed.flatMap read := by
  rw [Builder.addText]
  split
  · rfl
  · split
    · exact h.extendTail text b
    · have pushed := congrArg (List.flatMap read) (Builder.placed_push (.text text) b)
      rw [List.flatMap_append, List.flatMap_singleton, h.text, List.append_nil] at pushed
      exact pushed

/-- Ending an element puts a row of nodes into one, which gives what they gave. -/
theorem closeInnermost (h : Conserved read) (b : Builder) :
    b.closeInnermost.placed.flatMap read = b.placed.flatMap read := by
  rw [Builder.closeInnermost]
  split
  · rfl
  · next f fs hf =>
    rw [Builder.placed_push, List.flatMap_append, List.flatMap_singleton, h.element]
    simp [Builder.placed, hf]

theorem closeIfVoid (h : Conserved read) (name : String) (ending : TagEnd) (b : Builder) :
    (b.closeIfVoid name ending).placed.flatMap read = b.placed.flatMap read := by
  rw [Builder.closeIfVoid]
  split
  · exact h.closeInnermost b
  · rfl

theorem attributes (h : Conserved read) (attributes : List Attribute) :
    (attributes.map Node.ofAttribute).flatMap read = [] := by
  rw [List.flatMap_map, List.flatMap_eq_nil_iff]
  exact fun a _ => h.ofAttribute a

theorem openElement (h : Conserved read) (name : String) (attributes : List Attribute)
    (ending : TagEnd) (b : Builder) :
    (b.openElement name attributes ending).placed.flatMap read = b.placed.flatMap read := by
  rw [Builder.openElement, h.closeIfVoid]
  simp [Builder.placed, h.attributes attributes]

theorem continueTag (h : Conserved read) (name : String) (attributes : List Attribute)
    (ending : TagEnd) (b : Builder) :
    (b.continueTag name attributes ending).placed.flatMap read = b.placed.flatMap read := by
  have pushed := congrArg (List.flatMap read)
    (Builder.placed_pushAll (attributes.map Node.ofAttribute) b)
  rw [List.flatMap_append, h.attributes, List.append_nil] at pushed
  rw [Builder.continueTag, h.closeIfVoid]
  exact pushed

/-! ### Tokens and children -/

/-- A token adds nothing. -/
theorem receive (h : Conserved read) {token : Token} (hr : b.receive rules token = .ok c) :
    c.placed.flatMap read = b.placed.flatMap read := by
  cases token with
  | doctype text => cases hr
  | startTag name attributes ending =>
    cases hr
    exact h.openElement name attributes ending b.countToken
  | endTag name =>
    simp only [Builder.receive, Builder.closeElement] at hr
    split at hr
    · cases hr
    · split at hr
      · cases hr
        exact h.closeInnermost b.countToken
      · cases hr
  | text text =>
    cases hr
    exact h.addText text b.countToken
  | comment text | endOfInput =>
    cases hr
    rfl

theorem receiveAll (h : Conserved read) {tokens : List Token}
    (hr : b.receiveAll rules tokens = .ok c) :
    c.placed.flatMap read = b.placed.flatMap read := by
  induction tokens generalizing b with
  | nil =>
    cases hr
    rfl
  | cons token others ih =>
    obtain ⟨d, hd, hr⟩ := bind_eq_ok_iff.1 hr
    exact (ih hr).trans (h.receive hd)

theorem receiveContinued (h : Conserved read) {token : Token}
    (hr : b.receiveContinued rules token = .ok c) :
    c.placed.flatMap read = b.placed.flatMap read := by
  cases token with
  | startTag name attributes ending =>
    cases hr
    exact h.continueTag name attributes ending b.countToken
  | _ =>
    simp only [Builder.receiveContinued] at hr
    exact h.receive hr

theorem receiveRun (h : Conserved read) {pending : Option String} {text : String}
    (hr : b.receiveRun rules pending text = .ok c) :
    c.placed.flatMap read = b.placed.flatMap read := by
  cases pending with
  | none => exact h.receiveAll hr
  | some name =>
    simp only [Builder.receiveRun] at hr
    split at hr
    · cases hr
      rfl
    · obtain ⟨d, hd, hr⟩ := bind_eq_ok_iff.1 hr
      exact (h.receiveAll hr).trans (h.receiveContinued hd)

/-- A markup node adds nothing. -/
theorem addRun (h : Conserved read) {text : String} (hr : b.addRun rules text = .ok c) :
    c.placed.flatMap read = b.placed.flatMap read := by
  obtain ⟨d, hd, hr⟩ := bind_eq_ok_iff.1 hr
  cases hr
  have received := h.receiveRun hd
  exact received

/-- A child adds what is read off it. -/
theorem addChild (h : Conserved read) {child : Node} (hr : b.addChild rules child = .ok c) :
    c.placed.flatMap read = b.placed.flatMap read ++ read child := by
  have pushed (node : Node) :
      (b.push node).placed.flatMap read = b.placed.flatMap read ++ read node := by
    rw [Builder.placed_push, List.flatMap_append, List.flatMap_singleton]
  cases child with
  | markup pieces =>
    rw [h.markup, List.append_nil]
    exact h.addRun hr
  | attr name parts =>
    rw [Builder.addChild] at hr
    split at hr
    · cases hr
    · cases hr
      exact pushed _
  | _ =>
    cases hr
    exact pushed _

theorem addChildren (h : Conserved read) {children : List Node}
    (hr : children.foldlM (Builder.addChild rules) b = .ok c) :
    c.placed.flatMap read = b.placed.flatMap read ++ children.flatMap read := by
  induction children generalizing b with
  | nil =>
    cases hr
    exact (List.append_nil _).symm
  | cons child others ih =>
    obtain ⟨d, hd, hr⟩ := bind_eq_ok_iff.1 hr
    rw [ih hr, h.addChild hd, List.append_assoc, List.flatMap_cons]

/-- A list of children and what it is built into give the same to read. -/
theorem build (h : Conserved read) {stats : Stats} {children : List Node} {built : Built}
    (hb : build rules stats children = .ok built) :
    built.children.flatMap read = children.flatMap read := by
  obtain ⟨b, replayed, hb⟩ := bind_eq_ok_iff.1 hb
  obtain ⟨c, hf, hb⟩ := bind_eq_ok_iff.1 hb
  cases hb
  have read_placed := h.addChildren replayed
  rw [Builder.finish] at hf
  split at hf
  · next hempty =>
    cases hf
    rw [Builder.placed, List.isEmpty_iff.1 hempty] at read_placed
    exact read_placed
  · cases hf

end Conserved

end MarkupTree
