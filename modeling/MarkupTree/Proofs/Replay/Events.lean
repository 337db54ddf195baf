import MarkupTree.Proofs.Replay.Trail

/-!
# Events

A list of children says one thing after another: a start tag opens an element and gives it
attributes, an end tag closes one, a text or a child that is not markup stands for itself. These
are the *events* of the list. Which of its markup goes on inside a start tag, and which white space
stands right under the root, is known from the trail alone, so the events can be read off without
building anything.

A forest that was built says the same in another way: walked along in document order, it opens and
closes its elements and has everything else for leaves. A node that was only carried into its place
is a leaf too, even if it is an element, so the walk is along a forest that remembers which of its
elements were built.

## Main definitions

* `Event` : one thing that a list of children says.
* `events` : the events of a list of children.
* `Grown`, `Grown.nodes` : a forest that remembers what was built in it, and the plain forest.
* `Grown.linearise` : the events of a forest.
* `Linearises` : a plain forest has some events, for the right memory of what was built.

## Main results

* `Grown.eq_of_linearise` : there is only one such memory.
-/

namespace MarkupTree

/-- One thing that a list of children says. A node that is not opened and closed, because it has
nothing inside or because it was only carried along, is a leaf. -/
inductive Event
  | opening (name : String)
  | closing (name : String)
  | leaf (node : Node)
  | doctype (text : String)
deriving DecidableEq

/-- The attributes of a start tag, one after another. -/
def attributeEvents (attributes : List Attribute) : List Event :=
  attributes.map fun a => .leaf (.ofAttribute a)

namespace Trail

/-! ### Events of a list of children -/

/-- The events of one token. Comments say nothing, and neither does white space that the rules drop
right under the root. -/
def tokenEvents (rules : TextRules) (t : Trail) : Token → List Event
  | .text text =>
    if t.names.isEmpty && rules.elides && Builder.isWhiteText text then [] else [.leaf (.text text)]
  | .startTag name attributes _ => .opening name :: attributeEvents attributes
  | .endTag name => [.closing name]
  | .doctype text => [.doctype text]
  | .comment _ => []
  | .endOfInput => []

/-- The events of a row of tokens. -/
def tokensEvents (rules : TextRules) : (t : Trail) → List Token → List Event
  | _, [] => []
  | t, token :: others => t.tokenEvents rules token ++ (t.after token).tokensEvents rules others

/-- How the text of a markup node starts: the events that belong to a start tag from before, the
trail after them, and the tokens that are left. -/
structure RunStart where
  events : List Event
  trail : Trail
  tokens : List Token

/-- The start of a markup node. If a start tag is pending, the text goes on with it, and its first
token says no more than the attributes that it adds. -/
def start (t : Trail) (text : String) : RunStart :=
  match t.pendingName? with
  | none => ⟨[], { t with tagPending := false }, tokens text⟩
  | some name =>
    match tagRestTokens name text with
    | .startTag _ attributes ending :: others =>
      ⟨attributeEvents attributes, t.afterResumedTag name ending, others⟩
    | others => ⟨[], { t with tagPending := false }, others⟩

/-- The events of one child. -/
def childEvents (rules : TextRules) (t : Trail) : Node → List Event
  | .markup pieces =>
    let run := t.start (String.join pieces)
    run.events ++ run.trail.tokensEvents rules run.tokens
  | node => [.leaf node]

/-- The trail after one child. -/
def afterChild (t : Trail) : Node → Trail
  | .markup pieces =>
    let run := t.start (String.join pieces)
    run.tokens.foldl after run.trail
  | _ => t

/-- The events of a list of children. -/
def childrenEvents (rules : TextRules) : (t : Trail) → List Node → List Event
  | _, [] => []
  | t, child :: others =>
    t.childEvents rules child ++ (t.afterChild child).childrenEvents rules others

end Trail

/-- The events of a list of children, from its start. -/
def events (rules : TextRules) (children : List Node) : List Event :=
  Trail.childrenEvents rules {} children

/-! ### Events of a forest -/

/-- A tree that remembers which of its elements were built. What is below a leaf is not looked
at. -/
inductive Grown
  | element (name : String) (children : List Grown)
  | leaf (node : Node)

namespace Grown

mutual

/-- The tree itself. -/
def node : Grown → Node
  | element name children => .element name (nodes children)
  | leaf node => node

/-- The forest itself. -/
def nodes : List Grown → List Node
  | [] => []
  | g :: gs => g.node :: nodes gs

end

/-- What the end of an element says. A void element has no end. -/
def endEvents (name : String) : List Event := if isVoid name then [] else [.closing name]

mutual

/-- The events of a tree in document order. -/
def treeEvents : Grown → List Event
  | element name children => .opening name :: (linearise children ++ endEvents name)
  | leaf node => [.leaf node]

/-- The events of a forest in document order. -/
def linearise : List Grown → List Event
  | [] => []
  | g :: gs => g.treeEvents ++ linearise gs

end

theorem nodes_append (gs hs : List Grown) : nodes (gs ++ hs) = nodes gs ++ nodes hs := by
  induction gs with
  | nil => rfl
  | cons g gs ih => rw [List.cons_append, nodes, nodes, ih, List.cons_append]

theorem linearise_append (gs hs : List Grown) :
    linearise (gs ++ hs) = linearise gs ++ linearise hs := by
  induction gs with
  | nil => rfl
  | cons g gs ih => rw [List.cons_append, linearise, linearise, ih, List.append_assoc]

mutual

/-- A tree and its events leave no choice in what was built: an element that was built is opened,
and one that was carried is a leaf. -/
theorem eq_of_treeEvents : (g h : Grown) → {es fs : List Event} → g.node = h.node →
    g.treeEvents ++ es = h.treeEvents ++ fs → g = h ∧ es = fs
  | leaf m, leaf n, es, fs, hn, he => by
    obtain rfl : m = n := hn
    exact ⟨rfl, (List.cons.inj he).2⟩
  | leaf m, element name hs, es, fs, _, he => nomatch (List.cons.inj he).1
  | element name gs, leaf n, es, fs, _, he => nomatch (List.cons.inj he).1
  | element m gs, element n hs, es, fs, hn, he => by
    obtain ⟨rfl, hnodes⟩ := Node.element.inj hn
    have inside : linearise gs ++ endEvents m ++ es = linearise hs ++ endEvents m ++ fs :=
      (List.cons.inj he).2
    rw [List.append_assoc, List.append_assoc] at inside
    obtain ⟨rfl, hends⟩ := eq_of_linearise gs hs hnodes inside
    exact ⟨rfl, List.append_cancel_left hends⟩

/-- A forest and its events leave no choice in what was built. -/
theorem eq_of_linearise : (gs hs : List Grown) → {es fs : List Event} → nodes gs = nodes hs →
    linearise gs ++ es = linearise hs ++ fs → gs = hs ∧ es = fs
  | [], [], _, _, _, he => ⟨rfl, he⟩
  | [], _ :: _, _, _, hn, _ => nomatch hn
  | _ :: _, [], _, _, hn, _ => nomatch hn
  | g :: gs, h :: hs, es, fs, hn, he => by
    obtain ⟨hfirst, hothers⟩ := List.cons.inj hn
    rw [linearise, linearise, List.append_assoc, List.append_assoc] at he
    obtain ⟨rfl, hrest⟩ := eq_of_treeEvents g h hfirst he
    obtain ⟨rfl, hends⟩ := eq_of_linearise gs hs hothers hrest
    exact ⟨rfl, hends⟩

end

end Grown

/-- The nodes have these events, for the right memory of what was built. -/
def Linearises (nodes : List Node) (es : List Event) : Prop :=
  ∃ forest : List Grown, Grown.nodes forest = nodes ∧ Grown.linearise forest = es

namespace Linearises

theorem nil : Linearises [] [] := ⟨[], rfl, rfl⟩

theorem leaf (n : Node) : Linearises [n] [.leaf n] := ⟨[.leaf n], rfl, rfl⟩

theorem append {ms ns : List Node} {es fs : List Event} (h : Linearises ms es)
    (h' : Linearises ns fs) : Linearises (ms ++ ns) (es ++ fs) := by
  obtain ⟨gs, rfl, rfl⟩ := h
  obtain ⟨hs, rfl, rfl⟩ := h'
  exact ⟨gs ++ hs, Grown.nodes_append gs hs, Grown.linearise_append gs hs⟩

/-- An element that was built says what is inside it between its start and its end. -/
theorem element (name : String) {ns : List Node} {es : List Event} (h : Linearises ns es) :
    Linearises [.element name ns] (.opening name :: (es ++ Grown.endEvents name)) := by
  obtain ⟨gs, rfl, rfl⟩ := h
  exact ⟨[.element name gs], rfl, List.append_nil _⟩

/-- The attributes of a start tag. -/
theorem attributes (attributes : List Attribute) :
    Linearises (attributes.map .ofAttribute) (attributeEvents attributes) := by
  induction attributes with
  | nil => exact nil
  | cons a as ih => exact (leaf (.ofAttribute a)).append ih

end Linearises

end MarkupTree
