import MarkupTree.Proofs.Replay.Events

/-!
# Where the parts of a forest come from

Each part of what a list of children is built into comes from one of the children: a text or an
attribute from the markup node that has it in its text, a carried node from the child that it is.
Two texts may be equal and yet come from two markup nodes, and a text may come from markup or be a
child itself, so the plain forest does not tell. A *traced* forest does: its leaves have the number
of the child that they come from. Its elements are those that were built, and they have the numbers
of the markup nodes that open them and that end them.

What a list of children says, one thing after another, can be read off it with the numbers of the
children (`traced`). Here every element that is opened is closed, a void one right after its start
tag has ended, so that a traced forest is found again from what it says
(`Traced.eq_of_linearise`). No rules for texts play a part: every text of a markup node is there as
it stands in the markup.

## Main definitions

* `Part` : a leaf of a traced forest, with the number of the child that it comes from.
* `TracedEvent`, `traced` : one thing that a child says, and all that a list of children says.
* `Traced`, `Traced.nodes` : a forest that knows where its parts come from, and the plain forest.
* `Traced.linearise` : what a traced forest says.
* `Traced.elements` : the elements of a traced tree, at every depth.
* `Traces` : a traced forest says what a list of children says.

## Main results

* `Traced.eq_of_linearise` : a forest is determined by what it says.
* `Trail.pairwise_tracedChildren` : children speak one after the other.
* `Traces.unique` : at most one forest says what a list of children says.
* `Traces.between` : when the children came that stand in an element.
-/

namespace MarkupTree

/-! ### What a list of children says -/

/-- A part of a forest with the number of the child that it comes from: an attribute or a text of a
markup node, or a child that is not markup itself. -/
inductive Part
  | attr (run : Nat) (a : Attribute)
  | text (run : Nat) (text : String)
  | carried (child : Nat) (node : Node)
deriving DecidableEq

/-- The part as a node. -/
def Part.node : Part → Node
  | attr _ a => .ofAttribute a
  | text _ s => .text s
  | carried _ n => n

/-- One thing that a list of children says: a markup node opens an element or ends it, or there is
a part. Nothing is said of what is inside a carried node. -/
inductive TracedEvent
  | opening (run : Nat) (name : String)
  | leaf (part : Part)
  | closing (run : Nat)
deriving DecidableEq

namespace TracedEvent

/-- The number of the child that says it. -/
def number : TracedEvent → Nat
  | opening run _ => run
  | closing run => run
  | leaf (.attr run _) => run
  | leaf (.text run _) => run
  | leaf (.carried child _) => child

/-- The carried node that is said to be there, with its number. -/
def carried? : TracedEvent → Option (Node × Nat)
  | leaf (.carried child n) => some (n, child)
  | _ => none

/-- It is said by the markup node of a given number. -/
def IsOfRun (run : Nat) (e : TracedEvent) : Prop := e.carried? = none ∧ e.number = run

/-- One thing can be said before another: by an earlier child, or by the same markup node. -/
def Precedes (d e : TracedEvent) : Prop :=
  d.number < e.number ∨ ∃ run, d.IsOfRun run ∧ e.IsOfRun run

end TracedEvent

/-- What the rest of a start tag says: its attributes, and the end of the element if it is void and
the tag has ended. -/
def tracedTag (run : Nat) (name : String) (attributes : List Attribute) (ending : TagEnd) :
    List TracedEvent :=
  attributes.map (fun a => .leaf (.attr run a)) ++
    if ending = .selfClosing ∧ isVoid name then [.closing run] else []

/-- What a token of a markup node says. -/
def Token.traced (run : Nat) : Token → List TracedEvent
  | .text s => [.leaf (.text run s)]
  | .startTag name attributes ending => .opening run name :: tracedTag run name attributes ending
  | .endTag _ => [.closing run]
  | .doctype _ => []
  | .comment _ => []
  | .endOfInput => []

namespace Trail

/-- What the text of a markup node says. If a start tag is pending, the text goes on with it. -/
def tracedRun (t : Trail) (run : Nat) (text : String) : List TracedEvent :=
  match t.pendingName? with
  | none => (tokens text).flatMap (Token.traced run)
  | some name =>
    match tagRestTokens name text with
    | .startTag _ attributes ending :: others =>
      tracedTag run name attributes ending ++ others.flatMap (Token.traced run)
    | others => others.flatMap (Token.traced run)

/-- What one child says. -/
def tracedChild (t : Trail) (number : Nat) : Node → List TracedEvent
  | .markup pieces => t.tracedRun number (String.join pieces)
  | node => [.leaf (.carried number node)]

/-- What a list of children says, if the first has the number `number`. -/
def tracedChildren : (t : Trail) → (number : Nat) → List Node → List TracedEvent
  | _, _, [] => []
  | t, number, child :: others =>
    t.tracedChild number child ++ (t.afterChild child).tracedChildren (number + 1) others

end Trail

/-- What a list of children says, each thing with the number of the child that says it. -/
def traced (children : List Node) : List TracedEvent := Trail.tracedChildren {} 0 children

/-! ### The order in which children speak -/

theorem isOfRun_of_mem_tracedTag {run : Nat} {name : String} {attributes : List Attribute}
    {ending : TagEnd} : ∀ e ∈ tracedTag run name attributes ending, e.IsOfRun run := by
  intro e he
  rcases List.mem_append.1 he with he | he
  · obtain ⟨a, -, rfl⟩ := List.mem_map.1 he
    exact ⟨rfl, rfl⟩
  · split at he
    · obtain rfl := List.mem_singleton.1 he
      exact ⟨rfl, rfl⟩
    · cases he

theorem Token.isOfRun_of_mem_traced {run : Nat} (token : Token) :
    ∀ e ∈ token.traced run, e.IsOfRun run := by
  intro e he
  cases token with
  | startTag name attributes ending =>
    rcases List.mem_cons.1 he with rfl | he
    · exact ⟨rfl, rfl⟩
    · exact isOfRun_of_mem_tracedTag e he
  | text s =>
    obtain rfl := List.mem_singleton.1 he
    exact ⟨rfl, rfl⟩
  | endTag name =>
    obtain rfl := List.mem_singleton.1 he
    exact ⟨rfl, rfl⟩
  | doctype s | comment s | endOfInput => cases he

namespace Trail

variable {t : Trail} {number : Nat} {n : Node}

/-- All that a markup node says is said by it, and it says nothing of carried nodes. -/
theorem isOfRun_of_mem_tracedRun (t : Trail) (run : Nat) (text : String) :
    ∀ e ∈ t.tracedRun run text, e.IsOfRun run := by
  have inTokens (ts : List Token) :
      ∀ e ∈ ts.flatMap (Token.traced run), e.IsOfRun run := by
    intro e he
    obtain ⟨token, -, he⟩ := List.mem_flatMap.1 he
    exact token.isOfRun_of_mem_traced e he
  rw [tracedRun]
  split
  · exact inTokens _
  · split
    · exact List.forall_mem_append.2 ⟨isOfRun_of_mem_tracedTag, inTokens _⟩
    · exact inTokens _

theorem tracedChild_of_not_markup (h : n.isMarkup = false) :
    t.tracedChild number n = [.leaf (.carried number n)] := by
  cases n with
  | markup pieces => cases h
  | _ => rfl

theorem afterChild_of_not_markup (h : n.isMarkup = false) : t.afterChild n = t := by
  cases n with
  | markup pieces => cases h
  | _ => rfl

/-- One child says one thing of itself, or it is a markup node. -/
theorem tracedChild_cases (t : Trail) (number : Nat) (n : Node) :
    t.tracedChild number n = [.leaf (.carried number n)] ∨
      ∀ e ∈ t.tracedChild number n, e.IsOfRun number := by
  cases n with
  | markup pieces => exact .inr (isOfRun_of_mem_tracedRun t number _)
  | _ => exact .inl rfl

theorem number_of_mem_tracedChild (t : Trail) (number : Nat) (n : Node) :
    ∀ e ∈ t.tracedChild number n, e.number = number := by
  intro e he
  rcases t.tracedChild_cases number n with h | h
  · obtain rfl := List.mem_singleton.1 (h ▸ he)
    rfl
  · exact (h e he).2

theorem le_number_of_mem_tracedChildren {t : Trail} {number : Nat} {children : List Node} :
    ∀ e ∈ t.tracedChildren number children, number ≤ e.number := by
  induction children generalizing t number with
  | nil => exact nofun
  | cons child others ih =>
    intro e he
    rcases List.mem_append.1 he with he | he
    · exact Nat.le_of_eq (t.number_of_mem_tracedChild number child e he).symm
    · exact Nat.le_of_succ_le (ih e he)

/-- Children speak one after the other. -/
theorem pairwise_tracedChildren (t : Trail) (number : Nat) (children : List Node) :
    (t.tracedChildren number children).Pairwise TracedEvent.Precedes := by
  induction children generalizing t number with
  | nil => exact .nil
  | cons child others ih =>
    refine List.pairwise_append.2 ⟨?_, ih _ _, fun d hd e he => .inl ?_⟩
    · rcases t.tracedChild_cases number child with h | h
      · rw [h]
        exact List.pairwise_singleton _ _
      · exact List.pairwise_of_forall_mem_list fun d hd e he => .inr ⟨number, h d hd, h e he⟩
    · rw [t.number_of_mem_tracedChild number child d hd]
      exact le_number_of_mem_tracedChildren e he

end Trail

/-! ### Traced forests -/

/-- A tree that knows where its parts come from. An element was opened by the markup node `first`
and ended by the markup node `last`, which for a void element is the one where its start tag
ends. -/
inductive Traced
  | element (first last : Nat) (name : String) (children : List Traced)
  | leaf (part : Part)

namespace Traced

mutual

/-- The tree itself. -/
def node : Traced → Node
  | element _ _ name children => .element name (nodes children)
  | leaf part => part.node

/-- The forest itself. -/
def nodes : List Traced → List Node
  | [] => []
  | g :: gs => g.node :: nodes gs

end

mutual

/-- What a tree says. -/
def events : Traced → List TracedEvent
  | element first last name children =>
    .opening first name :: (linearise children ++ [.closing last])
  | leaf part => [.leaf part]

/-- What a forest says, in document order. -/
def linearise : List Traced → List TracedEvent
  | [] => []
  | g :: gs => g.events ++ linearise gs

end

theorem nodes_eq_map (gs : List Traced) : nodes gs = gs.map node := by
  induction gs with
  | nil => rfl
  | cons g gs ih => rw [nodes, ih, List.map_cons]

theorem linearise_eq_flatMap (gs : List Traced) : linearise gs = gs.flatMap events := by
  induction gs with
  | nil => rfl
  | cons g gs ih => rw [linearise, ih, List.flatMap_cons]

/-- What holds for the leaves, and for an element if it holds for its children, holds for every
tree. -/
theorem induction {P : Traced → Prop} (leaf : ∀ part, P (leaf part))
    (element : ∀ first last name children, (∀ g ∈ children, P g) →
      P (element first last name children))
    (g : Traced) : P g :=
  @Traced.rec P (fun gs => ∀ g ∈ gs, P g) element leaf nofun
    (fun _ _ hg hgs => List.forall_mem_cons.2 ⟨hg, hgs⟩) g

theorem linearise_append (gs hs : List Traced) :
    linearise (gs ++ hs) = linearise gs ++ linearise hs := by
  rw [linearise_eq_flatMap, linearise_eq_flatMap, linearise_eq_flatMap, List.flatMap_append]

/-! ### A forest is found again from what it says -/

/-- A forest ends before these events: there are none, or the first is the end of an element. -/
def EndsBefore (es : List TracedEvent) : Prop := ∀ e ∈ es.head?, ∃ run, e = .closing run

theorem endsBefore_nil : EndsBefore [] := by
  rintro _ ⟨⟩

theorem endsBefore_closing (run : Nat) (es : List TracedEvent) :
    EndsBefore (.closing run :: es) := by
  rintro _ ⟨⟩
  exact ⟨run, rfl⟩

/-- A tree says something, and it does not begin with the end of an element. -/
theorem not_endsBefore (g : Traced) (es : List TracedEvent) : ¬EndsBefore (g.events ++ es) := by
  intro h
  cases g with
  | element first last name children => obtain ⟨_, ⟨⟩⟩ := h _ rfl
  | leaf part => obtain ⟨_, ⟨⟩⟩ := h _ rfl

mutual

theorem eq_of_events : (g h : Traced) → {es fs : List TracedEvent} →
    g.events ++ es = h.events ++ fs → g = h ∧ es = fs
  | leaf p, leaf q, es, fs, he => by
    obtain ⟨hpart, hrest⟩ := List.cons.inj he
    exact ⟨congrArg leaf (TracedEvent.leaf.inj hpart), hrest⟩
  | leaf p, element first last name hs, es, fs, he => nomatch (List.cons.inj he).1
  | element first last name gs, leaf q, es, fs, he => nomatch (List.cons.inj he).1
  | element first last m gs, element first' last' n hs, es, fs, he => by
    obtain ⟨hopening, hinside⟩ := List.cons.inj he
    obtain ⟨rfl, rfl⟩ := TracedEvent.opening.inj hopening
    have inside : linearise gs ++ [.closing last] ++ es =
        linearise hs ++ [.closing last'] ++ fs := hinside
    rw [List.append_assoc, List.append_assoc] at inside
    obtain ⟨rfl, hrest⟩ :=
      eq_of_linearise gs hs (endsBefore_closing last es) (endsBefore_closing last' fs) inside
    obtain ⟨hclosing, hsame⟩ := List.cons.inj hrest
    obtain rfl := TracedEvent.closing.inj hclosing
    exact ⟨rfl, hsame⟩

/-- A forest is determined by what it says, up to where it ends. -/
theorem eq_of_linearise : (gs hs : List Traced) → {es fs : List TracedEvent} → EndsBefore es →
    EndsBefore fs → linearise gs ++ es = linearise hs ++ fs → gs = hs ∧ es = fs
  | [], [], _, _, _, _, he => ⟨rfl, he⟩
  | [], h :: hs, es, fs, hes, _, he => by
    have same : es = h.events ++ (linearise hs ++ fs) := he.trans (List.append_assoc ..)
    exact absurd (same ▸ hes) (not_endsBefore h _)
  | g :: gs, [], es, fs, _, hfs, he => by
    have same : fs = g.events ++ (linearise gs ++ es) := he.symm.trans (List.append_assoc ..)
    exact absurd (same ▸ hfs) (not_endsBefore g _)
  | g :: gs, h :: hs, es, fs, hes, hfs, he => by
    rw [linearise, linearise, List.append_assoc, List.append_assoc] at he
    obtain ⟨rfl, hrest⟩ := eq_of_events g h he
    obtain ⟨rfl, hends⟩ := eq_of_linearise gs hs hes hfs hrest
    exact ⟨rfl, hends⟩

end

/-! ### Built elements -/

mutual

/-- The elements of a tree, at every depth, itself among them if it is one. -/
def elements : Traced → List Traced
  | element first last name children => element first last name children :: elementsAll children
  | leaf _ => []

/-- The elements of a forest, at every depth. -/
def elementsAll : List Traced → List Traced
  | [] => []
  | g :: gs => g.elements ++ elementsAll gs

end

theorem elementsAll_eq_flatMap (gs : List Traced) : elementsAll gs = gs.flatMap elements := by
  induction gs with
  | nil => rfl
  | cons g gs ih => rw [elementsAll, ih, List.flatMap_cons]

theorem mem_elementsAll_iff {gs : List Traced} {e : Traced} :
    e ∈ elementsAll gs ↔ ∃ g ∈ gs, e ∈ g.elements := by
  rw [elementsAll_eq_flatMap, List.mem_flatMap]

/-- What an element of a forest says is part of what the forest says. -/
theorem sublist_linearise_of_forall {gs : List Traced}
    (h : ∀ g ∈ gs, ∀ e ∈ g.elements, e.events.Sublist g.events) :
    ∀ e ∈ elementsAll gs, e.events.Sublist (linearise gs) := by
  intro e he
  obtain ⟨g, hg, he⟩ := mem_elementsAll_iff.1 he
  rw [linearise_eq_flatMap, List.flatMap_def]
  exact (h g hg e he).trans (List.sublist_flatten_of_mem (List.mem_map_of_mem hg))

theorem sublist_events (g : Traced) : ∀ e ∈ g.elements, e.events.Sublist g.events := by
  induction g using Traced.induction with
  | leaf part => exact nofun
  | element first last name children ih =>
    intro e he
    rcases List.mem_cons.1 he with rfl | he
    · exact .refl _
    · exact ((sublist_linearise_of_forall ih e he).trans (List.sublist_append_left _ _)).cons _

end Traced

/-- The forest says what the children say. -/
def Traces (forest : List Traced) (children : List Node) : Prop :=
  Traced.linearise forest = traced children

/-- Only one forest says what a list of children says. -/
theorem Traces.unique {gs hs : List Traced} {children : List Node} (hg : Traces gs children)
    (hh : Traces hs children) : gs = hs := by
  have same : Traced.linearise gs ++ [] = Traced.linearise hs ++ [] := by
    rw [hg, hh]
  exact (Traced.eq_of_linearise gs hs Traced.endsBefore_nil Traced.endsBefore_nil same).1

/-- A carried child that stands in a built element came after the markup node that opens the element
and before the one that ends it. -/
theorem Traces.between {forest : List Traced} {children : List Node} (h : Traces forest children)
    {first last : Nat} {name : String} {kids : List Traced}
    (he : .element first last name kids ∈ Traced.elementsAll forest) {k : Nat} {n : Node}
    (hk : .leaf (.carried k n) ∈ kids) : first < k ∧ k < last := by
  have inOrder : (traced children).Pairwise TracedEvent.Precedes :=
    Trail.pairwise_tracedChildren {} 0 children
  rw [← h] at inOrder
  have spoken := inOrder.sublist
    (Traced.sublist_linearise_of_forall (fun g _ => g.sublist_events) _ he)
  obtain ⟨afterOpening, spoken⟩ := List.pairwise_cons.1 spoken
  obtain ⟨-, -, beforeClosing⟩ := List.pairwise_append.1 spoken
  have said : TracedEvent.leaf (.carried k n) ∈ Traced.linearise kids := by
    rw [Traced.linearise_eq_flatMap]
    exact List.mem_flatMap.2 ⟨_, hk, List.mem_singleton_self _⟩
  constructor
  · rcases afterOpening _ (List.mem_append_left _ said) with hlt | ⟨_, -, hcarried, -⟩
    · exact hlt
    · cases hcarried
  · rcases beforeClosing _ said _ (List.mem_singleton_self _) with hlt | ⟨_, ⟨hcarried, -⟩, -⟩
    · exact hlt
    · cases hcarried

end MarkupTree
