import MarkupTree.Proofs.Replay.Carrying
import MarkupTree.Proofs.Replay.Nesting
import MarkupTree.Proofs.Replay.Opacity
import MarkupTree.Proofs.Replay.Policies
import MarkupTree.Proofs.Replay.Reading
import MarkupTree.Proofs.Replay.Voids
import Mathlib.Tactic.Abel

/-!
# What a replay counts

Counts add up, and of two depths the greater one counts, so they are a commutative monoid. A replay
adds to it what it reads and what it builds: the texts that it tokenizes count with their tokens,
and each element counts once, when it is opened, with all that is open then. A start tag that goes
on in the next markup node is a token there too, but its element does not count again, and a void
element counts like any other.

How much is open when an element is opened can be seen in what the children say, so the cost of a
traced forest is known from the forest: the number of its elements, and its height. What is built
has these elements besides those of the carried children.

A depth is counted in 32 bits, and what is beyond them is cut off. Elements that are nested deeper
do not lower the greatest depth, for the depths on the way to them were counted before: it stays at
the greatest number there is (`Traced.toNat_nestDepth`).

## Main definitions

* `TracedEvent.costAll` : what is counted while something is said.
* `Traced.nestDepth` : the depth that is counted for nested elements.
* `Traced.cost`, `readCost` : what the elements of a forest and the texts that are read count for.
* `Node.elementCount` : the number of elements in a tree.

## Main results

* `Traced.toNat_nestDepth` : the depth counted for the elements of a forest is one more than its
  height, as far as 32 bits go.
* `Traced.costAll_linearise` : the cost of a forest is that of what it says.
* `Builder.stats_receive`, `Builder.stats_addChild` : a token and a child.
* `stats_build` : a whole list of children.
* `Traces.elementCountAll_shown` : the elements of what is built.
-/

namespace MarkupTree

/-! ### Counts put together -/

namespace Stats

instance : Zero Stats := ⟨{}⟩

/-- Counts put together. -/
instance : Add Stats where
  add s u :=
    { visited := s.visited + u.visited
      rebuilt := s.rebuilt + u.rebuilt
      runs := s.runs + u.runs
      tokens := s.tokens + u.tokens
      elements := s.elements + u.elements
      dropped := s.dropped + u.dropped
      maxDepth := max s.maxDepth u.maxDepth }

theorem zero_def : (0 : Stats) = {} := rfl

theorem maxDepth_assoc (a b c : UInt32) : max (max a b) c = max a (max b c) :=
  UInt32.toNat_inj.1 (by simp only [UInt32.toNat_max, Nat.max_assoc])

theorem maxDepth_comm (a b : UInt32) : max a b = max b a :=
  UInt32.toNat_inj.1 (by simp only [UInt32.toNat_max, Nat.max_comm])

@[simp]
theorem zero_maxDepth (a : UInt32) : max 0 a = a :=
  UInt32.toNat_inj.1 (by rw [UInt32.toNat_max, UInt32.toNat_zero, Nat.zero_max])

@[simp]
theorem maxDepth_zero (a : UInt32) : max a 0 = a := by rw [maxDepth_comm, zero_maxDepth]

theorem add_def (s u : Stats) :
    s + u =
      ⟨s.visited + u.visited, s.rebuilt + u.rebuilt, s.runs + u.runs, s.tokens + u.tokens,
        s.elements + u.elements, s.dropped + u.dropped, max s.maxDepth u.maxDepth⟩ := rfl

instance : AddCommMonoid Stats where
  add_assoc _ _ _ := by simp only [add_def, Nat.add_assoc, maxDepth_assoc]
  zero_add _ := by simp only [add_def, zero_def, Nat.zero_add, zero_maxDepth]
  add_zero _ := by simp only [add_def, zero_def, Nat.add_zero, maxDepth_zero]
  add_comm _ _ := by simp only [add_def, Nat.add_comm, maxDepth_comm]
  nsmul := nsmulRec

theorem exceptDropped_add (s u : Stats) :
    (s + u).exceptDropped = s.exceptDropped + u.exceptDropped := rfl

theorem countVisit_eq (s : Stats) : s.countVisit = s + { visited := 1 } := by
  simp [countVisit, add_def]

theorem countRebuilt_eq (s : Stats) : s.countRebuilt = s + { rebuilt := 1 } := by
  simp [countRebuilt, add_def]

theorem countToken_eq (s : Stats) : s.countToken = s + { tokens := 1 } := by
  simp [countToken, add_def]

theorem countRun_eq (s : Stats) : s.countRun = s + { runs := 1 } := by
  simp [countRun, add_def]

theorem countElement_eq (s : Stats) (depth : Nat) :
    s.countElement depth = s + { elements := 1, maxDepth := depth.toUInt32 } := by
  simp [countElement, add_def]

/-- A token and the tokens after it. -/
theorem tokens_succ (count : Nat) :
    ({ tokens := count + 1 } : Stats) = { tokens := 1 } + { tokens := count } := by
  rw [Nat.add_comm]
  rfl

end Stats

/-- What some texts count for, when they are tokenized. -/
def readCost (texts : List String) : Stats where
  runs := texts.length
  tokens := (texts.map fun text => (tokens text).length).sum

theorem readCost_append (texts more : List String) :
    readCost (texts ++ more) = readCost texts + readCost more := by
  simp [readCost, Stats.add_def]

/-! ### What is said -/

namespace TracedEvent

/-- What is counted when something is said where the elements `names` are open: a new element, with
all that is open then, the root included. -/
def cost (names : List String) : TracedEvent → Stats
  | opening _ _ => { elements := 1, maxDepth := (names.length + 2).toUInt32 }
  | leaf _ => 0
  | closing _ => 0

/-- What is counted while a row of things is said. -/
def costAll : (names : List String) → List TracedEvent → Stats
  | _, [] => 0
  | names, e :: es => e.cost names + costAll (e.namesAfter names) es

theorem costAll_append (names : List String) (es fs : List TracedEvent) :
    costAll names (es ++ fs) = costAll names es + costAll (es.foldl namesAfter names) fs := by
  induction es generalizing names with
  | nil => exact (zero_add _).symm
  | cons e es ih => rw [List.cons_append, costAll, ih, costAll, List.foldl_cons, add_assoc]

theorem costAll_of_no_opening {es : List TracedEvent} (h : ∀ e ∈ es, ∀ names, e.cost names = 0)
    (names : List String) : costAll names es = 0 := by
  induction es generalizing names with
  | nil => rfl
  | cons e es ih =>
    obtain ⟨first, others⟩ := List.forall_mem_cons.1 h
    rw [costAll, first, ih others, add_zero]

end TracedEvent

open TracedEvent

theorem Walks.foldl_namesAfter {allowed : VoidContent} {names rest : List String}
    {es : List TracedEvent} (h : Walks allowed names es rest) :
    es.foldl namesAfter names = rest := by
  induction h with
  | nil => rfl
  | cons _ _ ih => exact ih

/-! ### Forests -/

namespace Traced

/-- The greatest depth that is counted for elements that are nested `height` deep, if `depth`
elements are open around them. Besides these elements the root is open, and of each depth only the
last 32 bits count. -/
def nestDepth : (depth height : Nat) → UInt32
  | _, 0 => 0
  | depth, height + 1 => max (depth + 2).toUInt32 (nestDepth (depth + 1) height)

theorem nestDepth_max (depth height other : Nat) :
    nestDepth depth (max height other) = max (nestDepth depth height) (nestDepth depth other) := by
  induction height generalizing depth other with
  | zero => rw [Nat.zero_max, nestDepth, Stats.zero_maxDepth]
  | succ height ih =>
    cases other with
    | zero => rw [Nat.max_zero, nestDepth, nestDepth, Stats.maxDepth_zero]
    | succ other =>
      rw [Nat.succ_max_succ, nestDepth, ih, nestDepth, nestDepth]
      refine UInt32.toNat_inj.1 ?_
      simp only [UInt32.toNat_max]
      omega

/-- The depths counted on the way down fill the gap up to the greatest, so none is lost before 32
bits are full, and from then on the greatest stays. -/
theorem max_toNat_nestDepth (depth height : Nat) :
    max (min (depth + 1) (UInt32.size - 1)) (nestDepth depth height).toNat =
      min (depth + 1 + height) (UInt32.size - 1) := by
  induction height generalizing depth with
  | zero => rw [nestDepth, UInt32.toNat_zero, Nat.max_zero, Nat.add_zero]
  | succ height ih =>
    have counted : (depth + 2).toUInt32.toNat = (depth + 2) % UInt32.size := UInt32.toNat_ofNat'
    have low : (depth + 2) % UInt32.size < UInt32.size := Nat.mod_lt _ (by decide)
    have exact : depth + 2 < UInt32.size → (depth + 2) % UInt32.size = depth + 2 :=
      Nat.mod_eq_of_lt
    have inner := ih (depth + 1)
    rw [nestDepth, UInt32.toNat_max, counted]
    -- The size is too large a number to compute with.
    generalize UInt32.size = size at low exact inner ⊢
    omega

/-- The depth counted for the elements of a forest, where no element is open around them. -/
theorem toNat_nestDepth {height : Nat} (h : height ≠ 0) :
    (nestDepth 0 height).toNat = min (1 + height) (UInt32.size - 1) := by
  obtain ⟨height, rfl⟩ := Nat.exists_eq_add_one_of_ne_zero h
  have wide : 2 < UInt32.size := by decide
  have all := max_toNat_nestDepth 0 (height + 1)
  have first : (2 : Nat) ≤ (nestDepth 0 (height + 1)).toNat := by
    rw [nestDepth, UInt32.toNat_max]
    exact Nat.le_max_left _ _
  generalize UInt32.size = size at wide all ⊢
  omega

/-- What the elements of a forest count for, if `depth` elements are open around it. -/
def cost (depth : Nat) (gs : List Traced) : Stats where
  elements := (elementsAll gs).length
  maxDepth := nestDepth depth (heightAll gs)

theorem length_elementsAll_append (gs hs : List Traced) :
    (elementsAll (gs ++ hs)).length = (elementsAll gs).length + (elementsAll hs).length := by
  rw [elementsAll_eq_flatMap, List.flatMap_append, List.length_append, elementsAll_eq_flatMap,
    elementsAll_eq_flatMap]

theorem cost_append (depth : Nat) (gs hs : List Traced) :
    cost depth (gs ++ hs) = cost depth gs + cost depth hs := by
  have deepest : nestDepth depth (heightAll (gs ++ hs)) =
      max (nestDepth depth (heightAll gs)) (nestDepth depth (heightAll hs)) := by
    rw [heightAll_append, nestDepth_max]
  exact congrArg₂ (fun (n : Nat) (d : UInt32) => ({ elements := n, maxDepth := d } : Stats))
    (length_elementsAll_append gs hs) deepest

/-- An element is counted with all that is open around it, and then what is inside it. -/
theorem cost_element (depth first last : Nat) (name : String) (children : List Traced) :
    cost depth [element first last name children] =
      { elements := 1, maxDepth := (depth + 2).toUInt32 } + cost (depth + 1) children := by
  have many : (elementsAll [element first last name children]).length =
      1 + (elementsAll children).length := by
    rw [elementsAll, elementsAll, List.append_nil, elements, List.length_cons, Nat.add_comm]
  have deepest : nestDepth depth (heightAll [element first last name children]) =
      max (depth + 2).toUInt32 (nestDepth (depth + 1) (heightAll children)) := by
    rw [heightAll, heightAll, Nat.max_zero, height, nestDepth]
  exact congrArg₂ (fun (n : Nat) (d : UInt32) => ({ elements := n, maxDepth := d } : Stats)) many
    deepest

mutual

/-- After a tree the same elements are open as before, and its elements have been counted. -/
theorem costAll_events : (g : Traced) → (names : List String) →
    g.events.foldl namesAfter names = names ∧ costAll names g.events = cost names.length [g]
  | element first last name children, names => by
    obtain ⟨hnames, hcost⟩ := costAll_linearise children (name :: names)
    rw [events, List.foldl_cons, List.foldl_append, costAll, costAll_append, cost_element]
    simp only [namesAfter, hnames, hcost]
    exact ⟨rfl, congrArg _ (add_zero _)⟩
  | leaf part, names => ⟨rfl, rfl⟩

/-- After a forest the same elements are open as before, and its elements have been counted. -/
theorem costAll_linearise : (gs : List Traced) → (names : List String) →
    (linearise gs).foldl namesAfter names = names ∧
      costAll names (linearise gs) = cost names.length gs
  | [], _ => ⟨rfl, rfl⟩
  | g :: gs, names => by
    obtain ⟨hnames, hcost⟩ := costAll_events g names
    obtain ⟨hothers, hrest⟩ := costAll_linearise gs names
    have apart : cost names.length (g :: gs) = cost names.length [g] + cost names.length gs :=
      cost_append names.length [g] gs
    rw [linearise, List.foldl_append, costAll_append, hnames, hcost, hrest, apart]
    exact ⟨hothers, rfl⟩

end

end Traced

/-! ### Trails -/

namespace TracedEvent

theorem costAll_tracedTag (names : List String) (number : Nat) (name : String)
    (attributes : List Attribute) (ending : TagEnd) :
    costAll names (tracedTag number name attributes ending) = 0 := by
  refine costAll_of_no_opening (fun e he names => ?_) names
  rcases List.mem_append.1 he with he | he
  · obtain ⟨a, -, rfl⟩ := List.mem_map.1 he
    rfl
  · split at he
    · obtain rfl := List.mem_singleton.1 he
      rfl
    · cases he

theorem foldl_namesAfter_tracedTag (names : List String) (number : Nat) (name : String)
    (attributes : List Attribute) (ending : TagEnd) :
    (tracedTag number name attributes ending).foldl namesAfter names =
      if ending = .selfClosing ∧ isVoid name then names.tail else names :=
  (walks_tracedTag (fun _ _ _ => True) number name attributes ending names).foldl_namesAfter

end TracedEvent

namespace Trail

/-- What the rest of a start tag says tells which elements are open after it. -/
theorem names_afterResumedTag (t : Trail) (number : Nat) (name : String)
    (attributes : List Attribute) (ending : TagEnd) :
    (t.afterResumedTag name ending).names =
      (tracedTag number name attributes ending).foldl namesAfter t.names := by
  rw [foldl_namesAfter_tracedTag, afterResumedTag]
  split <;> rfl

/-- What a token says tells which elements are open after it. -/
theorem names_after (t : Trail) (number : Nat) (token : Token) :
    (t.after token).names = (token.traced number).foldl namesAfter t.names := by
  cases token with
  | startTag name attributes ending =>
    rw [Token.traced, List.foldl_cons, namesAfter, foldl_namesAfter_tracedTag, after,
      afterStartTag]
    split <;> rfl
  | _ => rfl

theorem names_foldl_after (t : Trail) (number : Nat) (tokens : List Token) :
    (tokens.foldl after t).names =
      (tokens.flatMap (Token.traced number)).foldl namesAfter t.names := by
  induction tokens generalizing t with
  | nil => rfl
  | cons token others ih =>
    rw [List.foldl_cons, ih, List.flatMap_cons, List.foldl_append, names_after t number]

/-- What a child says tells which elements are open after it. -/
theorem names_afterChild (t : Trail) (number : Nat) (child : Node) :
    (t.afterChild child).names = (t.tracedChild number child).foldl namesAfter t.names := by
  cases child with
  | markup pieces =>
    rw [afterChild, start, tracedChild, tracedRun]
    cases hn : t.pendingName? with
    | none => exact names_foldl_after _ number _
    | some name =>
      obtain ⟨attributes, ending, others, heq, -⟩ := exists_tagRestTokens name (String.join pieces)
      simp only [heq, List.foldl_append]
      rw [names_foldl_after _ number, names_afterResumedTag t number name attributes]
  | _ => rfl

end Trail

/-! ### Replays -/

namespace Builder

variable {b c : Builder} {rules : TextRules}

theorem trail_of_receive {token : Token} (hr : b.receive rules token = .ok c) :
    c.trail = b.trail.after token := by
  obtain ⟨t, ht, rfl⟩ := (parallel_receive rules b token).exists_of_ok_left hr
  exact Trail.eq_after_of_pass ht

theorem stats_countToken (b : Builder) :
    b.countToken.stats.exceptDropped = b.stats.exceptDropped + { tokens := 1 } :=
  congrArg Stats.exceptDropped (Stats.countToken_eq b.stats)

/-- A token counts, and an element that it opens. -/
theorem stats_receive {token : Token} (hr : b.receive rules token = .ok c) (number : Nat) :
    c.stats.exceptDropped =
      b.stats.exceptDropped + ({ tokens := 1 } + costAll b.trail.names (token.traced number)) := by
  rw [← add_assoc, ← stats_countToken]
  cases token with
  | doctype text => cases hr
  | startTag name attributes ending =>
    cases hr
    rw [stats_openElement, Stats.countElement_eq, Stats.exceptDropped_add, Token.traced, costAll,
      costAll_tracedTag, add_zero]
    rfl
  | endTag name =>
    obtain ⟨_, _, -, -, rfl⟩ := exists_of_closeElement hr
    rw [stats_closeInnermost]
    exact (add_zero _).symm
  | text text =>
    cases hr
    rw [exceptDropped_addText]
    exact (add_zero _).symm
  | comment text | endOfInput =>
    cases hr
    exact (add_zero _).symm

theorem stats_receiveAll {tokens : List Token} (hr : b.receiveAll rules tokens = .ok c)
    (number : Nat) :
    c.stats.exceptDropped =
      b.stats.exceptDropped +
        ({ tokens := tokens.length } +
          costAll b.trail.names (tokens.flatMap (Token.traced number))) := by
  induction tokens generalizing b with
  | nil =>
    cases hr
    exact (add_zero _).symm
  | cons token others ih =>
    obtain ⟨d, hd, hr⟩ := bind_eq_ok_iff.1 hr
    rw [ih hr, stats_receive hd number, trail_of_receive hd, Trail.names_after b.trail number,
      List.flatMap_cons, costAll_append, List.length_cons, Stats.tokens_succ others.length]
    abel

/-- The start tag that goes on counts as a token, but its element does not count again. -/
theorem stats_receiveRest {name : String} {attributes : List Attribute} {ending : TagEnd}
    {others : List Token}
    (hr : (b.countToken.continueTag name attributes ending).receiveAll rules others = .ok c)
    (number : Nat) :
    c.stats.exceptDropped =
      b.stats.exceptDropped +
        ({ tokens := others.length + 1 } +
          costAll b.trail.names
            (tracedTag number name attributes ending ++
              others.flatMap (Token.traced number))) := by
  rw [stats_receiveAll hr number, stats_continueTag, stats_countToken, trail_continueTag,
    trail_countToken, Trail.names_afterResumedTag _ number name attributes, costAll_append,
    costAll_tracedTag, Stats.tokens_succ others.length]
  abel

/-- A markup node counts, with the tokens of the text that is read and the elements that they
open. -/
theorem stats_addRun (hn : b.trail.HasNames) {text : String} (hr : b.addRun rules text = .ok c)
    (number : Nat) :
    c.stats.exceptDropped =
      b.stats.exceptDropped +
        (readCost [b.trail.textRead text] +
          costAll b.trail.names (b.trail.tracedRun number text)) := by
  obtain ⟨d, hd, hr⟩ := bind_eq_ok_iff.1 hr
  cases hr
  have read : readCost [b.trail.textRead text] =
      { runs := 1 } + { tokens := (tokens (b.trail.textRead text)).length } := by
    simp [readCost, Stats.add_def]
  have begun : b.stats.countRun.exceptDropped = b.stats.exceptDropped + { runs := 1 } :=
    congrArg Stats.exceptDropped (Stats.countRun_eq b.stats)
  rw [read, add_assoc, ← add_assoc, ← begun, Trail.tracedRun]
  rw [← trail_pendingName?] at hd
  cases hpending : b.trail.pendingName? with
  | none =>
    rw [hpending] at hd
    rw [Trail.textRead_of_none hpending]
    exact stats_receiveAll hd number
  | some name =>
    obtain ⟨attributes, ending, others, heq, -⟩ := exists_tagRestTokens name text
    rw [hpending] at hd
    simp only [receiveRun, heq] at hd
    obtain ⟨e, he, hd⟩ := bind_eq_ok_iff.1 hd
    cases he
    rw [hn.tokens_textRead hpending]
    simp only [heq]
    exact stats_receiveRest hd number

/-- A child counts if it is markup. -/
theorem stats_addChild (hn : b.trail.HasNames) {child : Node}
    (hr : b.addChild rules child = .ok c) (number : Nat) :
    c.stats.exceptDropped =
      b.stats.exceptDropped +
        (readCost (child.markupText?.map b.trail.textRead).toList +
          costAll b.trail.names (b.trail.tracedChild number child)) := by
  have put (n : Node) : (b.push n).stats.exceptDropped = b.stats.exceptDropped + 0 := by
    rw [stats_push, add_zero]
  cases child with
  | markup pieces => exact stats_addRun hn hr number
  | attr name parts =>
    rw [Builder.addChild] at hr
    split at hr
    · cases hr
    · cases hr
      exact put _
  | _ =>
    cases hr
    exact put _

theorem stats_addChildren (hn : b.trail.HasNames) {children : List Node}
    (hr : children.foldlM (Builder.addChild rules) b = .ok c) (number : Nat) :
    c.stats.exceptDropped =
      b.stats.exceptDropped +
        (readCost (b.trail.textsRead children) +
          costAll b.trail.names (b.trail.tracedChildren number children)) := by
  induction children generalizing b number with
  | nil =>
    cases hr
    exact (add_zero _).symm
  | cons child others ih =>
    obtain ⟨d, hd, hr⟩ := bind_eq_ok_iff.1 hr
    have later := ih (trail_of_addChild hd ▸ hn.afterChild child) hr (number + 1)
    rw [later, stats_addChild hn hd number, trail_of_addChild hd,
      Trail.names_afterChild b.trail number child, Trail.textsRead, readCost_append,
      Trail.tracedChildren, costAll_append]
    abel

end Builder

/-- Giving structure to a list of children counts the texts that are read and the elements of the
forest that is built. -/
theorem stats_build {rules : TextRules} {stats : Stats} {children : List Node} {built : Built}
    {forest : List Traced} (hb : build rules stats children = .ok built)
    (hf : Traces forest children) :
    built.stats.exceptDropped =
      stats.exceptDropped + (readCost (Trail.textsRead {} children) + Traced.cost 0 forest) := by
  obtain ⟨b, replayed, hb⟩ := bind_eq_ok_iff.1 hb
  obtain ⟨c, hfinish, hb⟩ := bind_eq_ok_iff.1 hb
  cases hb
  have counted := Builder.stats_addChildren (b := { stats }) Trail.hasNames_empty replayed 0
  have said : costAll [] (traced children) = Traced.cost 0 forest :=
    hf ▸ (Traced.costAll_linearise forest []).2
  rw [Builder.finish] at hfinish
  split at hfinish
  · cases hfinish
    exact counted.trans (congrArg (fun cost => stats.exceptDropped + (_ + cost)) said)
  · cases hfinish

/-! ### Elements of what is built -/

/-- The number of elements in a tree, at every depth. -/
def Node.elementCount (n : Node) : Nat := n.postorder.countP isElement

/-- The number of elements in a list of trees. -/
def Node.elementCountAll (ns : List Node) : Nat := (ns.map elementCount).sum

theorem Node.elementCount_of_children? {n : Node} {children : List Node}
    (h : n.children? = some children) :
    n.elementCount = elementCountAll children + if n.isElement then 1 else 0 := by
  rw [elementCount, postorder_of_children? h, List.countP_append, List.countP_flatMap,
    List.countP_singleton]
  rfl

namespace Traced

variable {gs : List Traced}

/-- The number of elements in the carried nodes of a forest. -/
def carriedCount (gs : List Traced) : Nat := Node.elementCountAll ((carried gs).map Prod.fst)

theorem carriedCount_append (gs hs : List Traced) :
    carriedCount (gs ++ hs) = carriedCount gs + carriedCount hs := by
  simp [carriedCount, Node.elementCountAll, carried_append]

theorem elementCountAll_nodes_of_forall
    (h : ∀ g ∈ gs, g.node.elementCount = g.elements.length + carriedCount [g]) :
    Node.elementCountAll (nodes gs) = (elementsAll gs).length + carriedCount gs := by
  induction gs with
  | nil => rfl
  | cons g gs ih =>
    obtain ⟨first, others⟩ := List.forall_mem_cons.1 h
    have counted : Node.elementCountAll (nodes (g :: gs)) =
        g.node.elementCount + Node.elementCountAll (nodes gs) := rfl
    have apart : carriedCount (g :: gs) = carriedCount [g] + carriedCount gs :=
      carriedCount_append [g] gs
    rw [counted, first, ih others, elementsAll, List.length_append, apart]
    omega

/-- The elements in a tree were built, or they are in a node that is carried. -/
theorem elementCount_node (g : Traced) :
    g.node.elementCount = g.elements.length + carriedCount [g] := by
  induction g using Traced.induction with
  | leaf part =>
    cases part with
    | attr run a => rfl
    | text run s => rfl
    | carried child n => exact (Nat.zero_add _).symm
  | element first last name children ih =>
    rw [node, Node.elementCount_of_children? rfl, elementCountAll_nodes_of_forall ih, carriedCount,
      carriedCount, carried_element, elements, List.length_cons, Node.isElement, if_pos rfl]
    omega

/-- White space that is dropped is no element. -/
theorem elementsAll_filter (gs : List Traced) :
    elementsAll (gs.filter fun g => !g.isWhite) = elementsAll gs := by
  induction gs with
  | nil => rfl
  | cons g gs ih =>
    rw [List.filter_cons, elementsAll]
    split
    · rw [elementsAll, ih]
    · next hw =>
      cases g with
      | leaf part => exact ih
      | element first last name children => exact absurd rfl hw

/-- However the rules show a forest, it has as many elements. -/
theorem length_elementsAll_shown (rules : TextRules) (gs : List Traced) :
    (elementsAll (rules.shown gs)).length = (elementsAll gs).length := by
  have kept : elementsAll (rules.kept gs) = elementsAll gs := by
    rw [TextRules.kept]
    split
    · exact elementsAll_filter gs
    · rfl
  rw [TextRules.shown, TextRules.joined]
  split
  · rw [elementsAll_joinTexts_of_forall fun g _ => elements_joined g, List.length_map, kept]
  · rw [kept]

end Traced

theorem elementCount_of_isMarkup {n : Node} (h : n.isMarkup = true) : n.elementCount = 0 := by
  cases n <;> first | rfl | cases h

/-- The children that are not markup have all the elements. -/
theorem elementCountAll_zipIdx_filter (children : List Node) (number : Nat) :
    Node.elementCountAll
        (((children.zipIdx number).filter fun c => !c.1.isMarkup).map Prod.fst) =
      Node.elementCountAll children := by
  induction children generalizing number with
  | nil => rfl
  | cons child others ih =>
    have all : Node.elementCountAll (child :: others) =
        child.elementCount + Node.elementCountAll others := rfl
    rw [List.zipIdx_cons, List.filter_cons, all, ← ih (number + 1)]
    cases h : child.isMarkup with
    | true =>
      rw [elementCount_of_isMarkup h, Nat.zero_add]
      rfl
    | false => rfl

/-- What is built has the elements of the children and besides those of the forest. -/
theorem Traces.elementCountAll_shown {forest : List Traced} {children : List Node}
    (h : Traces forest children) (rules : TextRules) :
    Node.elementCountAll (Traced.nodes (rules.shown forest)) =
      Node.elementCountAll children + (Traced.elementsAll forest).length := by
  have carried : Traced.carriedCount (rules.shown forest) = Node.elementCountAll children := by
    rw [Traced.carriedCount, Traced.carried_shown, Traced.carried, h, carried_traced]
    exact elementCountAll_zipIdx_filter children 0
  rw [Traced.elementCountAll_nodes_of_forall fun g _ => g.elementCount_node,
    Traced.length_elementsAll_shown, carried, Nat.add_comm]

end MarkupTree
