import MarkupTree.Proofs.Lexing.Boundaries
import MarkupTree.Proofs.Replay.Correspondence
import MarkupTree.Proofs.Replay.Reading

/-!
# A replay on a stack that is checked

A replay keeps the root apart from the open elements, and where it ends an element there is one to
end. This file has the same replay on a stack that knows nothing of that. Its entries are all of one
kind, the root being the one without a name; each has a text tail and a pending start tag of its
own; and it may be empty. An operation that finds the stack in a state it is not made for stops with
a *fault*: where there is no entry at all, where the root would be ended, where a start tag goes on
that is no element's or is read as something else.

A stack and a replay *agree* when they hold the same nodes in the same places
(`CheckedStack.Agrees`). As long as they do, no token leads to a fault: the stack fails exactly
where the replay does, with the same failure and the same counts, and otherwise they agree again.

## Main definitions

* `CheckedStack`, `CheckedStack.Fault` : the stack, and what must never happen to it.
* `CheckedStack.receive`, `CheckedStack.addChild`, `CheckedStack.build` : the replay on the stack.
* `CheckedStack.Mirrors`, `CheckedStack.Agrees` : a stack and a replay in the same state.

## Main results

* `CheckedStack.inStep_receive` : a stack and a replay that agree, over a token.
-/

namespace MarkupTree

/-- An entry of a stack: the root, which has no name, or an open element. -/
structure CheckedStack.Entry where
  name? : Option String := none
  /-- What was put into it so far, newest first. -/
  children : List Node := []
  /-- The newest child is a text of the present markup node. -/
  textTail : Bool := false
  /-- The start tag has not ended. -/
  tagPending : Bool := false

/-- The state of a replay: entries, the innermost first, and counts. -/
structure CheckedStack where
  entries : List CheckedStack.Entry := [{}]
  stats : Stats := {}

namespace CheckedStack

/-- What must never happen to a stack. -/
inductive Fault
  /-- There is no entry. -/
  | empty
  /-- The last entry is to be ended. -/
  | lastEnded
  /-- An entry without a name is to be ended. -/
  | namelessEnded
  /-- The start tag of an entry without a name is pending. -/
  | namelessPending
  /-- A markup node goes on inside a start tag, and is read as something else. -/
  | misread
  /-- A markup node ends inside a start tag, and the innermost entry has no name. -/
  | strayTag

/-- Why a replay on a stack ends early: a fault, or a failure of the replay. -/
inductive Stop
  | fault (fault : Fault)
  | halt (halt : Halt)

/-! ### Entries -/

/-- Puts a node into an entry. -/
def Entry.push (node : Node) (e : Entry) : Entry :=
  { e with children := node :: e.children, textTail := false }

/-- Puts a text of the present markup node into an entry. -/
def Entry.addText (rules : TextRules) (text : String) (e : Entry) : Entry :=
  if rules.coalesces && e.textTail then
    { e with children := Builder.extendText text e.children }
  else { e with children := .text text :: e.children, textTail := true }

/-- The innermost entry. -/
def top (s : CheckedStack) : Except Stop Entry :=
  match s.entries with
  | [] => .error (.fault .empty)
  | e :: _ => .ok e

/-- Changes the innermost entry. -/
def mapTop (f : Entry → Entry) (s : CheckedStack) : Except Stop CheckedStack :=
  match s.entries with
  | [] => .error (.fault .empty)
  | e :: es => .ok { s with entries := f e :: es }

/-- Ends the innermost entry, an element, and puts it into the next one out. -/
def pop (s : CheckedStack) : Except Stop CheckedStack :=
  match s.entries with
  | [] => .error (.fault .empty)
  | [_] => .error (.fault .lastEnded)
  | e :: es =>
    match e.name? with
    | none => .error (.fault .namelessEnded)
    | some name => mapTop (Entry.push (.element name e.children.reverse)) { s with entries := es }

/-! ### Tokens -/

/-- One more token read. -/
def countToken (s : CheckedStack) : CheckedStack := { s with stats := s.stats.countToken }

/-- Puts a text of the present markup node in place, as the rules say. -/
def addText (rules : TextRules) (text : String) (s : CheckedStack) : Except Stop CheckedStack :=
  if s.entries.length = 1 ∧ rules.elides ∧ Builder.isWhiteText text then
    .ok { s with stats := s.stats.countDropped }
  else s.mapTop (Entry.addText rules text)

/-- Opens an element with the attributes of its start tag. -/
def openElement (name : String) (attributes : List Attribute) (ending : TagEnd) (s : CheckedStack) :
    Except Stop CheckedStack :=
  let opened : Entry := ⟨some name, (attributes.map Node.ofAttribute).reverse, false, false⟩
  let pushed : CheckedStack := ⟨opened :: s.entries, s.stats.countElement (s.entries.length + 1)⟩
  if ending = .selfClosing ∧ isVoid name then pushed.pop else .ok pushed

/-- Goes on with the start tag of the innermost entry. -/
def continueTag (attributes : List Attribute) (ending : TagEnd) (s : CheckedStack) :
    Except Stop CheckedStack := do
  let continued ← s.mapTop fun e => (attributes.map Node.ofAttribute).foldl (fun e n => e.push n) e
  let e ← continued.top
  if ending = .selfClosing ∧ e.name?.any isVoid then continued.pop else return continued

/-- Ends the innermost entry by an end tag, which has to be its own, letter case aside. -/
def closeElement (found : String) (s : CheckedStack) : Except Stop CheckedStack := do
  let e ← s.top
  match e.name? with
  | none => .error (.halt ⟨.unbalancedClose none found, s.stats⟩)
  | some name =>
    if Ascii.equalFold name found then s.pop
    else .error (.halt ⟨.unbalancedClose (some name) found, s.stats⟩)

/-- Takes one token. -/
def receive (rules : TextRules) (s : CheckedStack) (token : Token) : Except Stop CheckedStack :=
  let s := s.countToken
  match token with
  | .text text => s.addText rules text
  | .startTag name attributes ending => s.openElement name attributes ending
  | .endTag name => s.closeElement name
  | .doctype text => .error (.halt ⟨.unsupportedDoctype text, s.stats⟩)
  | .comment _ => .ok s
  | .endOfInput => .ok s

/-- Takes tokens of a markup node. If the node goes on inside a start tag, then the first has to be
that tag. -/
def receiveRun (rules : TextRules) (s : CheckedStack) : (pending : Option String) → List Token →
    Except Stop CheckedStack
  | none, tokens => tokens.foldlM (receive rules) s
  | some _, [] => .ok s
  | some name, .startTag found attributes ending :: others =>
    if found = name then do
      others.foldlM (receive rules) (← s.countToken.continueTag attributes ending)
    else .error (.fault .misread)
  | some _, _ :: _ => .error (.fault .misread)

/-! ### Children -/

/-- The text that is read for a markup node. If a start tag is pending, the tag begins anew. -/
def textRead (pending : Option String) (text : String) : String :=
  match pending with
  | none => text
  | some name => resumed name text

/-- Begins with a markup node: which start tag is pending, and the stack where none is. -/
def beginRun (s : CheckedStack) : Except Stop (Option String × CheckedStack) := do
  let e ← s.top
  let begun ← mapTop (fun e => { e with tagPending := false }) { s with stats := s.stats.countRun }
  if e.tagPending then
    match e.name? with
    | none => .error (.fault .namelessPending)
    | some name => return (some name, begun)
  else return (none, begun)

/-- Ends with a markup node, which may have ended inside a start tag. -/
def endRun (insideTag : Bool) (s : CheckedStack) : Except Stop CheckedStack := do
  let ended ← s.mapTop fun e => { e with textTail := false }
  let e ← ended.top
  if insideTag then
    if e.name?.isNone then .error (.fault .strayTag)
    else ended.mapTop fun e => { e with tagPending := true }
  else return ended

/-- Takes the text of a markup node. -/
def addRun (rules : TextRules) (s : CheckedStack) (text : String) : Except Stop CheckedStack := do
  let (pending, begun) ← s.beginRun
  let ended ← begun.receiveRun rules pending (tokens (textRead pending text))
  ended.endRun (endsInsideTag (textRead pending text))

/-- Takes one child. -/
def addChild (rules : TextRules) (s : CheckedStack) : Node → Except Stop CheckedStack
  | .markup pieces => s.addRun rules (String.join pieces)
  | .attr name parts => do
    let e ← s.top
    if e.name?.isNone then .error (.halt ⟨.attributeOutsideElement name, s.stats⟩)
    else s.mapTop (Entry.push (.attr name parts))
  | node => s.mapTop (Entry.push node)

/-- Ends the replay, with no element open. -/
def finish (s : CheckedStack) : Except Stop Built :=
  match s.entries with
  | [] => .error (.fault .empty)
  | [root] => .ok ⟨root.children.reverse, s.stats⟩
  | es => .error (.halt ⟨.unbalancedTree (es.filterMap Entry.name?).reverse, s.stats⟩)

/-- Gives structure to a list of children, going on with the counts `stats`. -/
def build (rules : TextRules) (stats : Stats) (children : List Node) : Except Stop Built := do
  let ended ← children.foldlM (addChild rules) { stats }
  ended.finish

/-! ### The same state -/

/-- Entries without a pending start tag that mirror the open elements and the root of a replay. The
names of the elements are those of tags. -/
inductive Mirrors : (entries : List Entry) → (frames : List Frame) → (root : List Node) → Prop
  | root {e : Entry} (hname : e.name? = none) (calm : e.tagPending = false) :
      Mirrors [e] [] e.children
  | element {e : Entry} {es : List Entry} {name : String} {fs : List Frame} {root : List Node}
      (hname : e.name? = some name) (calm : e.tagPending = false) (named : isTagName name)
      (h : Mirrors es fs root) : Mirrors (e :: es) (⟨name, e.children⟩ :: fs) root

/-- A stack and a replay in the same state, as long as no start tag is pending. -/
structure Agrees (s : CheckedStack) (b : Builder) : Prop where
  mirrors : Mirrors s.entries b.frames b.root
  tail : ∀ e ∈ s.entries.head?, e.textTail = b.textTail
  stats : s.stats = b.stats

/-- A step of a stack and one of a replay: they fail alike, or lead to the same state again. -/
abbrev InStep : Except Stop CheckedStack → Except Halt Builder → Prop :=
  Parallel (fun stop halt => stop = .halt halt) Agrees

variable {s : CheckedStack} {b c : Builder} {e : Entry} {es : List Entry} {fs : List Frame}
  {root : List Node} {rules : TextRules} {name : String}

theorem Mirrors.length (h : Mirrors es fs root) : es.length = fs.length + 1 := by
  induction h with
  | root => rfl
  | element _ _ _ _ ih => rw [List.length_cons, ih, List.length_cons]

theorem Mirrors.ne_nil (h : Mirrors es fs root) : es ≠ [] := by
  cases h <;> exact List.cons_ne_nil _ _

theorem Mirrors.names (h : Mirrors es fs root) : es.filterMap Entry.name? = fs.map Frame.name := by
  induction h with
  | root hname => simp [hname]
  | element hname _ _ _ ih => rw [List.filterMap_cons_some hname, ih, List.map_cons]

/-! ### Steps of both -/

/-- The innermost entry has what was put where nodes are put now. -/
theorem Mirrors.top_eq (h : Mirrors (e :: es) b.frames b.root) : b.top = e.children := by
  obtain ⟨root, frames, _⟩ := b
  cases h <;> rfl

theorem Mirrors.withTop (h : Mirrors (e :: es) b.frames b.root) {e' : Entry}
    (hname : e'.name? = e.name?) (hcalm : e'.tagPending = e.tagPending) :
    Mirrors (e' :: es) (b.withTop e'.children).frames (b.withTop e'.children).root := by
  obtain ⟨root, frames, _⟩ := b
  cases h with
  | root name calm => exact .root (hname.trans name) (hcalm.trans calm)
  | element name calm named h => exact .element (hname.trans name) (hcalm.trans calm) named h

/-- A change of the innermost entry that leaves it its name. -/
theorem Mirrors.inStep_mapTop (h : Mirrors s.entries b.frames b.root) (hs : s.stats = b.stats)
    {f : Entry → Entry} (hname : ∀ e, (f e).name? = e.name?)
    (hcalm : ∀ e, (f e).tagPending = e.tagPending)
    (hc : ∀ e ∈ s.entries.head?, e.children = b.top →
      c = { b.withTop (f e).children with textTail := (f e).textTail }) :
    InStep (s.mapTop f) (.ok c) := by
  obtain ⟨entries, stats⟩ := s
  obtain ⟨e, es, rfl⟩ := List.exists_cons_of_ne_nil h.ne_nil
  obtain rfl := hc e rfl h.top_eq.symm
  refine .ok ⟨h.withTop (hname e) (hcalm e), ?_, hs.trans ?_⟩
  · rintro _ ⟨⟩
    rfl
  · obtain ⟨root, frames, _⟩ := b
    cases frames <;> rfl

theorem Mirrors.inStep_push (h : Mirrors s.entries b.frames b.root) (hs : s.stats = b.stats)
    (node : Node) : InStep (s.mapTop (Entry.push node)) (.ok (b.push node)) := by
  refine h.inStep_mapTop hs (fun _ => rfl) (fun _ => rfl) fun e _ hchildren => ?_
  rw [Builder.push_eq_withTop, ← hchildren]
  rfl

theorem Agrees.inStep_addText (h : Agrees s b) (rules : TextRules) (text : String) :
    InStep (s.addText rules text) (.ok (b.addText rules text)) := by
  have rooted : s.entries.length = 1 ↔ b.frames.isEmpty := by
    rw [h.mirrors.length, List.isEmpty_iff, ← List.length_eq_zero_iff]
    omega
  rw [addText, Builder.addText]
  by_cases dropped : s.entries.length = 1 ∧ rules.elides ∧ Builder.isWhiteText text
  · rw [if_pos dropped, if_pos (by simp [← rooted, dropped])]
    exact .ok ⟨h.mirrors, h.tail, congrArg Stats.countDropped h.stats⟩
  · rw [if_neg dropped, if_neg (by simpa [← rooted] using dropped)]
    refine h.mirrors.inStep_mapTop h.stats (fun e => ?_) (fun e => ?_) fun e he hchildren => ?_
    · rw [Entry.addText]
      split <;> rfl
    · rw [Entry.addText]
      split <;> rfl
    · rw [Entry.addText, h.tail e he]
      by_cases joined : (rules.coalesces && b.textTail) = true
      · rw [if_pos joined, if_pos joined, Builder.extendTail_eq_withTop, hchildren]
        rw [← Builder.textTail_withTop]
      · rw [if_neg joined, if_neg joined, Builder.push_eq_withTop, hchildren]

theorem pop_cons (hname : e.name? = some name) (hes : es ≠ []) (stats : Stats) :
    pop ⟨e :: es, stats⟩ = mapTop (Entry.push (.element name e.children.reverse)) ⟨es, stats⟩ := by
  cases es with
  | nil => exact absurd rfl hes
  | cons next es => simp only [pop, hname]

theorem Agrees.inStep_pop (h : Agrees s b) (hb : b.frames ≠ []) :
    InStep s.pop (.ok b.closeInnermost) := by
  obtain ⟨entries, stats⟩ := s
  obtain ⟨root, frames, tail, pending, _⟩ := b
  obtain ⟨mirrors, -, rfl⟩ := h
  cases mirrors with
  | root => exact absurd rfl hb
  | @element e es name fs _ hname calm named below =>
    rw [pop_cons hname below.ne_nil]
    exact below.inStep_push (s := ⟨es, stats⟩) (b := ⟨root, fs, tail, pending, stats⟩) rfl _

/-! ### Tokens of both -/

/-- The name of the innermost entry is that of the innermost open element. -/
theorem Mirrors.name?_eq (h : Mirrors (e :: es) fs root) : e.name? = (fs.map Frame.name).head? := by
  cases h with
  | root hname => exact hname
  | element hname => exact hname

theorem Agrees.inStep_openElement (h : Agrees s b) (named : isTagName name)
    (attributes : List Attribute) (ending : TagEnd) :
    InStep (s.openElement name attributes ending) (.ok (b.openElement name attributes ending)) := by
  have depth : s.stats.countElement (s.entries.length + 1) =
      b.stats.countElement (b.frames.length + 2) := by rw [h.stats, h.mirrors.length]
  have opened : Agrees
      ⟨⟨some name, (attributes.map Node.ofAttribute).reverse, false, false⟩ :: s.entries,
        s.stats.countElement (s.entries.length + 1)⟩
      { b with
        frames := ⟨name, (attributes.map Node.ofAttribute).reverse⟩ :: b.frames
        textTail := false
        tagPending := ending == .cutOff
        stats := b.stats.countElement (b.frames.length + 2) } :=
    ⟨.element rfl rfl named h.mirrors, by simp, depth⟩
  rw [openElement, Builder.openElement, Builder.closeIfVoid]
  split
  · exact opened.inStep_pop (List.cons_ne_nil _ _)
  · exact .ok opened

theorem Agrees.inStep_pushAll (h : Agrees s b) (nodes : List Node) :
    InStep (s.mapTop fun e => nodes.foldl (fun e n => e.push n) e) (.ok (b.pushAll nodes)) := by
  induction nodes generalizing s b with
  | nil =>
    obtain ⟨entries, stats⟩ := s
    obtain ⟨e, es, rfl⟩ := List.exists_cons_of_ne_nil h.mirrors.ne_nil
    exact .ok h
  | cons n ns ih =>
    have pushed := h.mirrors.inStep_push h.stats n
    obtain ⟨entries, stats⟩ := s
    obtain ⟨e, es, rfl⟩ := List.exists_cons_of_ne_nil h.mirrors.ne_nil
    cases pushed with
    | ok agrees => exact ih agrees

theorem Agrees.inStep_continueTag (h : Agrees s b) (hb : b.trail.names.head? = some name)
    (attributes : List Attribute) (ending : TagEnd) :
    InStep (s.continueTag attributes ending) (.ok (b.continueTag name attributes ending)) := by
  have same : (b.pushAll (attributes.map Node.ofAttribute)).trail.names.head? = some name := by
    rw [Builder.trail_pushAll, hb]
  have pushed := h.inStep_pushAll (attributes.map Node.ofAttribute)
  rw [continueTag, Builder.continueTag, Builder.closeIfVoid]
  generalize s.mapTop _ = continued at pushed
  cases pushed with
  | @ok continued _ agrees =>
    obtain ⟨entries, stats⟩ := continued
    obtain ⟨e, es, rfl⟩ := List.exists_cons_of_ne_nil agrees.mirrors.ne_nil
    have named : e.name? = some name := agrees.mirrors.name?_eq.trans same
    change InStep (if ending = .selfClosing ∧ e.name?.any isVoid then pop _ else .ok _) _
    rw [named, Option.any_some]
    have agrees' : Agrees ⟨e :: es, stats⟩ { b.pushAll (attributes.map Node.ofAttribute) with
        tagPending := ending == .cutOff } := ⟨agrees.mirrors, agrees.tail, agrees.stats⟩
    split
    · refine agrees'.inStep_pop fun none => ?_
      rw [Builder.trail_names, none] at same
      cases same
    · exact .ok agrees'

/-- The names of tags are equal if they are so letter case aside. -/
theorem equalFold_iff_of_isTagName {found : String} (hn : isTagName name) (hf : isTagName found) :
    Ascii.equalFold name found ↔ name = found := by
  have small {word : String} (hw : isTagName word) : Ascii.lower word.toList = word.toList := by
    obtain ⟨-, -, -, -, hsmall⟩ := exists_of_isTagName hw
    have whole := lowercase_of_isSmallName hsmall
    rw [String.ofList_toList] at whole
    rw [← Ascii.toList_lowercase, whole]
  rw [Ascii.equalFold_iff, small hn, small hf, String.toList_inj]

theorem Agrees.inStep_closeElement {found : String} (h : Agrees s b) (hf : isTagName found) :
    InStep (s.closeElement found) (b.closeElement found) := by
  obtain ⟨entries, stats⟩ := s
  obtain ⟨root, frames, tail, pending, _⟩ := b
  obtain ⟨mirrors, htail, rfl⟩ := h
  cases mirrors with
  | @root e hname calm =>
    change InStep (match e.name? with | none => _ | some name => _) _
    rw [hname]
    exact .error rfl
  | @element e es name fs _ hname calm named below =>
    change InStep (match e.name? with | none => _ | some name => _) _
    rw [hname]
    have agrees : Agrees ⟨e :: es, stats⟩ ⟨root, ⟨name, e.children⟩ :: fs, tail, pending, stats⟩ :=
      ⟨.element hname calm named below, htail, rfl⟩
    by_cases same : name = found
    · subst same
      simp only [Builder.closeElement, if_true, if_pos (Ascii.equalFold_refl name)]
      exact agrees.inStep_pop (List.cons_ne_nil _ _)
    · have fold := mt (equalFold_iff_of_isTagName named hf).1 same
      simp only [Builder.closeElement, if_neg same, if_neg fold]
      exact .error rfl

/-- One token. -/
theorem inStep_receive (rules : TextRules) (h : Agrees s b) {token : Token}
    (named : token.HasNames ∧ token.HasEndName) :
    InStep (s.receive rules token) (b.receive rules token) := by
  have counted : Agrees s.countToken b.countToken :=
    ⟨h.mirrors, h.tail, congrArg Stats.countToken h.stats⟩
  cases token with
  | text text => exact counted.inStep_addText rules text
  | startTag name attributes ending => exact counted.inStep_openElement named.1.1 attributes ending
  | endTag name => exact counted.inStep_closeElement named.2
  | doctype text => exact .error (by rw [counted.stats])
  | comment text => exact .ok counted
  | endOfInput => exact .ok counted

theorem inStep_receiveAll (rules : TextRules) (h : Agrees s b) {ts : List Token}
    (named : ∀ t ∈ ts, t.HasNames ∧ t.HasEndName) :
    InStep (ts.foldlM (receive rules) s) (b.receiveAll rules ts) := by
  induction ts generalizing s b with
  | nil => exact .ok h
  | cons token ts ih =>
    obtain ⟨first, others⟩ := List.forall_mem_cons.1 named
    rw [List.foldlM_cons, Builder.receiveAll, List.foldlM_cons]
    exact (inStep_receive rules h first).bind fun _ _ agrees => ih agrees others

end CheckedStack

end MarkupTree
