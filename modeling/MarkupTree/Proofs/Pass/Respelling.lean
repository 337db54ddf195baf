import MarkupTree.Proofs.Pass.Lowering
import MarkupTree.Proofs.Replay.Trail

/-!
# Replaying written markup

A list of children that is being written is replayed from any place in it: inside a markup node, if
some of its text has been read, or between two nodes. Whether the replay gets to its end, and what
it has built then, depends only on what is in place already (`Stack`), on whether a start tag is
pending, and on whether a text of the same markup node came last. So a piece of markup is read
rightly if the rest is built as if the piece had been put in place already: that is what the law of
each piece says.

## Main definitions

* `Stack` : what a replay has in place.
* `Completes` : the rest of a list, replayed from some stack, ends with the nodes `built`.

## Main results

* `Completes.text`, `Completes.endTag`, `Completes.startTag` : a text and tags.
* `Completes.literal`, `Completes.closeTag` : an attribute, and the end of a start tag.
* `Completes.carry` : a node that is carried along.
* `CompletesNodes.build` : the whole list.
-/

namespace MarkupTree

/-! ### What is in place -/

/-- What a replay has in place: the nodes right under the root, newest first, and the open
elements, the innermost first. -/
structure Stack where
  root : List Node := []
  frames : List Frame := []

namespace Stack

/-- Puts a node into the innermost open element, or right under the root. -/
def push (n : Node) (s : Stack) : Stack :=
  match s.frames with
  | [] => { s with root := n :: s.root }
  | f :: fs => { s with frames := { f with children := n :: f.children } :: fs }

/-- Puts nodes in place, the first first. -/
def pushAll (nodes : List Node) (s : Stack) : Stack := nodes.foldl (fun s n => s.push n) s

/-- Opens an element that has some children already, newest first. -/
def enter (name : String) (children : List Node) (s : Stack) : Stack :=
  { s with frames := ⟨name, children⟩ :: s.frames }

theorem push_enter (n : Node) (name : String) (children : List Node) (s : Stack) :
    (s.enter name children).push n = s.enter name (n :: children) := rfl

theorem pushAll_enter (nodes : List Node) (name : String) (children : List Node) (s : Stack) :
    (s.enter name children).pushAll nodes = s.enter name (nodes.reverse ++ children) := by
  induction nodes generalizing children with
  | nil => rfl
  | cons n ns ih =>
    have later := ih (n :: children)
    rw [List.reverse_cons, List.append_assoc]
    exact later

theorem pushAll_empty (nodes : List Node) (root : List Node) :
    (⟨root, []⟩ : Stack).pushAll nodes = ⟨nodes.reverse ++ root, []⟩ := by
  induction nodes generalizing root with
  | nil => rfl
  | cons n ns ih =>
    have later := ih (n :: root)
    rw [List.reverse_cons, List.append_assoc]
    exact later

end Stack

namespace Builder

/-- What a replay has in place. -/
def stack (b : Builder) : Stack := ⟨b.root, b.frames⟩

theorem stack_push (n : Node) (b : Builder) : (b.push n).stack = b.stack.push n := by
  obtain ⟨root, frames, _⟩ := b
  cases frames <;> rfl

theorem tagPending_push (n : Node) (b : Builder) : (b.push n).tagPending = b.tagPending := by
  obtain ⟨root, frames, _⟩ := b
  cases frames <;> rfl

theorem textTail_push (n : Node) (b : Builder) : (b.push n).textTail = false := by
  obtain ⟨root, frames, _⟩ := b
  cases frames <;> rfl

theorem push_countToken (n : Node) (b : Builder) :
    b.countToken.push n = (b.push n).countToken := by
  obtain ⟨root, frames, _⟩ := b
  cases frames <;> rfl

theorem frames_of_stack_enter {b : Builder} {s : Stack} {name : String} {children : List Node}
    (h : b.stack = s.enter name children) : b.frames = ⟨name, children⟩ :: s.frames :=
  congrArg Stack.frames h

end Builder

/-! ### The rest of a list -/

/-- The replay ends with no element open and `built` right under the root, newest first. -/
def EndsWith (built : List Node) (x : Except Halt Builder) : Prop :=
  ∃ b, x = .ok b ∧ b.frames = [] ∧ b.root = built

/-- The nodes that are left, replayed from a stack, end with `built`. If `pending` names an element,
its start tag is pending. -/
def CompletesNodes (rules : TextRules) (built : List Node) (pending : Option String)
    (nodes : List Node) (s : Stack) : Prop :=
  ∀ b : Builder, b.stack = s → b.textTail = false → b.pendingName? = pending →
    EndsWith built (nodes.foldlM (Builder.addChild rules) b)

/-- The same from inside a markup node, of which some text has been read. It may be that this was
a text, if `afterText` says so. -/
def CompletesRun (rules : TextRules) (built : List Node) (pending : Option String) (f : Flat)
    (s : Stack) (afterText : Bool) : Prop :=
  ∀ b : Builder, b.stack = s → b.tagPending = false → (b.textTail = true → afterText = true) →
    EndsWith built (do
      let ended ← b.receiveRun rules pending (String.ofList f.head)
      f.tail.foldlM (Builder.addChild rules) { ended with textTail := false })

/-- The rest of a list that is being written, replayed from a stack, ends with `built`, whether or
not more text is put before it. -/
structure Completes (rules : TextRules) (built : List Node) (pending : Option String) (f : Flat)
    (s : Stack) (afterText : Bool) : Prop where
  run : CompletesRun rules built pending f s afterText
  nodes : CompletesNodes rules built pending f.nodes s

variable {rules : TextRules} {built : List Node} {pending : Option String} {f : Flat} {s : Stack}
  {afterText : Bool} {name : String}

/-- What may follow a text may follow anything. -/
theorem Completes.weaken {before : Bool} (h : Completes rules built pending f s afterText)
    (hb : before = true → afterText = true) : Completes rules built pending f s before :=
  ⟨fun b hs hp ht => h.run b hs hp fun htail => hb (ht htail), h.nodes⟩

/-- A markup node that is replayed from its start. -/
theorem CompletesRun.completes (h : CompletesRun rules built pending f s afterText)
    (hne : f.head ≠ []) : Completes rules built pending f s afterText := by
  refine ⟨h, ?_⟩
  intro b hs ht hp
  have nodes : f.nodes = .markup [String.ofList f.head] :: f.tail := by
    simp [Flat.nodes, hne]
  have joined : String.join [String.ofList f.head] = String.ofList f.head := by
    simp [String.join]
  rw [nodes, List.foldlM_cons, Builder.addChild, joined, Builder.addRun, hp]
  simp only [bind_assoc, pure_bind]
  exact h { b with tagPending := false, stats := b.stats.countRun } hs rfl
    fun htail => absurd (ht.symm.trans htail) Bool.false_ne_true

/-! ### Texts and tags -/

/-- A piece of markup that is read as one token. -/
theorem Completes.token {piece : List Char} {token : Token} {s' : Stack} {before : Bool}
    (h : Completes rules built none f s' afterText) (hne : piece ≠ [])
    (hlex : (lex (piece ++ f.head)).map Lexeme.token = token :: (lex f.head).map Lexeme.token)
    (hstep : ∀ b : Builder, b.stack = s → b.tagPending = false →
      (b.textTail = true → before = true) →
      ∃ c, b.receive rules token = .ok c ∧ c.stack = s' ∧ c.tagPending = false ∧
        (c.textTail = true → afterText = true)) :
    Completes rules built none (f.write piece) s before := by
  have more : (f.write piece).head ≠ [] := fun hnil => hne (List.append_eq_nil_iff.1 hnil).1
  refine CompletesRun.completes ?_ more
  intro b hs hp ht
  obtain ⟨c, hc, hcs, hcp, hct⟩ := hstep b hs hp ht
  have read : tokens (String.ofList (f.write piece).head) =
      token :: tokens (String.ofList f.head) := by
    rw [tokens, tokens, String.toList_ofList, String.toList_ofList]
    exact hlex
  have later := h.run c hcs hcp hct
  rw [Builder.receiveRun, Builder.receiveAll, read, List.foldlM_cons, hc]
  exact later

namespace Builder

/-- A text that comes after no other and is not dropped is put in place. -/
theorem receive_text {b : Builder} {text : String} (ht : b.textTail = false)
    (hd : b.frames = [] → rules.drops (.text text) = false) :
    b.receive rules (.text text) =
      .ok { b.countToken.push (.text text) with textTail := true } := by
  have kept :
      (b.countToken.frames.isEmpty && rules.elides && isWhiteText text) = false := by
    cases hb : b.frames with
    | nil => simpa [countToken, hb, TextRules.drops] using hd hb
    | cons _ _ => simp [countToken, hb]
  have apart : (rules.coalesces && b.countToken.textTail) = false := by
    simp [countToken, ht]
  simp only [receive, addText, kept, apart]
  rfl

/-- The end tag of the innermost element ends it and puts it in place. -/
theorem receive_endTag {b : Builder} {children : List Node} {fs : List Frame}
    (hb : b.frames = ⟨name, children⟩ :: fs) :
    b.receive rules (.endTag name) =
      .ok (push (.element name children.reverse) { b.countToken with frames := fs }) := by
  have frames : b.countToken.frames = ⟨name, children⟩ :: fs := hb
  simp only [receive, closeElement, frames, if_true, closeInnermost]

end Builder

/-- A text that comes after no other and is not dropped. -/
theorem Completes.text {text : String}
    (h : Completes rules built none f (s.push (.text text)) true) (hne : text ≠ "")
    (hr : endsText f.head) (hd : s.frames = [] → rules.drops (.text text) = false) :
    Completes rules built none (f.write (escapeText text)) s false := by
  refine h.token (escapeText_ne_nil hne) (lex_escapeText hne hr) fun b hs hp ht => ?_
  have tail : b.textTail = false := by
    cases hb : b.textTail with
    | false => rfl
    | true => exact absurd (ht hb) Bool.false_ne_true
  have frames : b.frames = s.frames := congrArg Stack.frames hs
  refine ⟨_, Builder.receive_text tail fun hnil => hd (frames ▸ hnil), ?_, ?_, fun _ => rfl⟩
  · rw [← hs]
    exact Builder.stack_push (.text text) b.countToken
  · exact (Builder.tagPending_push (.text text) b.countToken).trans hp

/-- The end tag of an open element. -/
theorem Completes.endTag {children : List Node}
    (h : Completes rules built none f (s.push (.element name children.reverse)) false)
    (hn : isElementName name) :
    Completes rules built none (f.write (spellEndTag name)) (s.enter name children) true := by
  have read := lex_spellEndTag (isTagName_of_isElementName hn) f.head
  refine h.token (List.cons_ne_nil _ _) read fun b hs hp _ => ?_
  have root : b.countToken.root = s.root := congrArg Stack.root hs
  refine ⟨_, Builder.receive_endTag (Builder.frames_of_stack_enter hs), ?_, ?_, ?_⟩
  · rw [Builder.stack_push, Builder.stack, root]
  · exact (Builder.tagPending_push _ _).trans hp
  · intro htail
    rw [Builder.textTail_push] at htail
    exact htail

/-! ### Start tags -/

/-- Inside a start tag, the first token goes on with the tag. -/
theorem completesRun_inTag {first : Token} {others : List Token}
    (hread : tagRestTokens name (String.ofList f.head) = first :: others) :
    CompletesRun rules built (some name) f s false ↔
      ∀ b : Builder, b.stack = s → b.tagPending = false → b.textTail = false →
        EndsWith built (do
          let continued ← b.receiveContinued rules first
          let ended ← continued.receiveAll rules others
          f.tail.foldlM (Builder.addChild rules) { ended with textTail := false }) := by
  simp only [CompletesRun, Builder.receiveRun, hread, bind_assoc, Bool.false_eq_true, imp_false,
    Bool.not_eq_true]

/-- An attribute inside a start tag. -/
theorem Completes.literal {key value : String} {children : List Node}
    (h : Completes rules built (some name) f
      (s.enter name (.attr key [.text value] :: children)) false)
    (ha : isAttributeName key) (hraw : hasRawText name = false) :
    Completes rules built (some name) (f.write (spellAttribute key value))
      (s.enter name children) false := by
  obtain ⟨hvalue, hrest⟩ := readBody_spellAttribute ha value f.head
  have read := tagRestTokens_eq hraw (f.write (spellAttribute key value)).head
  rw [Flat.write, hvalue, hrest] at read
  have further := (completesRun_inTag (tagRestTokens_eq hraw f.head)).1 h.run
  refine CompletesRun.completes ((completesRun_inTag read).2 ?_) (List.cons_ne_nil _ _)
  intro b hs hp _
  have pushed := further (b.push (.attr key [.text value]))
    (by rw [Builder.stack_push, hs, Stack.push_enter])
    ((Builder.tagPending_push _ b).trans hp) (Builder.textTail_push _ b)
  simp only [Builder.receiveContinued, ← Builder.push_countToken] at pushed
  exact pushed

theorem Builder.continueTag_nil (name : String) (ending : TagEnd) (b : Builder) :
    b.continueTag name [] ending =
      Builder.closeIfVoid name ending { b with tagPending := ending == .cutOff } := rfl

/-- The end of a start tag. The stack after it depends on whether the element is void. -/
theorem Completes.closeTag {s' : Stack} (h : Completes rules built none f s' false)
    (hraw : hasRawText name = false)
    (hstep : ∀ b : Builder, b.stack = s → b.tagPending = false → b.textTail = false →
      let c := Builder.continueTag name [] (TagEnd.plain.ofName name) b
      c.stack = s' ∧ c.tagPending = false ∧ c.textTail = false) :
    Completes rules built (some name) (f.write ['>']) s false := by
  have read : tagRestTokens name (String.ofList (f.write ['>']).head) =
      .startTag name [] (TagEnd.plain.ofName name) :: tokens (String.ofList f.head) :=
    tagRestTokens_close hraw f.head
  refine CompletesRun.completes ((completesRun_inTag read).2 ?_) (List.cons_ne_nil _ _)
  intro b hs hp ht
  obtain ⟨hcs, hcp, hct⟩ := hstep b.countToken hs hp ht
  exact h.run _ hcs hcp fun htail => hct.symm.trans htail

/-- The end of the start tag of an element that has content. -/
theorem Completes.closeContentTag {children : List Node}
    (h : Completes rules built none f (s.enter name children) false)
    (hraw : hasRawText name = false) (hv : isVoid name = false) :
    Completes rules built (some name) (f.write ['>']) (s.enter name children) false := by
  refine h.closeTag hraw fun b hs _ ht => ?_
  have opened : Builder.continueTag name [] (TagEnd.plain.ofName name) b =
      { b with tagPending := false } := by
    have ending : TagEnd.plain.ofName name = .plain := by simp [TagEnd.ofName, hv]
    rw [ending, Builder.continueTag_nil, Builder.closeIfVoid, if_neg (by simp [hv])]
    rfl
  rw [opened]
  exact ⟨hs, rfl, ht⟩

/-- The end of the start tag of a void element ends the element. -/
theorem Completes.closeVoidTag {children : List Node}
    (h : Completes rules built none f (s.push (.element name children.reverse)) false)
    (hraw : hasRawText name = false) (hv : isVoid name = true) :
    Completes rules built (some name) (f.write ['>']) (s.enter name children) false := by
  refine h.closeTag hraw fun b hs _ ht => ?_
  have frames : b.frames = ⟨name, children⟩ :: s.frames := congrArg Stack.frames hs
  have root : b.root = s.root := congrArg Stack.root hs
  have closed : Builder.continueTag name [] (TagEnd.plain.ofName name) b =
      Builder.push (.element name children.reverse)
        { b with frames := s.frames, tagPending := false } := by
    have ending : TagEnd.plain.ofName name = .selfClosing := by simp [TagEnd.ofName, hv]
    rw [ending, Builder.continueTag_nil, Builder.closeIfVoid, if_pos ⟨rfl, hv⟩]
    simp only [Builder.closeInnermost, frames]
    rfl
  rw [closed]
  refine ⟨?_, Builder.tagPending_push _ _, Builder.textTail_push _ _⟩
  rw [Builder.stack_push, Builder.stack, root]

/-- The name of a start tag. What follows is the inside of the tag. -/
theorem Completes.startTag (h : Completes rules built (some name) f (s.enter name []) false)
    (hn : isElementName name) (hr : endsName f.head) :
    Completes rules built none (f.write ('<' :: name.toList)) s true := by
  have hraw := hasRawText_of_isElementName hn
  have read : tokens (String.ofList (f.write ('<' :: name.toList)).head) =
      tagRestTokens name (String.ofList f.head) := by
    rw [tokens, String.toList_ofList]
    exact lex_startTag (isTagName_of_isElementName hn) hr
  rw [tagRestTokens_eq hraw] at read
  have further := (completesRun_inTag (tagRestTokens_eq hraw f.head)).1 h.run
  refine CompletesRun.completes ?_ (List.cons_ne_nil _ _)
  intro b hs hp _
  obtain ⟨root, frames, textTail, tagPending, stats⟩ := b
  obtain rfl := hp
  have entered := further
    ⟨root, ⟨name, []⟩ :: frames, false, false, stats.countElement (frames.length + 2)⟩
    (by rw [← hs]; rfl) rfl rfl
  simp only [Builder.receiveRun, Builder.receiveAll, read, List.foldlM_cons, bind_assoc,
    Builder.receive, Builder.countToken, Builder.openElement_eq_continueTag _ _ _ _ _ _ _ false]
  exact entered

/-! ### Carried nodes -/

namespace Builder

theorem pendingName?_push (n : Node) (b : Builder) : (b.push n).pendingName? = b.pendingName? := by
  rw [← trail_pendingName?, ← trail_pendingName?, trail_push]

end Builder

/-- A markup node whose text is used up leaves everything in place. -/
theorem exists_receiveRun_nil (rules : TextRules) (pending : Option String) {b : Builder}
    (hp : b.tagPending = false)
    (hpending : ∀ name ∈ pending, hasRawText name = false ∧
      b.frames.head?.map Frame.name = some name) :
    ∃ c, b.receiveRun rules pending (String.ofList []) = .ok c ∧ c.stack = b.stack ∧
      c.pendingName? = pending := by
  cases pending with
  | none =>
    have read : tokens (String.ofList []) = [.endOfInput] := by
      rw [tokens, String.toList_ofList, lex_nil]
      rfl
    refine ⟨b.countToken, ?_, rfl, ?_⟩
    · rw [Builder.receiveRun, read]
      rfl
    · rw [Builder.pendingName?, if_neg]
      exact fun h => Bool.false_ne_true (hp.symm.trans h)
  | some name =>
    obtain ⟨-, hname⟩ := hpending name rfl
    refine ⟨{ b.countToken.countToken with tagPending := true }, ?_, rfl, ?_⟩
    · rw [Builder.receiveRun, tagRestTokens_nil]
      rfl
    · rw [Builder.pendingName?, if_pos rfl]
      exact hname

/-- A node that is carried along. If a start tag is pending, it stays so. -/
theorem Completes.carry {n : Node} (h : Completes rules built pending f (s.push n) afterText)
    (hadd : ∀ b : Builder, b.stack = s → b.addChild rules n = .ok (b.push n))
    (hpending : ∀ name ∈ pending, hasRawText name = false ∧
      s.frames.head?.map Frame.name = some name) :
    Completes rules built pending (f.carry n) s true := by
  have nodes : CompletesNodes rules built pending (n :: f.nodes) s := by
    intro b hs ht hp
    rw [List.foldlM_cons, hadd b hs]
    refine h.nodes (b.push n) ?_ (Builder.textTail_push n b) ?_
    · rw [Builder.stack_push, hs]
    · rw [Builder.pendingName?_push, hp]
  refine ⟨?_, nodes⟩
  intro b hs hp _
  have frames : b.frames = s.frames := congrArg Stack.frames hs
  obtain ⟨c, hc, hcs, hcp⟩ := exists_receiveRun_nil rules pending hp (frames ▸ hpending)
  have ended := nodes { c with textTail := false } (hcs.trans hs) rfl hcp
  rw [Flat.carry, hc]
  exact ended

/-! ### Whole lists -/

/-- Nothing is left, and no element is open. -/
theorem Completes.nil (hs : s.frames = []) (hb : s.root = built) :
    Completes rules built none {} s true := by
  refine ⟨?_, ?_⟩
  · intro b hbs hp _
    obtain ⟨c, hc, hcs, -⟩ := exists_receiveRun_nil rules none hp nofun
    have stack : c.stack = s := hcs.trans hbs
    refine ⟨{ c with textTail := false }, ?_, ?_, ?_⟩
    · rw [hc]
      rfl
    · exact (congrArg Stack.frames stack).trans hs
    · exact (congrArg Stack.root stack).trans hb
  · intro b hbs _ _
    exact ⟨b, rfl, (congrArg Stack.frames hbs).trans hs, (congrArg Stack.root hbs).trans hb⟩

/-- A list whose replay from nothing ends with some nodes is built into them. -/
theorem CompletesNodes.build {nodes : List Node}
    (h : CompletesNodes rules built none nodes {}) (stats : Stats) :
    ∃ x, MarkupTree.build rules stats nodes = .ok x ∧ x.children = built.reverse := by
  obtain ⟨b, hb, hframes, hroot⟩ := h { stats } rfl rfl rfl
  have finished : b.finish = .ok b := by
    rw [Builder.finish, hframes]
    rfl
  refine ⟨⟨b.root.reverse, b.stats⟩, ?_, ?_⟩
  · exact bind_eq_ok_iff.2 ⟨b, hb, bind_eq_ok_iff.2 ⟨b, finished, rfl⟩⟩
  · exact congrArg List.reverse hroot

end MarkupTree
