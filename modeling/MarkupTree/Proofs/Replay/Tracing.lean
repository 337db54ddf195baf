import MarkupTree.Proofs.Replay.Correspondence
import MarkupTree.Proofs.Replay.Fidelity
import MarkupTree.Proofs.Replay.Joining

/-!
# A replay traced

Whatever the rules for texts are, what a list of children is built into is one and the same traced
forest as the rules show it: the forest that says what the children say (`traces_build`).

A *draft* is the state of a replay with traced trees in the place of nodes and with every text as
the markup has it. The nodes of the replay's state are the trees of the draft as the rules show them
(`Builder.Shows`), and each step of the replay adds to the draft what the token or the child says.
Where neighbouring texts are joined, the replay has to know whether its newest node is a text of the
present markup node. It keeps that in one flag, and the flag is right at every place where a node is
put (`Builder.Follows`): an element that ends is itself the newest node of the next one out, so what
had been the newest node there no longer matters.

## Main definitions

* `Draft` : the traced trees put in place so far, and `Draft.told` : what they say.
* `Builder.Shows` : the nodes of a replay are those of a draft as the rules show them.
* `Builder.Follows` : besides, the flag for the newest text is right.

## Main results

* `Builder.Shows.put` : one tree more.
* `Builder.Follows.receive`, `Builder.Follows.addChild` : a token and a child.
* `traces_build` : a whole list of children.
-/

namespace MarkupTree

open Traced

/-! ### Trails -/

namespace Trail

theorem eq_foldl_of_foldlM_pass {tokens : List Token} {t t' : Trail}
    (h : tokens.foldlM pass t = .ok t') : t' = tokens.foldl after t := by
  induction tokens generalizing t with
  | nil => exact (Except.ok.inj h).symm
  | cons token others ih =>
    obtain ⟨u, hu, ho⟩ := bind_eq_ok_iff.1 h
    rw [ih ho, eq_after_of_pass hu, List.foldl_cons]

/-- A child that was walked past leaves the trail after it. -/
theorem eq_afterChild_of_passChild {child : Node} {t t' : Trail}
    (h : t.passChild child = .ok t') : t' = t.afterChild child := by
  cases child with
  | markup pieces =>
    rw [passChild, passRun] at h
    rw [afterChild, start]
    cases hn : t.pendingName? with
    | none =>
      rw [hn] at h
      exact eq_foldl_of_foldlM_pass h
    | some name =>
      obtain ⟨attributes, ending, others, heq, -⟩ := exists_tagRestTokens name (String.join pieces)
      simp only [hn, heq] at h ⊢
      exact eq_foldl_of_foldlM_pass h
  | attr name parts =>
    rw [passChild] at h
    split at h
    · cases h
    · exact (Except.ok.inj h).symm
  | _ => exact (Except.ok.inj h).symm

end Trail

/-! ### Drafts -/

/-- An open element, the markup node that opened it, and the trees put into it so far, in document
order. -/
structure TracedFrame where
  first : Nat
  name : String
  children : List Traced

/-- The trees that were put in place so far, in document order, and the open elements, the innermost
first. -/
structure Draft where
  root : List Traced := []
  frames : List TracedFrame := []

namespace Draft

variable {rules : TextRules}

/-- Puts a tree into the innermost open element, or right under the root. -/
def push (g : Traced) (d : Draft) : Draft :=
  match d.frames with
  | [] => { d with root := d.root ++ [g] }
  | f :: fs => { d with frames := { f with children := f.children ++ [g] } :: fs }

/-- What the trees and the open elements say. -/
def told (d : Draft) : List TracedEvent :=
  linearise d.root ++
    d.frames.reverse.flatMap fun f => .opening f.first f.name :: linearise f.children

/-- The trees where trees are put now, less those that are dropped there. -/
def top (rules : TextRules) (d : Draft) : List Traced :=
  match d.frames with
  | [] => rules.kept d.root
  | f :: _ => f.children

theorem told_cons (root : List Traced) (f : TracedFrame) (fs : List TracedFrame) :
    told ⟨root, f :: fs⟩ = told ⟨root, fs⟩ ++ .opening f.first f.name :: linearise f.children := by
  simp [told]

theorem told_push (g : Traced) (d : Draft) : (d.push g).told = d.told ++ g.events := by
  have more (gs : List Traced) : linearise (gs ++ [g]) = linearise gs ++ g.events := by
    rw [linearise_append, linearise, linearise, List.append_nil]
  obtain ⟨root, frames⟩ := d
  cases frames with
  | nil => simp [push, told, more]
  | cons f fs =>
    rw [push, told_cons, told_cons, more, List.append_assoc]
    rfl

end Draft

/-! ### The state of a replay and its draft -/

namespace Builder

/-- An open element has the children of a traced one, as the rules show them. -/
structure FrameShows (rules : TextRules) (f : Frame) (g : TracedFrame) : Prop where
  name : f.name = g.name
  children : f.children = rules.newest g.children

/-- The nodes in place are those of a draft as the rules show them, and the draft says `es`. Of the
trees right under the root, those that are not shown were counted, with `dropped` before them. -/
structure Shows (rules : TextRules) (dropped : Nat) (es : List TracedEvent) (b : Builder)
    (d : Draft) : Prop where
  told : d.told = es
  root : b.root = rules.newest (rules.kept d.root)
  frames : List.Forall₂ (FrameShows rules) b.frames d.frames
  dropped : b.stats.dropped = dropped + rules.droppedCount d.root

/-- A replay shows a draft, and it knows whether the newest node is a text of the present child,
number `number`. No text of a later child is there yet. -/
structure Follows (rules : TextRules) (dropped number : Nat) (es : List TracedEvent) (b : Builder)
    (d : Draft) : Prop extends Shows rules dropped es b d where
  tail : ∀ r, number ≤ r → (lastRun? (d.top rules) = some r ↔ b.textTail = true ∧ r = number)

variable {rules : TextRules} {dropped number : Nat} {es : List TracedEvent} {b c : Builder}
  {d : Draft}

theorem Shows.top (h : b.Shows rules dropped es d) : b.top = rules.newest (d.top rules) := by
  obtain ⟨root, frames, _⟩ := b
  obtain ⟨droot, dframes⟩ := d
  obtain ⟨-, hroot, hframes, -⟩ := h
  cases hframes with
  | nil => exact hroot
  | cons hf _ => exact hf.children

/-- One tree more, which is not dropped. -/
theorem Shows.put (h : b.Shows rules dropped es d) {g : Traced}
    (hg : d.frames = [] → (rules.elides && g.isWhite) = false) {nodes : List Node}
    (hn : nodes = rules.newest (d.top rules ++ [g])) :
    (b.withTop nodes).Shows rules dropped (es ++ g.events) (d.push g) ∧
      (d.push g).top rules = d.top rules ++ [g] := by
  have told : (d.push g).told = es ++ g.events := by rw [Draft.told_push, h.told]
  obtain ⟨root, frames, _, _, stats⟩ := b
  obtain ⟨droot, dframes⟩ := d
  obtain ⟨-, hroot, hframes, hdropped⟩ := h
  cases hframes with
  | nil =>
    have kept := TextRules.kept_concat_of_not_white (hg rfl) droot
    refine ⟨⟨told, ?_, .nil, ?_⟩, kept⟩
    · exact hn.trans (congrArg rules.newest kept.symm)
    · exact hdropped.trans
        (congrArg _ (TextRules.droppedCount_concat_of_not_white (hg rfl) droot).symm)
  | cons hf hfs => exact ⟨⟨told, hroot, .cons ⟨hf.name, hn⟩ hfs, hdropped⟩, rfl⟩

/-- One node more that is no text of a markup node. -/
theorem Shows.push (h : b.Shows rules dropped es d) {g : Traced} (hg : g.textRun? = none)
    (number : Nat) :
    (b.push (rules.nodeOf g)).Follows rules dropped number (es ++ g.events) (d.push g) := by
  have nodes : rules.nodeOf g :: b.top = rules.newest (d.top rules ++ [g]) := by
    rw [TextRules.newest_concat (by simp [hg]), h.top]
  have notWhite (_ : d.frames = []) : (rules.elides && g.isWhite) = false := by
    rw [isWhite_eq_false hg, Bool.and_false]
  obtain ⟨placed, htop⟩ := h.put notWhite nodes
  rw [push_eq_withTop]
  refine ⟨⟨placed.told, placed.root, placed.frames, placed.dropped⟩, fun r _ => ?_⟩
  rw [htop, lastRun?_concat, hg]
  exact ⟨nofun, nofun⟩

/-- One text more of the present markup node, which is not shown. -/
theorem Follows.drop (h : b.Follows rules dropped number es d) (hd : d.frames = [])
    (he : rules.elides = true) {text : String} (hw : isWhiteText text = true) :
    Follows rules dropped number (es ++ [.leaf (.text number text)])
      { b with stats := b.stats.countDropped } (d.push (.leaf (.text number text))) := by
  have told : (d.push (.leaf (.text number text))).told = es ++ [.leaf (.text number text)] := by
    rw [Draft.told_push, h.told]
    rfl
  obtain ⟨droot, dframes⟩ := d
  obtain rfl := hd
  have white : isWhite (.leaf (.text number text)) = true := hw
  have kept := TextRules.kept_concat_of_white he white droot
  refine ⟨⟨told, ?_, h.frames, ?_⟩, fun r hr => ?_⟩
  · exact h.root.trans (congrArg rules.newest kept.symm)
  · have counted := congrArg (· + 1) h.dropped
    exact counted.trans
      (congrArg (dropped + ·) (TextRules.droppedCount_concat_of_white he white droot).symm)
  · have same : Draft.top rules ⟨droot ++ [.leaf (.text number text)], []⟩ =
        Draft.top rules ⟨droot, []⟩ := kept
    exact same ▸ h.tail r hr

/-- One text more of the present markup node, which is shown at the end of the newest nodes. -/
theorem Shows.putText (h : b.Shows rules dropped es d) {text : String}
    (ht : d.frames = [] → (rules.elides && isWhiteText text) = false) {nodes : List Node}
    (hn : nodes = rules.newest (d.top rules ++ [.leaf (.text number text)])) :
    Follows rules dropped number (es ++ [.leaf (.text number text)])
      { b.withTop nodes with textTail := true } (d.push (.leaf (.text number text))) := by
  obtain ⟨placed, htop⟩ := h.put (g := .leaf (.text number text)) ht hn
  refine ⟨⟨placed.told, placed.root, placed.frames, placed.dropped⟩, fun r _ => ?_⟩
  rw [htop, lastRun?_concat]
  exact ⟨fun hr => ⟨rfl, (Option.some.inj hr).symm⟩, fun hr => congrArg some hr.2.symm⟩

/-- One text more of the present markup node. It may be dropped, or go to the end of the newest
node. -/
theorem Follows.addText (h : b.Follows rules dropped number es d) (text : String) :
    (b.addText rules text).Follows rules dropped number (es ++ [.leaf (.text number text)])
      (d.push (.leaf (.text number text))) := by
  have isEmpty : b.frames.isEmpty = d.frames.isEmpty := by
    rw [Bool.eq_iff_iff, List.isEmpty_iff_length_eq_zero, List.isEmpty_iff_length_eq_zero,
      h.frames.length_eq]
  rw [Builder.addText]
  split
  · next hw =>
    simp only [Bool.and_eq_true, isEmpty, List.isEmpty_iff] at hw
    exact h.drop hw.1.1 hw.1.2 hw.2
  · next hw =>
    have kept (hnil : d.frames = []) : (rules.elides && isWhiteText text) = false := by
      simpa [isEmpty, hnil] using hw
    split
    · next hc =>
      obtain ⟨hc, ht⟩ := Bool.and_eq_true_iff.1 hc
      have newest := (h.tail number le_rfl).2 ⟨ht, rfl⟩
      have nodes : extendText text b.top =
          rules.newest (d.top rules ++ [.leaf (.text number text)]) := by
        rw [TextRules.newest_concat_joined hc newest, h.top]
      have flagged : b.extendTail text =
          { b.withTop (extendText text b.top) with textTail := true } := by
        rw [extendTail_eq_withTop, ← ht, ← textTail_withTop (extendText text b.top) b]
      rw [flagged]
      exact h.putText kept nodes
    · next hc =>
      have apart (hj : rules.coalesces = true) (r : Nat)
          (hr : textRun? (.leaf (.text number text)) = some r) :
          lastRun? (d.top rules) ≠ some r := by
        intro hlast
        obtain rfl := Option.some.inj hr
        exact hc (Bool.and_eq_true_iff.2 ⟨hj, ((h.tail number le_rfl).1 hlast).1⟩)
      have nodes : .text text :: b.top =
          rules.newest (d.top rules ++ [.leaf (.text number text)]) := by
        rw [TextRules.newest_concat apart, h.top]
        rfl
      rw [push_eq_withTop]
      exact h.putText kept nodes

/-! ### Elements -/

/-- The innermost element ends. -/
theorem Shows.closeInnermost (h : b.Shows rules dropped es d) (hb : b.trail.names ≠ [])
    (number : Nat) :
    ∃ d', b.closeInnermost.Follows rules dropped number (es ++ [.closing number]) d' := by
  obtain ⟨root, frames, textTail, tagPending, stats⟩ := b
  obtain ⟨droot, dframes⟩ := d
  obtain ⟨rfl, hroot, hframes, hdropped⟩ := h
  cases hframes with
  | nil => exact absurd rfl hb
  | @cons f g fs gs hf hfs =>
    have outer : Shows rules dropped (Draft.told ⟨droot, gs⟩)
        ⟨root, fs, textTail, tagPending, stats⟩ ⟨droot, gs⟩ := ⟨rfl, hroot, hfs, hdropped⟩
    have closed := outer.push (g := .element g.first number g.name g.children) rfl number
    have same : rules.nodeOf (.element g.first number g.name g.children) =
        .element f.name f.children.reverse := by
      rw [TextRules.nodeOf, hf.name, hf.children]
    have told : Draft.told ⟨droot, gs⟩ ++ (Traced.element g.first number g.name g.children).events =
        Draft.told ⟨droot, g :: gs⟩ ++ [.closing number] := by
      rw [Draft.told_cons, List.append_assoc]
      rfl
    rw [same, told] at closed
    exact ⟨_, closed⟩

theorem Follows.closeIfVoid (h : b.Follows rules dropped number es d) (hb : b.trail.names ≠ [])
    (name : String) (ending : TagEnd) :
    ∃ d', (b.closeIfVoid name ending).Follows rules dropped number
      (es ++ if ending = .selfClosing ∧ isVoid name then [.closing number] else []) d' := by
  rw [Builder.closeIfVoid]
  split
  · exact h.closeInnermost hb number
  · rw [List.append_nil]
    exact ⟨d, h⟩

theorem Follows.pushAttributes (h : b.Follows rules dropped number es d)
    (attributes : List Attribute) :
    ∃ d', (b.pushAll (attributes.map .ofAttribute)).Follows rules dropped number
      (es ++ attributes.map fun a => .leaf (.attr number a)) d' := by
  induction attributes generalizing b es d with
  | nil =>
    rw [List.map_nil, List.append_nil]
    exact ⟨d, h⟩
  | cons a as ih =>
    have later := ih (h.push (g := .leaf (.attr number a)) rfl number)
    rw [List.append_assoc] at later
    exact later

/-- The innermost start tag goes on. -/
theorem Follows.continueTag (h : b.Follows rules dropped number es d) (hb : b.trail.names ≠ [])
    (name : String) (attributes : List Attribute) (ending : TagEnd) :
    ∃ d', (b.continueTag name attributes ending).Follows rules dropped number
      (es ++ tracedTag number name attributes ending) d' := by
  obtain ⟨d', pushed⟩ := h.pushAttributes attributes
  have continued : Follows rules dropped number _
      { b.pushAll (attributes.map .ofAttribute) with tagPending := ending == .cutOff } d' :=
    ⟨⟨pushed.told, pushed.root, pushed.frames, pushed.dropped⟩, pushed.tail⟩
  have inside : (b.pushAll (attributes.map .ofAttribute)).trail.names ≠ [] := by
    rw [trail_pushAll]
    exact hb
  rw [tracedTag, ← List.append_assoc]
  exact continued.closeIfVoid inside name ending

/-- An element is opened, with the attributes of its start tag. -/
theorem Follows.openElement (h : b.Follows rules dropped number es d) (name : String)
    (attributes : List Attribute) (ending : TagEnd) :
    ∃ d', (b.openElement name attributes ending).Follows rules dropped number
      (es ++ .opening number name :: tracedTag number name attributes ending) d' := by
  obtain ⟨root, frames, t, p, stats⟩ := b
  obtain ⟨droot, dframes⟩ := d
  have opened : Follows rules dropped number (es ++ [.opening number name])
      ⟨root, ⟨name, []⟩ :: frames, false, p, stats.countElement (frames.length + 2)⟩
      ⟨droot, ⟨number, name, []⟩ :: dframes⟩ := by
    have frame : FrameShows rules ⟨name, []⟩ ⟨number, name, []⟩ := ⟨rfl, rules.newest_nil.symm⟩
    refine ⟨⟨?_, h.root, .cons frame h.frames, h.dropped⟩, fun r _ => ⟨nofun, nofun⟩⟩
    rw [Draft.told_cons, h.told]
    rfl
  rw [openElement_eq_continueTag name attributes ending root frames t p p stats]
  have continued := opened.continueTag (List.cons_ne_nil _ _) name attributes ending
  rw [List.append_assoc] at continued
  exact continued

/-! ### Tokens and children -/

/-- A token adds what it says. -/
theorem Follows.receive (h : b.Follows rules dropped number es d) {token : Token}
    (hr : b.receive rules token = .ok c) :
    ∃ d', c.Follows rules dropped number (es ++ token.traced number) d' := by
  have counted : b.countToken.Follows rules dropped number es d :=
    ⟨⟨h.told, h.root, h.frames, h.dropped⟩, h.tail⟩
  cases token with
  | doctype text => cases hr
  | startTag name attributes ending =>
    cases hr
    exact counted.openElement name attributes ending
  | endTag name =>
    obtain ⟨f, fs, hf, -, rfl⟩ := exists_of_closeElement hr
    have inside : b.countToken.trail.names ≠ [] := by
      rw [trail_names, hf]
      exact List.cons_ne_nil _ _
    exact counted.closeInnermost inside number
  | text text =>
    cases hr
    exact ⟨_, counted.addText text⟩
  | comment text | endOfInput =>
    cases hr
    rw [Token.traced, List.append_nil]
    exact ⟨d, counted⟩

theorem Follows.receiveAll (h : b.Follows rules dropped number es d) {tokens : List Token}
    (hr : b.receiveAll rules tokens = .ok c) :
    ∃ d', c.Follows rules dropped number (es ++ tokens.flatMap (Token.traced number)) d' := by
  induction tokens generalizing b es d with
  | nil =>
    cases hr
    rw [List.flatMap_nil, List.append_nil]
    exact ⟨d, h⟩
  | cons token others ih =>
    obtain ⟨e, he, hr⟩ := bind_eq_ok_iff.1 hr
    obtain ⟨d', received⟩ := h.receive he
    rw [List.flatMap_cons, ← List.append_assoc]
    exact ih received hr

/-- The text of a markup node adds what it says. After it, no text of a later child is there. -/
theorem Follows.addRun (h : b.Follows rules dropped number es d) {text : String}
    (hr : b.addRun rules text = .ok c) :
    ∃ d', c.Follows rules dropped (number + 1) (es ++ b.trail.tracedRun number text) d' := by
  obtain ⟨e, he, hr⟩ := bind_eq_ok_iff.1 hr
  cases hr
  suffices ended : ∃ d', e.Follows rules dropped number (es ++ b.trail.tracedRun number text) d' by
    -- A text at the end is of this child, and from now on only later ones are asked for.
    obtain ⟨d', ended⟩ := ended
    refine ⟨d', ⟨ended.told, ended.root, ended.frames, ended.dropped⟩, fun r hr => ?_⟩
    rw [ended.tail r (Nat.le_of_succ_le hr)]
    exact ⟨fun hlast => absurd hlast.2 (Nat.ne_of_gt hr), nofun⟩
  have begun : Follows rules dropped number es
      { b with tagPending := false, stats := b.stats.countRun } d :=
    ⟨⟨h.told, h.root, h.frames, h.dropped⟩, h.tail⟩
  rw [Trail.tracedRun, trail_pendingName?]
  cases hn : b.pendingName? with
  | none =>
    rw [hn] at he
    exact begun.receiveAll he
  | some name =>
    obtain ⟨attributes, ending, others, heq, -⟩ := exists_tagRestTokens name text
    have inside : b.trail.names ≠ [] := by
      have head := Trail.head?_of_pendingName? ((trail_pendingName? b).trans hn)
      exact List.ne_nil_of_mem (List.mem_of_head? head)
    rw [hn] at he
    simp only [receiveRun, heq] at he ⊢
    obtain ⟨f, hf, he⟩ := bind_eq_ok_iff.1 he
    cases hf
    have counted : Follows rules dropped number es
        (countToken { b with tagPending := false, stats := b.stats.countRun }) d :=
      ⟨⟨h.told, h.root, h.frames, h.dropped⟩, h.tail⟩
    obtain ⟨d', continued⟩ := counted.continueTag inside name attributes ending
    rw [← List.append_assoc]
    exact continued.receiveAll he

/-- A child adds what it says. -/
theorem Follows.addChild (h : b.Follows rules dropped number es d) {child : Node}
    (hr : b.addChild rules child = .ok c) :
    ∃ d', c.Follows rules dropped (number + 1) (es ++ b.trail.tracedChild number child) d' := by
  have put (n : Node) : ∃ d', (b.push n).Follows rules dropped (number + 1)
      (es ++ [.leaf (.carried number n)]) d' :=
    ⟨_, h.push (g := .leaf (.carried number n)) rfl (number + 1)⟩
  cases child with
  | markup pieces => exact h.addRun hr
  | attr name parts =>
    rw [Builder.addChild] at hr
    split at hr
    · cases hr
    · cases hr
      exact put _
  | _ =>
    cases hr
    exact put _

/-- A child that is taken leaves the trail after it. -/
theorem trail_of_addChild {child : Node} (hr : b.addChild rules child = .ok c) :
    c.trail = b.trail.afterChild child := by
  obtain ⟨t, ht, rfl⟩ := (parallel_addChild rules b child).exists_of_ok_left hr
  exact Trail.eq_afterChild_of_passChild ht

theorem Follows.addChildren (h : b.Follows rules dropped number es d) {children : List Node}
    (hr : children.foldlM (Builder.addChild rules) b = .ok c) :
    ∃ number' d', c.Follows rules dropped number'
      (es ++ b.trail.tracedChildren number children) d' := by
  induction children generalizing b es d number with
  | nil =>
    cases hr
    rw [Trail.tracedChildren, List.append_nil]
    exact ⟨number, d, h⟩
  | cons child others ih =>
    obtain ⟨e, he, hr⟩ := bind_eq_ok_iff.1 hr
    obtain ⟨d', added⟩ := h.addChild he
    rw [Trail.tracedChildren, ← trail_of_addChild he, ← List.append_assoc]
    exact ih added hr

end Builder

/-- What a list of children is built into is the forest that says what the children say, as the
rules show it, and each text that is not shown was counted. -/
theorem traces_build {rules : TextRules} {stats : Stats} {children : List Node} {built : Built}
    (hb : build rules stats children = .ok built) :
    ∃ forest, Traces forest children ∧ built.children = nodes (rules.shown forest) ∧
      built.stats.dropped = stats.dropped + rules.droppedCount forest := by
  obtain ⟨b, replayed, hb⟩ := bind_eq_ok_iff.1 hb
  obtain ⟨c, hf, hb⟩ := bind_eq_ok_iff.1 hb
  cases hb
  have started : Builder.Follows rules stats.dropped 0 [] { stats } {} := by
    refine ⟨⟨rfl, by simp, .nil, by simp⟩, fun r _ => ?_⟩
    rw [Draft.top, TextRules.kept_nil]
    exact ⟨nofun, nofun⟩
  obtain ⟨number, ⟨root, frames⟩, ended⟩ := started.addChildren replayed
  rw [Builder.finish] at hf
  split at hf
  · next hempty =>
    cases hf
    have shown := ended.frames
    rw [List.isEmpty_iff.1 hempty, List.forall₂_nil_left_iff] at shown
    obtain rfl := shown
    refine ⟨root, ?_, ?_, ended.dropped⟩
    · have told := ended.told
      rw [Draft.told, List.reverse_nil, List.flatMap_nil, List.append_nil, List.nil_append] at told
      exact told
    · rw [ended.root, TextRules.newest, List.reverse_reverse]
      rfl
  · cases hf

end MarkupTree
