import MarkupTree.Proofs.Replay.Parallel

/-!
# Replays of corresponding lists

A replay looks into a markup node, and of an attribute node it looks at the name. All other
children it only puts in place. So if the nodes of two lists of children correspond one by one,
and markup stands against the same markup, the two replays put corresponding nodes into the same
places, or they fail for the same reason (`parallel_build`). What it means for two nodes to
correspond is left open: any relation will do that holds between equal texts and equal attributes
of start tags, and between elements whose children correspond. The counts of the two replays are
compared by a relation of their own.

## Main definitions

* `Corresponds` : what a replay has to find in two children so that it treats them alike.
* `Builder.Keeps` : the relations that a replay keeps.
* `Builder.Alike` : two states of a replay with corresponding nodes in the same places.

## Main results

* `Builder.parallel_step`, `Builder.parallel_run`, `Builder.parallel_child` : alike states stay
  alike over a token, a markup node and a child.
* `parallel_build` : replays of corresponding lists of children.
-/

namespace MarkupTree

/-- Whether a node is an attribute. -/
def Node.isAttr : Node → Bool
  | attr .. => true
  | _ => false

/-- Two children that a replay treats alike: the same markup, attributes of the same name, or
nodes of other kinds. Those that are put in place are related by `C`. -/
inductive Corresponds (C : Node → Node → Prop) : Node → Node → Prop
  | markup {ps qs : List String} (h : String.join ps = String.join qs) :
      Corresponds C (.markup ps) (.markup qs)
  | attr {name : String} {ps qs : List Node} (h : C (.attr name ps) (.attr name qs)) :
      Corresponds C (.attr name ps) (.attr name qs)
  | carried {m n : Node} (h : C m n) (hm : m.isMarkup = false) (hn : n.isMarkup = false)
      (hm' : m.isAttr = false) (hn' : n.isAttr = false) : Corresponds C m n

theorem Corresponds.refl {C : Node → Node → Prop} {n : Node}
    (h : n.isMarkup = false → C n n) : Corresponds C n n := by
  cases n with
  | markup _ => exact .markup rfl
  | attr _ _ => exact .attr (h rfl)
  | _ => exact .carried (h rfl) rfl rfl rfl rfl

namespace Builder

/-- A relation between nodes that is kept by building, and one between counts that is kept by
counting. -/
structure Keeps (C : Node → Node → Prop) (S : Stats → Stats → Prop) : Prop where
  text : ∀ t, C (.text t) (.text t)
  ofAttribute : ∀ a, C (.ofAttribute a) (.ofAttribute a)
  element : ∀ name {ms ns : List Node}, List.Forall₂ C ms ns →
    C (.element name ms) (.element name ns)
  countRun : ∀ {s u}, S s u → S s.countRun u.countRun
  countToken : ∀ {s u}, S s u → S s.countToken u.countToken
  countDropped : ∀ {s u}, S s u → S s.countDropped u.countDropped
  countElement : ∀ {s u} depth, S s u → S (s.countElement depth) (u.countElement depth)

/-! ### The place where nodes are put -/

/-- What was put where nodes are put now, newest first. -/
def top (b : Builder) : List Node :=
  match b.frames with
  | [] => b.root
  | f :: _ => f.children

/-- A state with other nodes where nodes are put now. -/
def withTop (nodes : List Node) (b : Builder) : Builder :=
  match b.frames with
  | [] => { b with root := nodes }
  | f :: fs => { b with frames := { f with children := nodes } :: fs }

theorem push_eq_withTop (node : Node) (b : Builder) :
    b.push node = { b.withTop (node :: b.top) with textTail := false } := by
  obtain ⟨_, frames, _⟩ := b
  cases frames <;> rfl

theorem extendTail_eq_withTop (more : String) (b : Builder) :
    b.extendTail more = b.withTop (extendText more b.top) := by
  obtain ⟨_, frames, _⟩ := b
  cases frames <;> rfl

theorem top_withTop (nodes : List Node) (b : Builder) : (b.withTop nodes).top = nodes := by
  obtain ⟨_, frames, _⟩ := b
  cases frames <;> rfl

theorem textTail_withTop (nodes : List Node) (b : Builder) :
    (b.withTop nodes).textTail = b.textTail := by
  obtain ⟨_, frames, _⟩ := b
  cases frames <;> rfl

/-! ### Start tags that go on -/

theorem pushAll_frames (name : String) (nodes root children : List Node)
    (frames : List Frame) (p : Bool) (stats : Stats) :
    pushAll nodes ⟨root, ⟨name, children⟩ :: frames, false, p, stats⟩ =
      ⟨root, ⟨name, nodes.reverse ++ children⟩ :: frames, false, p, stats⟩ := by
  induction nodes generalizing children with
  | nil => rfl
  | cons n ns ih =>
    have later := ih (n :: children)
    rw [List.reverse_cons, List.append_assoc]
    exact later

/-- Opening an element is going on with the start tag of one that has just been opened. -/
theorem openElement_eq_continueTag (name : String) (attributes : List Attribute)
    (ending : TagEnd) (root : List Node) (frames : List Frame) (t p q : Bool) (stats : Stats) :
    openElement name attributes ending ⟨root, frames, t, p, stats⟩ =
      continueTag name attributes ending
        ⟨root, ⟨name, []⟩ :: frames, false, q, stats.countElement (frames.length + 2)⟩ := by
  have pushed := pushAll_frames name (attributes.map .ofAttribute) root [] frames q
    (stats.countElement (frames.length + 2))
  rw [List.append_nil] at pushed
  rw [continueTag, pushed]
  rfl

/-! ### States with corresponding nodes -/

/-- Two open elements of the same name whose children correspond. -/
structure FramesAlike (C : Node → Node → Prop) (f g : Frame) : Prop where
  name : f.name = g.name
  children : List.Forall₂ C f.children g.children

/-- Two states with corresponding nodes in the same places. -/
structure Aligned (C : Node → Node → Prop) (S : Stats → Stats → Prop) (b c : Builder) :
    Prop where
  root : List.Forall₂ C b.root c.root
  frames : List.Forall₂ (FramesAlike C) b.frames c.frames
  tagPending : b.tagPending = c.tagPending
  stats : S b.stats c.stats

/-- Two states that go on alike: where one would add to its newest text, the other would too, and
the texts are equal. -/
structure Alike (C : Node → Node → Prop) (S : Stats → Stats → Prop) (b c : Builder) : Prop
    extends Aligned C S b c where
  textTail : b.textTail = c.textTail
  tail : b.textTail = true →
    ∃ t ms ns, b.top = .text t :: ms ∧ c.top = .text t :: ns ∧ List.Forall₂ C ms ns

/-- Two halts for the same reason, with related counts. -/
structure HaltsAlike (S : Stats → Stats → Prop) (h k : Halt) : Prop where
  failure : h.failure = k.failure
  stats : S h.stats k.stats

variable {C : Node → Node → Prop} {S : Stats → Stats → Prop} {b c : Builder}

theorem Aligned.top (h : Aligned C S b c) : List.Forall₂ C b.top c.top := by
  obtain ⟨root, frames, _⟩ := b
  obtain ⟨root', frames', _⟩ := c
  obtain ⟨hroot, hframes, -, -⟩ := h
  cases hframes with
  | nil => exact hroot
  | cons hf _ => exact hf.children

theorem Aligned.withTop (h : Aligned C S b c) {ms ns : List Node} (hmn : List.Forall₂ C ms ns) :
    Aligned C S (b.withTop ms) (c.withTop ns) := by
  obtain ⟨root, frames, textTail, tagPending, stats⟩ := b
  obtain ⟨root', frames', textTail', tagPending', stats'⟩ := c
  obtain ⟨hroot, hframes, hpending, hstats⟩ := h
  cases hframes with
  | nil => exact ⟨hmn, .nil, hpending, hstats⟩
  | cons hf hfs => exact ⟨hroot, .cons ⟨hf.name, hmn⟩ hfs, hpending, hstats⟩

theorem Aligned.isEmpty_frames (h : Aligned C S b c) :
    b.frames.isEmpty = c.frames.isEmpty := by
  rw [Bool.eq_iff_iff, List.isEmpty_iff_length_eq_zero, List.isEmpty_iff_length_eq_zero,
    h.frames.length_eq]

theorem Aligned.names (h : Aligned C S b c) :
    b.frames.map Frame.name = c.frames.map Frame.name := by
  rw [← List.forall₂_eq_eq_eq, List.forall₂_map_left_iff, List.forall₂_map_right_iff]
  exact h.frames.imp fun _ _ hf => hf.name

theorem Aligned.push (h : Aligned C S b c) {m n : Node} (hmn : C m n) :
    Alike C S (b.push m) (c.push n) := by
  rw [push_eq_withTop, push_eq_withTop]
  have placed := h.withTop (.cons hmn h.top)
  exact ⟨⟨placed.root, placed.frames, placed.tagPending, placed.stats⟩, rfl, nofun⟩

theorem Alike.pushAll (h : Alike C S b c) {ms ns : List Node} (hmn : List.Forall₂ C ms ns) :
    Alike C S (b.pushAll ms) (c.pushAll ns) := by
  induction hmn generalizing b c with
  | nil => exact h
  | cons hm _ ih => exact ih (h.toAligned.push hm)

theorem Alike.extendTail (h : Alike C S b c) (keeps : Keeps C S) (ht : b.textTail = true)
    (more : String) : Alike C S (b.extendTail more) (c.extendTail more) := by
  obtain ⟨t, ms, ns, hb, hc, hmn⟩ := h.tail ht
  rw [extendTail_eq_withTop, extendTail_eq_withTop, hb, hc]
  refine ⟨h.toAligned.withTop (.cons (keeps.text _) hmn), ?_, ?_⟩
  · rw [textTail_withTop, textTail_withTop, h.textTail]
  · intro _
    exact ⟨t ++ more, ms, ns, top_withTop _ _, top_withTop _ _, hmn⟩

theorem Alike.addText (h : Alike C S b c) (keeps : Keeps C S) (rules : TextRules)
    (text : String) : Alike C S (b.addText rules text) (c.addText rules text) := by
  unfold Builder.addText
  rw [← h.isEmpty_frames, ← h.textTail]
  split
  · exact ⟨⟨h.root, h.frames, h.tagPending, keeps.countDropped h.stats⟩, rfl, h.tail⟩
  · split
    · next ht => exact h.extendTail keeps (Bool.and_eq_true_iff.1 ht).2 text
    · have placed := h.toAligned.withTop (.cons (keeps.text text) h.toAligned.top)
      rw [push_eq_withTop, push_eq_withTop]
      refine ⟨⟨placed.root, placed.frames, placed.tagPending, placed.stats⟩, rfl, ?_⟩
      intro _
      exact ⟨text, b.top, c.top, top_withTop _ b, top_withTop _ c, h.toAligned.top⟩

theorem Alike.closeInnermost (h : Alike C S b c) (keeps : Keeps C S) :
    Alike C S b.closeInnermost c.closeInnermost := by
  unfold Builder.closeInnermost
  cases hb : b.frames with
  | nil =>
    have hc : c.frames = [] := List.forall₂_nil_left_iff.1 (hb ▸ h.frames)
    rw [hc]
    exact h
  | cons f fs =>
    obtain ⟨g, gs, hfg, hfgs, hc⟩ := List.forall₂_cons_left_iff.1 (hb ▸ h.frames)
    rw [hc]
    have outer : Aligned C S { b with frames := fs } { c with frames := gs } :=
      ⟨h.root, hfgs, h.tagPending, h.stats⟩
    refine outer.push ?_
    rw [hfg.name]
    exact keeps.element _ (List.forall₂_reverse_iff.2 hfg.children)

theorem Alike.closeIfVoid (h : Alike C S b c) (keeps : Keeps C S) (name : String)
    (ending : TagEnd) : Alike C S (b.closeIfVoid name ending) (c.closeIfVoid name ending) := by
  unfold Builder.closeIfVoid
  split
  · exact h.closeInnermost keeps
  · exact h

theorem Keeps.attributes (keeps : Keeps C S) (attributes : List Attribute) :
    List.Forall₂ C (attributes.map .ofAttribute) (attributes.map .ofAttribute) := by
  rw [List.forall₂_same]
  rintro _ h
  obtain ⟨a, -, rfl⟩ := List.mem_map.1 h
  exact keeps.ofAttribute a

theorem Alike.openElement (h : Alike C S b c) (keeps : Keeps C S) (name : String)
    (attributes : List Attribute) (ending : TagEnd) :
    Alike C S (b.openElement name attributes ending) (c.openElement name attributes ending) := by
  rw [Builder.openElement]
  have opened : FramesAlike C ⟨name, (attributes.map .ofAttribute).reverse⟩
      ⟨name, (attributes.map .ofAttribute).reverse⟩ :=
    ⟨rfl, List.forall₂_reverse_iff.2 (keeps.attributes attributes)⟩
  refine Alike.closeIfVoid ?_ keeps name ending
  refine ⟨⟨h.root, .cons opened h.frames, rfl, ?_⟩, rfl, nofun⟩
  rw [h.frames.length_eq]
  exact keeps.countElement _ h.stats

theorem Alike.continueTag (h : Alike C S b c) (keeps : Keeps C S) (name : String)
    (attributes : List Attribute) (ending : TagEnd) :
    Alike C S (b.continueTag name attributes ending) (c.continueTag name attributes ending) := by
  rw [Builder.continueTag]
  have pushed := h.pushAll (keeps.attributes attributes)
  refine Alike.closeIfVoid ?_ keeps name ending
  exact ⟨⟨pushed.root, pushed.frames, rfl, pushed.stats⟩, pushed.textTail, pushed.tail⟩

theorem Alike.countToken (h : Alike C S b c) (keeps : Keeps C S) :
    Alike C S b.countToken c.countToken :=
  ⟨⟨h.root, h.frames, h.tagPending, keeps.countToken h.stats⟩, h.textTail, h.tail⟩

/-! ### Tokens and children -/

/-- Two replays end alike. -/
abbrev EndsAlike (C : Node → Node → Prop) (S : Stats → Stats → Prop) :
    Except Halt Builder → Except Halt Builder → Prop :=
  Parallel (HaltsAlike S) (Alike C S)

theorem Alike.closeElement (h : Alike C S b c) (keeps : Keeps C S) (found : String) :
    EndsAlike C S (b.closeElement found) (c.closeElement found) := by
  unfold Builder.closeElement
  cases hb : b.frames with
  | nil =>
    have hc : c.frames = [] := List.forall₂_nil_left_iff.1 (hb ▸ h.frames)
    rw [hc]
    exact .error ⟨rfl, h.stats⟩
  | cons f fs =>
    obtain ⟨g, gs, hfg, -, hc⟩ := List.forall₂_cons_left_iff.1 (hb ▸ h.frames)
    simp only [hc, hfg.name]
    split
    · exact .ok (h.closeInnermost keeps)
    · exact .error ⟨rfl, h.stats⟩

theorem parallel_step (keeps : Keeps C S) (h : Alike C S b c) (rules : TextRules)
    (token : Token) : EndsAlike C S (b.receive rules token) (c.receive rules token) := by
  have counted := h.countToken keeps
  cases token with
  | doctype text => exact .error ⟨rfl, counted.stats⟩
  | startTag name attributes ending => exact .ok (counted.openElement keeps name attributes ending)
  | endTag name => exact counted.closeElement keeps name
  | text text => exact .ok (counted.addText keeps rules text)
  | comment text => exact .ok counted
  | endOfInput => exact .ok counted

theorem parallel_steps (keeps : Keeps C S) (h : Alike C S b c) (rules : TextRules)
    (tokens : List Token) : EndsAlike C S (b.receiveAll rules tokens) (c.receiveAll rules tokens) :=
  Parallel.foldlM_same (fun _ _ token h => parallel_step keeps h rules token) tokens h

theorem parallel_firstStep (keeps : Keeps C S) (h : Alike C S b c) (rules : TextRules)
    (token : Token) :
    EndsAlike C S (b.receiveContinued rules token) (c.receiveContinued rules token) := by
  cases token with
  | startTag name attributes ending =>
    exact .ok ((h.countToken keeps).continueTag keeps name attributes ending)
  | doctype text => exact parallel_step keeps h rules (.doctype text)
  | endTag name => exact parallel_step keeps h rules (.endTag name)
  | text text => exact parallel_step keeps h rules (.text text)
  | comment text => exact parallel_step keeps h rules (.comment text)
  | endOfInput => exact parallel_step keeps h rules .endOfInput

theorem Aligned.pendingName? (h : Aligned C S b c) : b.pendingName? = c.pendingName? := by
  rw [Builder.pendingName?, Builder.pendingName?, h.tagPending, ← List.head?_map, h.names,
    List.head?_map]

theorem parallel_run (keeps : Keeps C S) (h : Alike C S b c) (rules : TextRules)
    (text : String) : EndsAlike C S (b.addRun rules text) (c.addRun rules text) := by
  rw [addRun]
  rw [h.pendingName?]
  have begun : Alike C S { b with tagPending := false, stats := b.stats.countRun }
      { c with tagPending := false, stats := c.stats.countRun } :=
    ⟨⟨h.root, h.frames, rfl, keeps.countRun h.stats⟩, h.textTail, h.tail⟩
  refine Parallel.bind (V := Alike C S) ?_ ?_
  · cases c.pendingName? with
    | none => exact parallel_steps keeps begun rules (tokens text)
    | some name =>
      simp only [receiveRun]
      cases tagRestTokens name text with
      | nil => exact .ok begun
      | cons first others =>
        exact (parallel_firstStep keeps begun rules first).bind fun _ _ h =>
          parallel_steps keeps h rules others
  · intro _ _ h
    exact .ok ⟨⟨h.root, h.frames, h.tagPending, h.stats⟩, rfl, nofun⟩

/-- A child that is neither markup nor an attribute is put in place. -/
theorem addChild_eq_push (rules : TextRules) (b : Builder) {n : Node} (hm : n.isMarkup = false)
    (ha : n.isAttr = false) : b.addChild rules n = .ok (b.push n) := by
  cases n with
  | markup _ => cases hm
  | attr _ _ => cases ha
  | _ => rfl

theorem parallel_child (keeps : Keeps C S) (h : Alike C S b c) (rules : TextRules) {m n : Node}
    (hmn : Corresponds C m n) : EndsAlike C S (b.addChild rules m) (c.addChild rules n) := by
  cases hmn with
  | @markup ps qs hpq =>
    simp only [addChild, hpq]
    exact parallel_run keeps h rules _
  | attr hmn =>
    simp only [addChild, h.isEmpty_frames]
    split
    · exact .error ⟨rfl, h.stats⟩
    · exact .ok (h.toAligned.push hmn)
  | carried hmn hm hn hm' hn' =>
    rw [addChild_eq_push rules b hm hm', addChild_eq_push rules c hn hn']
    exact .ok (h.toAligned.push hmn)

theorem parallel_children (keeps : Keeps C S) (h : Alike C S b c) (rules : TextRules)
    {ms ns : List Node} (hmn : List.Forall₂ (Corresponds C) ms ns) :
    EndsAlike C S (ms.foldlM (addChild rules) b) (ns.foldlM (addChild rules) c) := by
  refine Parallel.foldlM (X := Corresponds C) ?_ hmn h
  exact fun _ _ _ _ h hmn => parallel_child keeps h rules hmn

theorem parallel_end (h : Alike C S b c) : EndsAlike C S b.finish c.finish := by
  unfold finish
  rw [h.isEmpty_frames]
  split
  · exact .ok h
  · refine .error ⟨?_, h.stats⟩
    rw [openNames, openNames, h.names]

/-- What is built at the end of two replays that end alike. -/
theorem EndsAlike.built {x y : Except Halt Builder} (h : EndsAlike C S x y) :
    Parallel (HaltsAlike S)
      (fun x y : Built => List.Forall₂ C x.children y.children ∧ S x.stats y.stats)
      (do
        let finished ← (← x).finish
        return ⟨finished.root.reverse, finished.stats⟩)
      (do
        let finished ← (← y).finish
        return ⟨finished.root.reverse, finished.stats⟩) := by
  refine Parallel.bind h fun b c h => ?_
  refine Parallel.bind (parallel_end h) fun b c h => ?_
  exact .ok ⟨List.forall₂_reverse_iff.2 h.root, h.stats⟩

end Builder

/-- Replays of corresponding lists of children fail for the same reason, or put corresponding
nodes into the same places. -/
theorem parallel_build {C : Node → Node → Prop} {S : Stats → Stats → Prop}
    (keeps : Builder.Keeps C S) (rules : TextRules) {s u : Stats} (hsu : S s u)
    {ms ns : List Node} (hmn : List.Forall₂ (Corresponds C) ms ns) :
    Parallel (Builder.HaltsAlike S)
      (fun x y => List.Forall₂ C x.children y.children ∧ S x.stats y.stats)
      (build rules s ms) (build rules u ns) := by
  have started : Builder.Alike C S { stats := s } { stats := u } :=
    ⟨⟨.nil, .nil, rfl, hsu⟩, rfl, nofun⟩
  exact (Builder.parallel_children keeps started rules hmn).built

end MarkupTree
