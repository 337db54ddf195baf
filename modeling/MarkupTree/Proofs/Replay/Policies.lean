import MarkupTree.Proofs.Replay.Tracing

/-!
# What a policy for texts changes

Two replays of one list of children under different rules for texts go through it in step: the same
elements are open, and all is counted alike but for the texts that are dropped (`Builder.InStep`).
So they fail for the same reason, or both succeed. Then the children say the same under both rules,
hence what is built is one and the same traced forest, shown in two ways
(`parallel_build_rules`).

What a policy does is read off from there. Eliding white space leaves out trees at the top of the
forest and nothing else (`build_rootWhitespace`), and coalescing makes one text of each group of
neighbouring texts of one markup node (`build_coalesced`).

## Main definitions

* `Stats.exceptDropped` : counts without regard to the texts that were dropped.
* `Builder.InStep` : two states with the same elements open and with counts that differ in nothing
  else.

## Main results

* `Builder.InStep.receive`, `Builder.InStep.addChild` : replays stay in step over a token and a
  child.
* `parallel_build_rules` : two rules for texts.
* `build_rootWhitespace` : a policy for white space right under the root.
* `build_coalesced` : texts put together and kept apart.
-/

namespace MarkupTree

/-- Counts without regard to the texts that were dropped. -/
def Stats.exceptDropped (s : Stats) : Stats := { s with dropped := 0 }

namespace Builder

variable {b c d e : Builder} {rules others : TextRules}

/-! ### Counts -/

@[simp] theorem stats_push (node : Node) (b : Builder) : (b.push node).stats = b.stats := by
  rw [push]
  split <;> rfl

@[simp] theorem stats_pushAll (nodes : List Node) (b : Builder) :
    (b.pushAll nodes).stats = b.stats := by
  induction nodes generalizing b with
  | nil => rfl
  | cons n ns ih => exact (ih (b.push n)).trans (stats_push n b)

@[simp] theorem stats_extendTail (more : String) (b : Builder) :
    (b.extendTail more).stats = b.stats := by
  rw [extendTail]
  split <;> rfl

@[simp] theorem stats_closeInnermost (b : Builder) : b.closeInnermost.stats = b.stats := by
  rw [closeInnermost]
  split
  · rfl
  · exact stats_push _ _

@[simp] theorem stats_closeIfVoid (name : String) (ending : TagEnd) (b : Builder) :
    (b.closeIfVoid name ending).stats = b.stats := by
  rw [closeIfVoid]
  split
  · exact stats_closeInnermost b
  · rfl

@[simp] theorem stats_continueTag (name : String) (attributes : List Attribute) (ending : TagEnd)
    (b : Builder) : (b.continueTag name attributes ending).stats = b.stats := by
  rw [continueTag, stats_closeIfVoid]
  exact stats_pushAll _ b

/-- An element is counted with the number of entries that are open with it. -/
theorem stats_openElement (name : String) (attributes : List Attribute) (ending : TagEnd)
    (b : Builder) :
    (b.openElement name attributes ending).stats =
      b.stats.countElement (b.trail.names.length + 2) := by
  rw [openElement, stats_closeIfVoid, trail_names, List.length_map]

/-- A text counts for nothing but for itself, if it is dropped. -/
theorem exceptDropped_addText (rules : TextRules) (text : String) (b : Builder) :
    (b.addText rules text).stats.exceptDropped = b.stats.exceptDropped := by
  rw [addText]
  split
  · rfl
  · split
    · rw [stats_extendTail]
    · rw [stats_push]

/-! ### Replays in step -/

/-- Two states with the same elements open, and with the same counts but for the texts that were
dropped. -/
structure InStep (b c : Builder) : Prop where
  trail : b.trail = c.trail
  stats : b.stats.exceptDropped = c.stats.exceptDropped

/-- Two replays fail for the same reason, or they are in step. -/
abbrev EndInStep : Except Halt Builder → Except Halt Builder → Prop :=
  Parallel (fun h k => h.failure = k.failure) InStep

/-- Two replays that go along one walk are in step if their counts are the same. -/
theorem AlongTrail.endInStep {x y : Except Halt Builder} {t : Except Failure Trail}
    (hx : AlongTrail x t) (hy : AlongTrail y t)
    (h : ∀ b c, x = .ok b → y = .ok c → b.stats.exceptDropped = c.stats.exceptDropped) :
    EndInStep x y := by
  refine (hx.of_right hy).with_eq.imp ?_ ?_
  · rintro _ _ ⟨_, rfl, hfailure⟩
    exact hfailure.symm
  · rintro b c ⟨⟨_, rfl, htrail⟩, hb, hc⟩
    exact ⟨htrail.symm, h b c hb hc⟩

theorem InStep.countToken (h : InStep b c) : InStep b.countToken c.countToken :=
  ⟨h.trail, congrArg Stats.countToken h.stats⟩

theorem InStep.continueTag (h : InStep b c) (name : String) (attributes : List Attribute)
    (ending : TagEnd) :
    InStep (b.continueTag name attributes ending) (c.continueTag name attributes ending) where
  trail := by rw [trail_continueTag, trail_continueTag, h.trail]
  stats := by rw [stats_continueTag, stats_continueTag, h.stats]

/-- What a token counts for depends on the open elements alone. -/
theorem InStep.exceptDropped_receive (h : InStep b c) {token : Token}
    (hb : b.receive rules token = .ok d) (hc : c.receive others token = .ok e) :
    d.stats.exceptDropped = e.stats.exceptDropped := by
  have counted := h.countToken.stats
  cases token with
  | doctype text => cases hb
  | startTag name attributes ending =>
    cases hb
    cases hc
    have element := congrArg (Stats.countElement · (b.trail.names.length + 2)) counted
    rw [stats_openElement, stats_openElement, trail_countToken, trail_countToken, ← h.trail]
    exact element
  | endTag name =>
    obtain ⟨_, _, -, -, rfl⟩ := exists_of_closeElement hb
    obtain ⟨_, _, -, -, rfl⟩ := exists_of_closeElement hc
    rw [stats_closeInnermost, stats_closeInnermost, counted]
  | text text =>
    cases hb
    cases hc
    rw [exceptDropped_addText, exceptDropped_addText, counted]
  | comment text | endOfInput =>
    cases hb
    cases hc
    exact counted

/-- Replays stay in step over a token. -/
theorem InStep.receive (h : InStep b c) (rules others : TextRules) (token : Token) :
    EndInStep (b.receive rules token) (c.receive others token) := by
  have walked := parallel_receive others c token
  rw [← h.trail] at walked
  exact (parallel_receive rules b token).endInStep walked
    fun _ _ hb hc => h.exceptDropped_receive hb hc

theorem InStep.receiveAll (h : InStep b c) (rules others : TextRules) (tokens : List Token) :
    EndInStep (b.receiveAll rules tokens) (c.receiveAll others tokens) :=
  Parallel.foldlM_same (fun _ _ token h => h.receive rules others token) tokens h

theorem InStep.receiveContinued (h : InStep b c) (rules others : TextRules) (token : Token) :
    EndInStep (b.receiveContinued rules token) (c.receiveContinued others token) := by
  unfold Builder.receiveContinued
  split
  · next name attributes ending => exact .ok (h.countToken.continueTag name attributes ending)
  · exact h.receive rules others token

theorem InStep.pendingName? (h : InStep b c) : b.pendingName? = c.pendingName? := by
  rw [← trail_pendingName?, h.trail, trail_pendingName?]

/-- Replays stay in step over a markup node. -/
theorem InStep.addRun (h : InStep b c) (rules others : TextRules) (text : String) :
    EndInStep (b.addRun rules text) (c.addRun others text) := by
  have begun : InStep { b with tagPending := false, stats := b.stats.countRun }
      { c with tagPending := false, stats := c.stats.countRun } :=
    ⟨congrArg (fun t : Trail => { t with tagPending := false }) h.trail,
      congrArg Stats.countRun h.stats⟩
  rw [Builder.addRun, Builder.addRun, h.pendingName?]
  refine Parallel.bind (V := InStep) ?_ fun _ _ h => .ok ⟨h.trail, h.stats⟩
  cases c.pendingName? with
  | none => exact begun.receiveAll rules others (tokens text)
  | some name =>
    simp only [receiveRun]
    cases tagRestTokens name text with
    | nil => exact .ok begun
    | cons first more =>
      exact (begun.receiveContinued rules others first).bind
        fun _ _ h => h.receiveAll rules others more

theorem InStep.isEmpty_frames (h : InStep b c) : b.frames.isEmpty = c.frames.isEmpty := by
  rw [← List.isEmpty_map (f := Frame.name), ← trail_names, h.trail, trail_names, List.isEmpty_map]

/-- Replays stay in step over a child. -/
theorem InStep.addChild (h : InStep b c) (rules others : TextRules) (child : Node) :
    EndInStep (b.addChild rules child) (c.addChild others child) := by
  have put (n : Node) : InStep (b.push n) (c.push n) :=
    ⟨by rw [trail_push, trail_push, h.trail], by rw [stats_push, stats_push, h.stats]⟩
  cases child with
  | markup pieces => exact h.addRun rules others (String.join pieces)
  | attr name parts =>
    rw [Builder.addChild, Builder.addChild, h.isEmpty_frames]
    split
    · exact .error rfl
    · exact .ok (put _)
  | _ => exact .ok (put _)

theorem InStep.finish (h : InStep b c) : EndInStep b.finish c.finish := by
  rw [Builder.finish, Builder.finish, h.isEmpty_frames]
  split
  · exact .ok h
  · have names := congrArg (fun t : Trail => t.names.reverse) h.trail
    exact .error (congrArg Failure.unbalancedTree names)

end Builder

/-! ### Two rules for texts -/

/-- Whatever the rules for texts are, a list of children has no structure for the same reason, or it
is built into the same traced forest, which the rules show in their own ways. The counts differ in
nothing but the texts that are dropped. -/
theorem parallel_build_rules (rules others : TextRules) (stats : Stats) (children : List Node) :
    Parallel (fun h k => h.failure = k.failure)
      (fun x y => x.stats.exceptDropped = y.stats.exceptDropped ∧
        ∃ forest, Traces forest children ∧
          x.children = Traced.nodes (rules.shown forest) ∧
          x.stats.dropped = stats.dropped + rules.droppedCount forest ∧
          y.children = Traced.nodes (others.shown forest) ∧
          y.stats.dropped = stats.dropped + others.droppedCount forest)
      (build rules stats children) (build others stats children) := by
  have started : Builder.InStep { stats } { stats } := ⟨rfl, rfl⟩
  have replays := Parallel.foldlM_same
    (fun _ _ child h => Builder.InStep.addChild h rules others child) children started
  have counts : Parallel (fun h k => h.failure = k.failure)
      (fun x y : Built => x.stats.exceptDropped = y.stats.exceptDropped)
      (build rules stats children) (build others stats children) :=
    replays.bind fun _ _ h => h.finish.bind fun _ _ h => .ok h.stats
  refine counts.with_eq.imp (fun _ _ h => h) ?_
  rintro x y ⟨hstats, hx, hy⟩
  obtain ⟨forest, hforest, hchildren, hdropped⟩ := traces_build hx
  obtain ⟨other, hother, hchildren', hdropped'⟩ := traces_build hy
  -- Both forests say what the children say, so they are one.
  obtain rfl := hforest.unique hother
  exact ⟨hstats, forest, hforest, hchildren, hdropped, hchildren', hdropped'⟩

theorem Stats.eq_of_exceptDropped {s u : Stats} (h : s.exceptDropped = u.exceptDropped) :
    s = { u with dropped := s.dropped } := by
  obtain ⟨_, _, _, _, _, _, _⟩ := s
  obtain ⟨_, _, _, _, _, _, _⟩ := u
  cases h
  rfl

/-- A policy that elides white space under this root leaves out the texts of markup nodes that stand
right under the root and consist of white space. Each of them is counted, nothing else is
left out, and nothing else is counted differently. Any other policy makes no difference. -/
theorem build_rootWhitespace (choice : RootWhitespace) (root : Node) (stats : Stats)
    (children : List Node) :
    let chosen := build (Policy.rules ⟨choice, false⟩ root) stats children
    let preserved := build (Policy.rules ⟨.preserve, false⟩ root) stats children
    if choice = .elide ∨ choice = .methodScopeOnly ∧ root.isMethod then
      Parallel (fun h k => h.failure = k.failure)
        (fun x y => ∃ forest, Traces forest children ∧
          y.children = Traced.nodes forest ∧
          x.children = Traced.nodes (forest.filter fun g => !g.isWhite) ∧
          y.stats.dropped = stats.dropped ∧
          x.stats = { y.stats with dropped := stats.dropped + forest.countP Traced.isWhite })
        chosen preserved
    else chosen = preserved := by
  intro chosen preserved
  split
  · next helides =>
    have elides : Policy.rules ⟨choice, false⟩ root = ⟨true, false⟩ := by
      rcases helides with rfl | ⟨rfl, hroot⟩
      · rfl
      · rw [Policy.rules, hroot]
    have both := parallel_build_rules ⟨true, false⟩ ⟨false, false⟩ stats children
    rw [← elides] at both
    refine both.imp (fun _ _ h => h) ?_
    rintro x y ⟨hstats, forest, hforest, hx, hxdropped, hy, hydropped⟩
    rw [elides] at hx hxdropped
    refine ⟨forest, hforest, hy, hx, hydropped, ?_⟩
    rw [Stats.eq_of_exceptDropped hstats, hxdropped]
    rfl
  · next hkeeps =>
    have keeps : Policy.rules ⟨choice, false⟩ root = Policy.rules ⟨.preserve, false⟩ root := by
      cases choice with
      | elide => exact absurd (.inl rfl) hkeeps
      | preserve => rfl
      | methodScopeOnly =>
        have other : root.isMethod = false := by simpa using hkeeps
        rw [Policy.rules, other]
        rfl
    exact congrArg (build · stats children) keeps

/-- Coalescing makes one text of every group of neighbouring texts of one markup node, as large as
it can be, and changes nothing else. After it no such neighbours are left at any depth. -/
theorem build_coalesced (choice : RootWhitespace) (root : Node) (stats : Stats)
    (children : List Node) :
    Parallel (fun h k => h.failure = k.failure)
      (fun x y => x.stats = y.stats ∧
        ∃ forest, Traces forest children ∧
          let apart := (Policy.rules ⟨choice, false⟩ root).kept forest
          x.children = Traced.nodes apart ∧
          y.children = Traced.nodes (Traced.joinTexts apart) ∧
          Traced.AllJoined (Traced.joinTexts apart))
      (build (Policy.rules ⟨choice, false⟩ root) stats children)
      (build (Policy.rules ⟨choice, true⟩ root) stats children) := by
  have both := parallel_build_rules (Policy.rules ⟨choice, false⟩ root)
    (Policy.rules ⟨choice, true⟩ root) stats children
  refine both.imp (fun _ _ h => h) ?_
  rintro x y ⟨hstats, forest, hforest, hx, hxdropped, hy, hydropped⟩
  have dropped : x.stats.dropped = y.stats.dropped := hxdropped.trans hydropped.symm
  refine ⟨?_, forest, hforest, hx, hy, Traced.allJoined_joinTexts _⟩
  rw [Stats.eq_of_exceptDropped hstats, dropped]

end MarkupTree
