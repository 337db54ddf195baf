import MarkupTree.Proofs.Lexing.Seam
import MarkupTree.Proofs.Replay.Correspondence
import MarkupTree.Proofs.Replay.Trail

/-!
# Markup nodes that are cut in two

If no start tag is pending before a markup node and its text is cut in two at a seam, the node may
be replaced by two, one for each part. The replay gets to the same children or to the same failure,
with the same counts but one markup node more, if the second part is reached at all (`build_split`).

Between lexemes the second part finds what the whole text finds there, except that a text of the
first part is no longer a text of the present markup node. That matters only where neighbouring
texts become one. Inside a start tag the first part leaves the tag pending with its attributes so
far, and going on with it is as good as opening the element with all of them
(`Builder.openElement_append`).

## Main definitions

* `replay` : a list of children, replayed from nothing.
* `MoreRuns` : counts that differ in some markup nodes.
* `Builder.untailed` : a state without regard to its newest text.

## Main results

* `Builder.receiveAll_untailed` : where texts stay apart, the newest text does not matter.
* `Builder.split_run` : one markup node and its two parts.
* `build_split` : whole lists of children.
-/

namespace MarkupTree

/-- Replays a list of children from nothing. -/
def replay (rules : TextRules) (stats : Stats) (children : List Node) : Except Halt Builder :=
  children.foldlM (Builder.addChild rules) { stats }

/-! ### Counts -/

/-- Counts `u` that are the counts `s` with `extra` markup nodes more. The tokens are not compared:
a text that is cut in two has an end of input more. -/
structure MoreRuns (extra : Nat) (s u : Stats) : Prop where
  visited : u.visited = s.visited
  rebuilt : u.rebuilt = s.rebuilt
  runs : u.runs = s.runs + extra
  elements : u.elements = s.elements
  dropped : u.dropped = s.dropped
  maxDepth : u.maxDepth = s.maxDepth

theorem MoreRuns.refl (s : Stats) : MoreRuns 0 s s := ⟨rfl, rfl, rfl, rfl, rfl, rfl⟩

theorem keeps_moreRuns (extra : Nat) : Builder.Keeps Eq (MoreRuns extra) where
  text _ := rfl
  ofAttribute _ := rfl
  element name _ _ h := by rw [List.forall₂_eq_eq_eq] at h; rw [h]
  countRun {s u} h := by
    have more : u.runs + 1 = s.runs + 1 + extra := by rw [h.runs, Nat.add_right_comm]
    exact ⟨h.visited, h.rebuilt, more, h.elements, h.dropped, h.maxDepth⟩
  countToken h := ⟨h.visited, h.rebuilt, h.runs, h.elements, h.dropped, h.maxDepth⟩
  countDropped h :=
    ⟨h.visited, h.rebuilt, h.runs, h.elements, congrArg (· + 1) h.dropped, h.maxDepth⟩
  countElement depth h := ⟨h.visited, h.rebuilt, h.runs, congrArg (· + 1) h.elements, h.dropped,
    congrArg (max · depth.toUInt32) h.maxDepth⟩

namespace Builder

variable {rules : TextRules} {b c : Builder}

/-! ### The newest text -/

/-- A state in which the newest node counts as no text of the present markup node. -/
def untailed (b : Builder) : Builder := { b with textTail := false }

theorem addText_untailed (hc : rules.coalesces = false) (b : Builder) (text : String) :
    (b.untailed.addText rules text).untailed = (b.addText rules text).untailed := by
  obtain ⟨root, frames, tail, pending, stats⟩ := b
  simp only [addText, untailed, hc, Bool.false_and, Bool.false_eq_true, if_false]
  split_ifs
  · rfl
  · cases frames <;> rfl

/-- Where texts stay apart, it does not matter for a token if the newest node is a text. -/
theorem receive_untailed (hc : rules.coalesces = false) (b : Builder) (token : Token) :
    untailed <$> b.untailed.receive rules token = untailed <$> b.receive rules token := by
  obtain ⟨root, frames, tail, pending, stats⟩ := b
  cases token with
  | startTag name attributes ending => rfl
  | text text =>
    exact congrArg Except.ok
      (addText_untailed hc ⟨root, frames, tail, pending, stats.countToken⟩ text)
  | endTag name =>
    cases frames with
    | nil => rfl
    | cons f fs =>
      simp only [receive, closeElement, countToken, untailed]
      split <;> rfl
  | doctype text => rfl
  | comment text => rfl
  | endOfInput => rfl

theorem receiveAll_untailed (hc : rules.coalesces = false) (b : Builder) (ts : List Token) :
    untailed <$> b.untailed.receiveAll rules ts = untailed <$> b.receiveAll rules ts := by
  refine Parallel.map_eq_map_iff.2 ?_
  refine Parallel.foldlM_same (V := fun d c => untailed d = untailed c) ?_ ts rfl
  intro d c token h
  have step := receive_untailed hc d token
  rw [h, receive_untailed hc c token] at step
  exact Parallel.map_eq_map_iff.1 step.symm

/-! ### Start tags that are cut in two -/

/-- A start tag that is cut off stays pending, with its attributes so far. -/
theorem openElement_cutOff (name : String) (attributes : List Attribute) (b : Builder) :
    b.openElement name attributes .cutOff =
      { b with
        frames := ⟨name, (attributes.map Node.ofAttribute).reverse⟩ :: b.frames
        textTail := false
        tagPending := true
        stats := b.stats.countElement (b.frames.length + 2) } := rfl

/-- Opening an element with all attributes is going on with one that was opened with some. -/
theorem openElement_append (name : String) (attributes others : List Attribute) (ending : TagEnd)
    (b : Builder) :
    b.openElement name (attributes ++ others) ending =
      continueTag name others ending
        { b.openElement name attributes .cutOff with tagPending := false } := by
  obtain ⟨root, frames, tail, pending, stats⟩ := b
  rw [openElement_cutOff, continueTag, pushAll_frames, openElement, List.map_append,
    List.reverse_append]

/-! ### One markup node -/

/-- A state that takes up a markup node. -/
def begun (b : Builder) : Builder := { b with tagPending := false, stats := b.stats.countRun }

theorem addRun_of_not_pending (hb : b.tagPending = false) (text : String) :
    b.addRun rules text = untailed <$> b.begun.receiveAll rules (tokens text) := by
  rw [addRun, pendingName?, hb]
  rfl

theorem addRun_of_pending {name text : String} {attributes : List Attribute} {ending : TagEnd}
    {ts : List Token} (hb : b.pendingName? = some name)
    (ht : tagRestTokens name text = .startTag name attributes ending :: ts) :
    b.addRun rules text =
      untailed <$> (b.begun.countToken.continueTag name attributes ending).receiveAll rules ts := by
  rw [addRun, hb, receiveRun, ht]
  rfl

/-- States that differ in their counts alone, and that have no text at the end. -/
theorem alike_of_moreRuns {extra : Nat} {stats : Stats} (h : MoreRuns extra b.stats stats)
    (ht : b.textTail = false) : Alike Eq (MoreRuns extra) b { b with stats := stats } where
  root := List.forall₂_refl b.root
  frames := List.forall₂_same.2 fun f _ => ⟨rfl, List.forall₂_refl f.children⟩
  tagPending := rfl
  stats := h
  textTail := rfl
  tail := fun htail => absurd (ht.symm.trans htail) Bool.false_ne_true

theorem EndsAlike.untailed {S : Stats → Stats → Prop} {x y : Except Halt Builder}
    (h : EndsAlike Eq S x y) : EndsAlike Eq S (untailed <$> x) (untailed <$> y) := by
  cases h with
  | error h => exact .error h
  | ok h => exact .ok ⟨⟨h.root, h.frames, h.tagPending, h.stats⟩, rfl, nofun⟩

/-- One end of input and one markup node more. -/
theorem moreRuns_countRun (s : Stats) : MoreRuns 1 s s.countToken.countRun :=
  ⟨rfl, rfl, rfl, rfl, rfl, rfl⟩

/-- A markup node that is cut in two between lexemes. -/
theorem split_between (hc : rules.coalesces = false) (hb : b.tagPending = false) {us : List Token}
    {second : String} (hs : tokens second = us) :
    EndsAlike Eq (MoreRuns 1) (untailed <$> b.receiveAll rules us)
      (b.countToken.untailed.addRun rules second) := by
  have settled : b.countToken.untailed.tagPending = false := hb
  rw [addRun_of_not_pending settled, hs, ← receiveAll_untailed hc]
  obtain ⟨root, frames, tail, pending, stats⟩ := b
  obtain rfl : pending = false := hb
  have begun := alike_of_moreRuns (b := untailed ⟨root, frames, tail, false, stats⟩)
    (moreRuns_countRun stats) rfl
  exact (parallel_steps (keeps_moreRuns 1) begun rules us).untailed

/-- A markup node that is cut in two inside a start tag. -/
theorem split_inTag {us : List Token} {name second : String} {attributes others : List Attribute}
    {ending : TagEnd} (hs : tagRestTokens name second = .startTag name others ending :: us) :
    EndsAlike Eq (MoreRuns 1)
      (untailed <$> (b.openElement name (attributes ++ others) ending).receiveAll rules us)
      ((b.openElement name attributes .cutOff).countToken.untailed.addRun rules second) := by
  have pending : (b.openElement name attributes .cutOff).countToken.untailed.pendingName? =
      some name := rfl
  have more : MoreRuns 1 (b.openElement name attributes .cutOff).stats
      (b.openElement name attributes .cutOff).stats.countToken.countRun.countToken :=
    ⟨rfl, rfl, rfl, rfl, rfl, rfl⟩
  have begun := alike_of_moreRuns
    (b := { b.openElement name attributes .cutOff with tagPending := false }) more rfl
  rw [addRun_of_pending pending hs, openElement_append]
  exact (parallel_steps (keeps_moreRuns 1)
    (begun.continueTag (keeps_moreRuns 1) name others ending) rules us).untailed

/-- A markup node and its two parts. If the first part is read without failure, so that the second
is reached, they end alike. Otherwise the whole fails as the first part does. -/
theorem split_run (hc : rules.coalesces = false) (hb : b.tagPending = false)
    {whole first second : String} (h : Halves whole first second) :
    (∃ c, b.addRun rules first = .ok c ∧
        EndsAlike Eq (MoreRuns 1) (b.addRun rules whole) (c.addRun rules second)) ∨
      ∃ halt, b.addRun rules first = .error halt ∧ b.addRun rules whole = .error halt := by
  have read (ts more : List Token) : b.begun.receiveAll rules (ts ++ more) =
      b.begun.receiveAll rules ts >>= fun d => d.receiveAll rules more := List.foldlM_append
  rw [addRun_of_not_pending hb, addRun_of_not_pending hb]
  cases h with
  | @between ts us hw hf hs ht =>
    rw [hw, hf, read, read]
    cases hd : b.begun.receiveAll rules ts with
    | error halt => exact .inr ⟨halt, rfl, rfl⟩
    | ok d =>
      have settled := tagPending_receiveAll ht rfl hd
      exact .inl ⟨d.countToken.untailed, rfl, split_between hc settled hs⟩
  | @inTag ts us name attributes others ending hw hf hs ht =>
    rw [hw, hf, read, read]
    cases hd : b.begun.receiveAll rules ts with
    | error halt => exact .inr ⟨halt, rfl, rfl⟩
    | ok d => exact .inl ⟨_, rfl, split_inTag hs⟩

end Builder

/-! ### Lists of children -/

section Replay

variable {rules : TextRules} {stats : Stats} {before : List Node}

/-- A list of children is built by its replay and by closing what is left open. -/
theorem build_eq_replay (children : List Node) :
    build rules stats children = do
      let finished ← (← replay rules stats children).finish
      return ⟨finished.root.reverse, finished.stats⟩ := rfl

theorem replay_append_of_error {halt : Halt} (hb : replay rules stats before = .error halt)
    (after : List Node) : replay rules stats (before ++ after) = .error halt := by
  rw [replay] at hb
  rw [replay, List.foldlM_append, hb]
  rfl

/-- A markup node after children that are replayed without failure. -/
theorem replay_markup {b : Builder} (hb : replay rules stats before = .ok b) (pieces : List String)
    (after : List Node) :
    replay rules stats (before ++ .markup pieces :: after) =
      b.addRun rules (String.join pieces) >>= fun c => after.foldlM (Builder.addChild rules) c := by
  rw [replay] at hb
  rw [replay, List.foldlM_append, hb]
  exact List.foldlM_cons (f := Builder.addChild rules)

end Replay

/-- A markup node before which no start tag is pending may be cut in two at a seam of its text,
where texts stay apart. The children that are built or the failure are the same, and so are the
counts but for the tokens and for one markup node more, if the second part is reached. -/
theorem build_split {rules : TextRules} (hc : rules.coalesces = false) {stats : Stats}
    {before after : List Node} {whole first second : List String}
    (hp : ∀ b, replay rules stats before = .ok b → b.tagPending = false)
    (hs : IsSeam (String.join whole).toList (String.join first).toList
      (String.join second).toList) :
    let reached := (replay rules stats (before ++ [.markup first])).isOk
    Parallel (Builder.HaltsAlike (MoreRuns reached.toNat))
      (fun x y => x.children = y.children ∧ MoreRuns reached.toNat x.stats y.stats)
      (build rules stats (before ++ .markup whole :: after))
      (build rules stats (before ++ .markup first :: .markup second :: after)) := by
  have halves := halves_of_isSeam hs
  simp only [String.ofList_toList] at halves
  rw [build_eq_replay, build_eq_replay]
  cases hb : replay rules stats before with
  | error halt =>
    rw [replay_append_of_error hb, replay_append_of_error hb, replay_append_of_error hb]
    exact .error ⟨rfl, .refl _⟩
  | ok b =>
    rw [replay_markup hb, replay_markup hb, replay_markup hb]
    rcases Builder.split_run hc (hp b hb) halves with ⟨c, hfirst, halike⟩ | ⟨halt, hfirst, hwhole⟩
    · rw [hfirst]
      have same : List.Forall₂ (Corresponds Eq) after after :=
        List.forall₂_same.2 fun _ _ => Corresponds.refl fun _ => rfl
      have later := halike.bind fun _ _ h =>
        Builder.parallel_children (keeps_moreRuns 1) h rules same
      exact (Builder.EndsAlike.built later).imp (fun _ _ h => h)
        fun _ _ h => ⟨List.forall₂_eq_eq_eq ▸ h.1, h.2⟩
    · -- The first part fails, so the second is not reached.
      rw [hfirst, hwhole]
      exact .error ⟨rfl, .refl _⟩

/-- A paragraph after a comment. -/
def hiddenParagraph : List String := ["<!--c--><p class=a", " hidden>1<br></p>"]

/-- The paragraph cut in two after its first attribute. -/
theorem isSeam_hiddenParagraph :
    IsSeam (String.join hiddenParagraph).toList (String.join ["<!--c--><p class=a"]).toList
      (String.join [" hidden>1<br></p>"]).toList := by
  have cut : TagCut " class=a hidden>1<br></p>".toList " class=a".toList
      " hidden>1<br></p>".toList :=
    .part nofun (.part nofun (.here _))
  have row : lex (String.join hiddenParagraph).toList =
      [⟨.comment "c", "<!--c-->".toList⟩] ++
        ⟨.startTag "p" [⟨"class", some "a"⟩, ⟨"hidden", none⟩] .plain,
          "<p class=a hidden>".toList⟩ ::
        [⟨.text "1", ['1']⟩, ⟨.startTag "br" [] .selfClosing, "<br>".toList⟩,
          ⟨.endTag "p", "</p>".toList⟩, ⟨.endOfInput, []⟩] := by
    decide +kernel
  have source : sourceOf (⟨.startTag "p" [⟨"class", some "a"⟩, ⟨"hidden", none⟩] .plain,
      "<p class=a hidden>".toList⟩ ::
        [⟨.text "1", ['1']⟩, ⟨.startTag "br" [] .selfClosing, "<br>".toList⟩,
          ⟨.endTag "p", "</p>".toList⟩, ⟨.endOfInput, []⟩]) =
      '<' :: "p class=a hidden>1<br></p>".toList := rfl
  exact IsSeam.inTag row rfl source cut

theorem build_split_hiddenParagraph :
    let before : List Node := [.foreign "if" "x" []]
    let apart : List Node := [.markup ["<!--c--><p class=a"], .markup [" hidden>1<br></p>"]]
    ∃ x y, build ⟨true, false⟩ {} (before ++ [.markup hiddenParagraph]) = .ok x ∧
      build ⟨true, false⟩ {} (before ++ apart) = .ok y ∧
      x.children = y.children ∧ MoreRuns 1 x.stats y.stats := by
  intro before apart
  have settled (b : Builder) (h : replay ⟨true, false⟩ {} before = .ok b) :
      b.tagPending = false := by
    cases h
    rfl
  have split := @build_split ⟨true, false⟩ rfl {} before [] _ _ _ settled isSeam_hiddenParagraph
  have succeeds : (build ⟨true, false⟩ {} (before ++ [.markup hiddenParagraph])).isOk = true := by
    decide +kernel
  cases hx : build ⟨true, false⟩ {} (before ++ [.markup hiddenParagraph]) with
  | error halt =>
    rw [hx] at succeeds
    cases succeeds
  | ok x =>
    have reached : (replay ⟨true, false⟩ {} (before ++ [.markup ["<!--c--><p class=a"]])).isOk =
        true := by decide +kernel
    obtain ⟨y, hy, hchildren, hstats⟩ := split.exists_of_ok_left hx
    rw [reached] at hstats
    exact ⟨x, y, rfl, hy, hchildren, hstats⟩

end MarkupTree
