import MarkupTree.Proofs.Lexing.Order
import MarkupTree.Proofs.Replay.Events

/-!
# A replay keeps all that it is told

If texts are not put together, then the forest that a replay builds has exactly the events of the
list of children, in their order (`linearise_build`).

The state of a replay has not yet put its open elements in place, but it says what they hold:
first what stands right under the root, then, from the outermost open element to the innermost,
that the element is opened, and what was put into it (`Grows`). A token or a child adds its events
at the end of that. Ending an element adds its end, which says nothing if the element is void; so
an end tag must never find a void element open, and a void element may be open only while its own
start tag is pending (`Trail.IsSound`).

## Main definitions

* `Grows` : the events of open elements and of what is under the root.
* `Trail.IsSound` : no void element is open, except one whose start tag is pending.
* `Builder.Faithful` : the state of a replay has some events, beside its trail.

## Main results

* `Builder.Faithful.receive`, `Builder.Faithful.receiveAll` : a token, and the tokens of a text.
* `Builder.Faithful.addChild` : a child.
* `linearises_build`, `linearise_build` : a whole list of children.
-/

namespace MarkupTree

/-! ### What open elements hold -/

/-- What is right under the root and in the open elements, the innermost first, has these
events. -/
inductive Grows (root : List Node) : List Frame → List Event → Prop
  | root {es : List Event} (h : Linearises root.reverse es) : Grows root [] es
  | frame {f : Frame} {fs : List Frame} {es inner : List Event} (outer : Grows root fs es)
      (h : Linearises f.children.reverse inner) :
      Grows root (f :: fs) (es ++ .opening f.name :: inner)

namespace Builder

variable {b c : Builder} {es more : List Event}

/-- The nodes in place so far have these events. -/
def Tells (b : Builder) (es : List Event) : Prop := Grows b.root b.frames es

theorem Tells.push (h : b.Tells es) {n : Node} (hn : Linearises [n] more) :
    (b.push n).Tells (es ++ more) := by
  obtain ⟨root, frames, textTail, tagPending, stats⟩ := b
  cases h with
  | root h =>
    have put := h.append hn
    rw [← List.reverse_cons] at put
    exact .root put
  | @frame f fs es inner outer h =>
    have put := h.append hn
    rw [← List.reverse_cons] at put
    rw [List.append_assoc, List.cons_append]
    exact outer.frame (f := ⟨f.name, n :: f.children⟩) put

theorem Tells.pushAll (h : b.Tells es) (attributes : List Attribute) :
    (b.pushAll (attributes.map .ofAttribute)).Tells (es ++ attributeEvents attributes) := by
  induction attributes generalizing b es with
  | nil =>
    have none : es ++ attributeEvents [] = es := List.append_nil es
    rw [none]
    exact h
  | cons a as ih =>
    have later := ih (h.push (Linearises.leaf (.ofAttribute a)))
    rw [List.append_assoc] at later
    exact later

/-- Ending the innermost element adds its end. -/
theorem Tells.closeInnermost (h : b.Tells es) {f : Frame} {fs : List Frame}
    (hf : b.frames = f :: fs) : b.closeInnermost.Tells (es ++ Grown.endEvents f.name) := by
  obtain ⟨root, frames, textTail, tagPending, stats⟩ := b
  obtain rfl := hf
  cases h with
  | @frame _ _ es inner outer h =>
    have outside : Builder.Tells ⟨root, fs, textTail, tagPending, stats⟩ es := outer
    have put := outside.push (h.element f.name)
    rw [List.append_assoc, List.cons_append]
    exact put

/-- An element that ends with its start tag is void, so its end says nothing. -/
theorem Tells.closeIfVoid (h : b.Tells es) {f : Frame} {fs : List Frame}
    (hf : b.frames = f :: fs) (ending : TagEnd) : (b.closeIfVoid f.name ending).Tells es := by
  rw [Builder.closeIfVoid]
  split
  · next hv =>
    have closed := h.closeInnermost hf
    rw [Grown.endEvents, if_pos hv.2, List.append_nil] at closed
    exact closed
  · exact h

theorem Tells.openElement (h : b.Tells es) (name : String) (attributes : List Attribute)
    (ending : TagEnd) :
    (b.openElement name attributes ending).Tells
      (es ++ .opening name :: attributeEvents attributes) := by
  have inside : Linearises (attributes.map Node.ofAttribute).reverse.reverse
      (attributeEvents attributes) := by
    rw [List.reverse_reverse]
    exact Linearises.attributes attributes
  refine Tells.closeIfVoid (f := ⟨name, (attributes.map .ofAttribute).reverse⟩) ?_ rfl ending
  exact h.frame (f := ⟨name, (attributes.map .ofAttribute).reverse⟩) inside

theorem frames_pushAll {f : Frame} {fs : List Frame} (nodes : List Node) {b : Builder}
    (hf : b.frames = f :: fs) :
    ∃ children, (b.pushAll nodes).frames = ⟨f.name, children⟩ :: fs := by
  induction nodes generalizing b f with
  | nil => exact ⟨f.children, hf⟩
  | cons n ns ih =>
    have pushed : (b.push n).frames = ⟨f.name, n :: f.children⟩ :: fs := by
      simp only [Builder.push, hf]
    exact ih (f := ⟨f.name, n :: f.children⟩) pushed

theorem Tells.continueTag (h : b.Tells es) {f : Frame} {fs : List Frame}
    (hf : b.frames = f :: fs) (attributes : List Attribute) (ending : TagEnd) :
    (b.continueTag f.name attributes ending).Tells (es ++ attributeEvents attributes) := by
  obtain ⟨children, hc⟩ := frames_pushAll (attributes.map .ofAttribute) hf
  have continued : Builder.Tells { b.pushAll (attributes.map Node.ofAttribute) with
      tagPending := ending == .cutOff } (es ++ attributeEvents attributes) := h.pushAll attributes
  exact continued.closeIfVoid (f := ⟨f.name, children⟩) hc ending

theorem Tells.addText (h : b.Tells es) {rules : TextRules} (hc : rules.coalesces = false)
    (text : String) :
    (b.addText rules text).Tells (es ++ b.trail.tokenEvents rules (.text text)) := by
  simp only [Builder.addText, Trail.tokenEvents, trail_names, List.isEmpty_map, hc,
    Bool.false_and]
  split
  · rw [List.append_nil]
    exact h
  · exact h.push (.leaf (.text text))

end Builder

/-! ### Sound trails -/

namespace Trail

/-- The names of the open elements whose start tags have ended. -/
def settledNames (t : Trail) : List String := if t.tagPending then t.names.tail else t.names

/-- No void element is open, except one whose start tag is pending. -/
def IsSound (t : Trail) : Prop := ∀ name ∈ t.settledNames, isVoid name = false

variable {t : Trail}

theorem IsSound.of_not_pending (h : t.IsSound) (hp : t.tagPending = false) :
    ∀ name ∈ t.names, isVoid name = false := by
  simpa only [IsSound, settledNames, hp, Bool.false_eq_true, if_false] using h

theorem IsSound.tail (h : t.IsSound) : ∀ name ∈ t.names.tail, isVoid name = false := by
  intro name hn
  refine h name ?_
  rw [settledNames]
  split
  · exact hn
  · exact List.mem_of_mem_tail hn

/-- A pending start tag leaves all names outside it settled; an ended one leaves all settled. -/
theorem isSound_of (names : List String) (p : Bool) (h : ∀ name ∈ names.tail, isVoid name = false)
    (hp : p = false → ∀ name ∈ names.head?, isVoid name = false) : IsSound ⟨names, p⟩ := by
  intro name hn
  cases p with
  | true => exact h name hn
  | false =>
    cases names with
    | nil => cases hn
    | cons first others =>
      rcases List.mem_cons.1 hn with rfl | hn
      · exact hp rfl name rfl
      · exact h name hn

theorem isSound_empty : IsSound {} := nofun

/-- An element that stays open after its start tag has ended is not void, if the tags of void
elements close themselves. -/
theorem isVoid_eq_false_of_open {name : String} {ending : TagEnd}
    (hv : isVoid name → ending ≠ .plain) (hopen : ¬(ending = .selfClosing ∧ isVoid name))
    (hcut : (ending == .cutOff) = false) : isVoid name = false := by
  by_contra hvoid
  have void : isVoid name = true := by simpa using hvoid
  cases ending with
  | plain => exact hv void rfl
  | selfClosing => exact hopen ⟨rfl, void⟩
  | cutOff => cases hcut

theorem IsSound.afterStartTag (h : t.IsSound) (hp : t.tagPending = false) {name : String}
    {ending : TagEnd} (hv : isVoid name → ending ≠ .plain) :
    (t.afterStartTag name ending).IsSound := by
  have outside := h.of_not_pending hp
  rw [Trail.afterStartTag]
  split
  · exact isSound_of _ _ (fun n hn => outside n (List.mem_of_mem_tail hn))
      fun _ n hn => outside n (List.mem_of_mem_head? hn)
  · next hopen =>
    refine isSound_of _ _ outside fun hcut n hn => ?_
    cases hn
    exact isVoid_eq_false_of_open hv hopen hcut

theorem IsSound.afterResumedTag (h : t.IsSound) {name : String} {ending : TagEnd}
    (hn : t.names.head? = some name) (hv : isVoid name → ending ≠ .plain) :
    (t.afterResumedTag name ending).IsSound := by
  have outside := h.tail
  rw [Trail.afterResumedTag]
  split
  · exact isSound_of _ _ (fun n hn => outside n (List.mem_of_mem_tail hn))
      fun _ n hn => outside n (List.mem_of_mem_head? hn)
  · next hopen =>
    refine isSound_of _ _ outside fun hcut n hhead => ?_
    obtain rfl : name = n := Option.some.inj (hn.symm.trans hhead)
    exact isVoid_eq_false_of_open hv hopen hcut

theorem head?_of_pendingName? {name : String} (h : t.pendingName? = some name) :
    t.names.head? = some name := by
  rw [pendingName?] at h
  split at h
  · exact h
  · cases h

/-- Without a pending start tag no void element is open. -/
theorem IsSound.of_pendingName? (h : t.IsSound) (hn : t.pendingName? = none) :
    ∀ name ∈ t.names, isVoid name = false := by
  intro name hname
  refine h name ?_
  cases hp : t.tagPending with
  | false => rwa [settledNames, hp]
  | true =>
    simp only [pendingName?, hp, if_true, List.head?_eq_none_iff] at hn
    rw [hn] at hname
    cases hname

theorem tagPending_afterResumedTag {name : String} {ending : TagEnd} (h : ending ≠ .cutOff) :
    (t.afterResumedTag name ending).tagPending = false := by
  rw [afterResumedTag]
  split
  · rfl
  · exact beq_eq_false_iff_ne.2 h

end Trail

/-! ### A replay beside its events -/

namespace Builder

/-- The state of a replay has the events `es`, and its trail `t` is sound. -/
structure Faithful (b : Builder) (es : List Event) (t : Trail) : Prop where
  tells : b.Tells es
  trail : b.trail = t
  sound : t.IsSound

variable {b c : Builder} {es : List Event} {t : Trail} {rules : TextRules}

theorem exists_of_closeElement {found : String} (h : b.closeElement found = .ok c) :
    ∃ f fs, b.frames = f :: fs ∧ f.name = found ∧ c = b.closeInnermost := by
  rw [closeElement] at h
  split at h
  · cases h
  · next f fs hf =>
    split at h
    · next hname => exact ⟨f, fs, hf, hname, (Except.ok.inj h).symm⟩
    · cases h

/-- A token adds its events. -/
theorem Faithful.receive (h : b.Faithful es t) (hc : rules.coalesces = false)
    (hp : t.tagPending = false) {token : Token} (hv : token.EndsVoid)
    (hr : b.receive rules token = .ok c) :
    c.Faithful (es ++ t.tokenEvents rules token) (t.after token) := by
  have walked : c.trail = t.after token := by
    obtain ⟨t', ht, hct⟩ := (parallel_receive rules b token).exists_of_ok_left hr
    rw [h.trail] at ht
    exact hct.trans (Trail.eq_after_of_pass ht)
  have counted : b.countToken.Tells es := h.tells
  cases token with
  | doctype text => cases hr
  | startTag name attributes ending =>
    cases hr
    exact ⟨counted.openElement name attributes ending, walked,
      h.sound.afterStartTag hp hv⟩
  | endTag name =>
    obtain ⟨f, fs, hf, rfl, rfl⟩ := exists_of_closeElement hr
    have names : t.names = f.name :: fs.map Frame.name := by
      rw [← h.trail, trail_names, ← List.map_cons]
      exact congrArg _ hf
    have settled := h.sound.of_not_pending hp
    rw [names] at settled
    have closed := counted.closeInnermost hf
    rw [Grown.endEvents, settled f.name List.mem_cons_self] at closed
    refine ⟨closed, walked, Trail.isSound_of _ _ ?_ ?_⟩
    · intro n hn
      rw [names] at hn
      exact settled n (List.mem_cons_of_mem _ (List.mem_of_mem_tail hn))
    · intro _ n hn
      rw [names] at hn
      exact settled n (List.mem_cons_of_mem _ (List.mem_of_mem_head? hn))
  | text text =>
    cases hr
    have told := counted.addText hc text
    rw [trail_countToken, h.trail] at told
    exact ⟨told, walked, h.sound⟩
  | comment text | endOfInput =>
    cases hr
    refine ⟨?_, walked, h.sound⟩
    rw [Trail.tokenEvents, List.append_nil]
    exact counted

/-- The tokens of a text add their events. -/
theorem Faithful.receiveAll (h : b.Faithful es t) (hc : rules.coalesces = false)
    (hp : t.tagPending = false) {tokens : List Token} (ho : Orderly tokens)
    (hr : b.receiveAll rules tokens = .ok c) :
    c.Faithful (es ++ t.tokensEvents rules tokens) (tokens.foldl Trail.after t) := by
  induction ho generalizing b es t with
  | finish =>
    obtain ⟨d, hd, hr⟩ := bind_eq_ok_iff.1 hr
    cases hr
    have ends : Token.EndsVoid .endOfInput := trivial
    have received := h.receive hc hp ends hd
    rw [Trail.tokensEvents, Trail.tokensEvents, List.append_nil]
    exact received
  | cutOff name attributes =>
    -- The tag is pending now, so the end of input is no case of `Faithful.receive`.
    obtain ⟨d, hd, hr⟩ := bind_eq_ok_iff.1 hr
    obtain ⟨e, he, hr⟩ := bind_eq_ok_iff.1 hr
    cases hr
    cases he
    have ends : Token.EndsVoid (.startTag name attributes .cutOff) := fun _ => by decide
    have received := h.receive hc hp ends hd
    have same : es ++ t.tokensEvents rules [.startTag name attributes .cutOff, .endOfInput] =
        es ++ t.tokenEvents rules (.startTag name attributes .cutOff) := by
      simp only [Trail.tokensEvents, Trail.tokenEvents, List.append_nil]
    rw [same]
    exact ⟨received.tells, received.trail, received.sound⟩
  | @cons token others whole _ ih =>
    obtain ⟨d, hd, hr⟩ := bind_eq_ok_iff.1 hr
    have received := h.receive hc hp whole.endsVoid hd
    have later := ih received (Trail.tagPending_after whole.isCutOff hp) hr
    rw [List.append_assoc] at later
    exact later

/-- The rest of a pending start tag adds its attributes. What was counted, and whether the tag is
still marked as pending, plays no part. -/
theorem Faithful.continueTag (h : b.Faithful es t) {name : String}
    (hn : t.names.head? = some name) (attributes : List Attribute) {ending : TagEnd}
    (hv : isVoid name → ending ≠ .plain) (p : Bool) (s : Stats) :
    Faithful (continueTag name attributes ending { b with tagPending := p, stats := s })
      (es ++ attributeEvents attributes) (t.afterResumedTag name ending) := by
  have names : b.frames.map Frame.name = t.names := congrArg Trail.names h.trail
  rw [← names] at hn
  obtain ⟨f, fs, hf, rfl⟩ : ∃ f fs, b.frames = f :: fs ∧ f.name = name := by
    cases hf : b.frames with
    | nil => simp [hf] at hn
    | cons f fs => exact ⟨f, fs, rfl, by simpa [hf] using hn⟩
  have told : Builder.Tells { b with tagPending := p, stats := s } es := h.tells
  refine ⟨told.continueTag hf attributes ending, ?_, ?_⟩
  · rw [trail_continueTag, ← h.trail]
    rfl
  · rw [names] at hn
    exact h.sound.afterResumedTag hn hv

/-- The text of a markup node adds its events. -/
theorem Faithful.addRun (h : b.Faithful es t) (hc : rules.coalesces = false) {text : String}
    (hr : b.addRun rules text = .ok c) :
    c.Faithful (es ++ ((t.start text).events ++
        (t.start text).trail.tokensEvents rules (t.start text).tokens))
      ((t.start text).tokens.foldl Trail.after (t.start text).trail) := by
  obtain ⟨d, hd, hr⟩ := bind_eq_ok_iff.1 hr
  cases hr
  suffices ended : d.Faithful _ _ from ⟨ended.tells, ended.trail, ended.sound⟩
  have pending : b.pendingName? = t.pendingName? := by rw [← trail_pendingName?, h.trail]
  rw [pending] at hd
  rw [Trail.start]
  cases hn : t.pendingName? with
  | none =>
    rw [hn] at hd
    have begun : Builder.Faithful { b with tagPending := false, stats := b.stats.countRun } es
        { t with tagPending := false } :=
      ⟨h.tells, congrArg (fun t : Trail => { t with tagPending := false }) h.trail,
        h.sound.of_pendingName? hn⟩
    exact begun.receiveAll hc rfl (orderly_tokens text) hd
  | some name =>
    rw [hn] at hd
    have head := Trail.head?_of_pendingName? hn
    obtain ⟨attributes, ending, others, heq, ho⟩ := exists_tagRestTokens name text
    simp only [receiveRun, heq] at hd ⊢
    obtain ⟨e, he, hd⟩ := bind_eq_ok_iff.1 hd
    cases he
    rw [← List.append_assoc]
    cases ho with
    | cutOff =>
      obtain ⟨e, he, hd⟩ := bind_eq_ok_iff.1 hd
      cases hd
      cases he
      have ends : isVoid name → TagEnd.cutOff ≠ .plain := fun _ => by decide
      have resumed := h.continueTag head attributes ends false b.stats.countRun.countToken
      simp only [Trail.tokensEvents, Trail.tokenEvents, List.append_nil]
      exact ⟨resumed.tells, resumed.trail, resumed.sound⟩
    | cons whole hs =>
      have resumed := h.continueTag head attributes whole.endsVoid false
        b.stats.countRun.countToken
      exact resumed.receiveAll hc (Trail.tagPending_afterResumedTag whole.1) hs hd

/-- A child adds its events. -/
theorem Faithful.addChild (h : b.Faithful es t) (hc : rules.coalesces = false) {child : Node}
    (hr : b.addChild rules child = .ok c) :
    c.Faithful (es ++ t.childEvents rules child) (t.afterChild child) := by
  have put (n : Node) : (b.push n).Faithful (es ++ [.leaf n]) t :=
    ⟨h.tells.push (.leaf n), (trail_push n b).trans h.trail, h.sound⟩
  cases child with
  | markup pieces => exact h.addRun hc hr
  | attr name parts =>
    simp only [Builder.addChild] at hr
    split at hr
    · cases hr
    · cases hr
      exact put _
  | _ =>
    cases hr
    exact put _

theorem Faithful.addChildren (h : b.Faithful es t) (hc : rules.coalesces = false)
    {children : List Node} (hr : children.foldlM (Builder.addChild rules) b = .ok c) :
    ∃ t', c.Faithful (es ++ t.childrenEvents rules children) t' := by
  induction children generalizing b es t with
  | nil =>
    cases hr
    rw [Trail.childrenEvents, List.append_nil]
    exact ⟨t, h⟩
  | cons child others ih =>
    obtain ⟨d, hd, hr⟩ := bind_eq_ok_iff.1 hr
    rw [Trail.childrenEvents, ← List.append_assoc]
    exact ih (h.addChild hc hd) hr

end Builder

/-- What a list of children is built into has the events of the list. -/
theorem linearises_build {policy : Policy} {root : Node} {stats : Stats} {children : List Node}
    {built : Built} (hc : policy.coalesceText = false)
    (hb : build (policy.rules root) stats children = .ok built) :
    Linearises built.children (events (policy.rules root) children) := by
  obtain ⟨b, replayed, hb⟩ := bind_eq_ok_iff.1 hb
  obtain ⟨c, hf, hb⟩ := bind_eq_ok_iff.1 hb
  cases hb
  have started : Builder.Faithful { stats } [] {} :=
    ⟨.root .nil, rfl, Trail.isSound_empty⟩
  have apart : (policy.rules root).coalesces = false := hc
  obtain ⟨t, ended⟩ := started.addChildren apart replayed
  rw [Builder.finish] at hf
  split at hf
  · next hempty =>
    cases hf
    have told : Grows b.root b.frames (events (policy.rules root) children) := ended.tells
    rw [List.isEmpty_iff.1 hempty] at told
    cases told with
    | root h => exact h
  · cases hf

/-- If texts are not put together, a list of children and what it is built into say the same, in
the same order. Which elements were built and which were carried is not a matter of choice: the
events tell. -/
theorem linearise_build {policy : Policy} {root : Node} {stats : Stats} {children : List Node}
    {built : Built} (hc : policy.coalesceText = false)
    (hb : build (policy.rules root) stats children = .ok built) :
    ∃! forest : List Grown, Grown.nodes forest = built.children ∧
      Grown.linearise forest = events (policy.rules root) children := by
  obtain ⟨forest, hnodes, hevents⟩ := linearises_build hc hb
  refine ⟨forest, ⟨hnodes, hevents⟩, ?_⟩
  rintro other ⟨hnodes', hevents'⟩
  have same : Grown.linearise other ++ [] = Grown.linearise forest ++ [] := by
    rw [hevents', hevents]
  exact (Grown.eq_of_linearise other forest (hnodes'.trans hnodes.symm) same).1

/-- A paragraph whose start tag is split, with a void element, a comment and a carried element in
it. -/
def splitTag : List Node :=
  [.markup ["<p class=a "], .attr "id" [.foreign "expr" "i" []],
    .markup [" hidden><!-- -->one<br>"], .element "hr" [], .markup ["</p>", " "]]

theorem linearise_build_splitTag :
    ∃ (built : Built) (forest : List Grown),
      build (Policy.rules {} (.document splitTag)) {} splitTag = .ok built ∧
        Grown.nodes forest = built.children ∧
        Grown.linearise forest =
          [.opening "p", .leaf (.attr "class" [.text "a"]),
            .leaf (.attr "id" [.foreign "expr" "i" []]), .leaf (.attr "hidden" [.text ""]),
            .leaf (.text "one"), .opening "br", .leaf (.element "hr" []), .closing "p"] := by
  have succeeds : (build (Policy.rules {} (.document splitTag)) {} splitTag).isOk = true := by
    decide +kernel
  have told : events (Policy.rules {} (.document splitTag)) splitTag =
      [.opening "p", .leaf (.attr "class" [.text "a"]),
        .leaf (.attr "id" [.foreign "expr" "i" []]), .leaf (.attr "hidden" [.text ""]),
        .leaf (.text "one"), .opening "br", .leaf (.element "hr" []), .closing "p"] := by
    decide +kernel
  cases hb : build (Policy.rules {} (.document splitTag)) {} splitTag with
  | error halt =>
    rw [hb] at succeeds
    cases succeeds
  | ok built =>
    obtain ⟨forest, ⟨hnodes, hevents⟩, -⟩ := linearise_build rfl hb
    exact ⟨built, forest, rfl, hnodes, hevents.trans told⟩

end MarkupTree
