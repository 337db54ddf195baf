import MarkupTree.Proofs.Replay.Parallel

/-!
# Which child lists have structure

A *trail* keeps of a replay only the names of the open elements and whether the innermost start tag
is still pending. Walking along the children with a trail builds no node and keeps no text, no
attribute and no count, and still it knows when an end tag, an attribute or a declaration has no
place. `check` walks along a whole list of children and stops at the first such violation, or finds
elements open at the end.

A replay succeeds exactly if `check` accepts, and otherwise it fails with the first violation
(`forget_build`). Since `check` does not look at any rules for texts, neither the verdict nor the
failure depends on them.

## Main definitions

* `Trail` : the names of the open elements, and whether a start tag is pending.
* `Trail.after` : the trail after a token.
* `Trail.violation?` : why a token has no place.
* `check` : the walk along a list of children.
* `Builder.trail` : the trail of a replay.

## Main results

* `parallel_receive`, `parallel_addRun`, `parallel_addChild` : a replay and its trail run in
  parallel over a token, a markup node and a child.
* `parallel_build_check` : so they do over a whole list of children.
* `forget_build` : a replay, with what it builds and counts forgotten, is a walk.
-/

namespace MarkupTree

/-- What is left of a replay when nothing is built. -/
structure Trail where
  /-- The names of the open elements, the innermost first. -/
  names : List String := []
  /-- The start tag of the innermost element has not ended. -/
  tagPending : Bool := false
deriving DecidableEq

namespace Trail

/-! ### Tokens -/

/-- The trail after a start tag. A void element whose tag has ended is closed at once. -/
def afterStartTag (name : String) (ending : TagEnd) (t : Trail) : Trail :=
  if ending = .selfClosing ∧ isVoid name then { t with tagPending := false }
  else ⟨name :: t.names, ending == .cutOff⟩

/-- The trail after one token. An end tag closes the innermost element. -/
def after (t : Trail) : Token → Trail
  | .startTag name _ ending => t.afterStartTag name ending
  | .endTag _ => { t with names := t.names.tail }
  | _ => t

/-- The trail after the start tag of the innermost element went on. -/
def afterResumedTag (name : String) (ending : TagEnd) (t : Trail) : Trail :=
  if ending = .selfClosing ∧ isVoid name then ⟨t.names.tail, false⟩
  else { t with tagPending := ending == .cutOff }

/-- Why a token has no place: an end tag has to name the innermost open element, and a document
type declaration has no place anywhere. -/
def violation? (t : Trail) : Token → Option Failure
  | .endTag found =>
    if t.names.head? = some found then none else some (.unbalancedClose t.names.head? found)
  | .doctype text => some (.unsupportedDoctype text)
  | _ => none

/-- Walks past one token. -/
def pass (t : Trail) (token : Token) : Except Failure Trail :=
  match t.violation? token with
  | some failure => .error failure
  | none => .ok (t.after token)

/-- Walks past the first token of a markup node that goes on inside a start tag. -/
def passResumed (t : Trail) : Token → Except Failure Trail
  | .startTag name _ ending => .ok (t.afterResumedTag name ending)
  | token => t.pass token

/-- A token that was walked past leaves the trail after it. -/
theorem eq_after_of_pass {token : Token} {t t' : Trail} (h : t.pass token = .ok t') :
    t' = t.after token := by
  rw [pass] at h
  split at h
  · cases h
  · exact (Except.ok.inj h).symm

/-- A start tag is pending only after a token that is cut off. -/
theorem tagPending_after {t : Trail} {token : Token} (h : token.isCutOff = false)
    (hp : t.tagPending = false) : (t.after token).tagPending = false := by
  cases token with
  | startTag name attributes ending =>
    simp only [after, afterStartTag]
    split
    · rfl
    · exact h
  | _ => exact hp

/-! ### Children -/

/-- The name of the element whose start tag has not ended. -/
def pendingName? (t : Trail) : Option String := if t.tagPending then t.names.head? else none

/-- Walks past a markup node. If a start tag is pending, its text is the rest of that tag and what
follows. -/
def passRun (t : Trail) (text : String) : Except Failure Trail :=
  match t.pendingName? with
  | none => (tokens text).foldlM pass { t with tagPending := false }
  | some name =>
    match tagRestTokens name text with
    | [] => .ok { t with tagPending := false }
    | first :: others => do
      others.foldlM pass (← passResumed { t with tagPending := false } first)

/-- Walks past one child. An attribute has to stand in an open element. -/
def passChild (t : Trail) : Node → Except Failure Trail
  | .markup pieces => t.passRun (String.join pieces)
  | .attr name _ => if t.names.isEmpty then .error (.attributeOutsideElement name) else .ok t
  | _ => .ok t

/-- The end of the walk, where no element may be open. -/
def finish (t : Trail) : Except Failure Unit :=
  if t.names.isEmpty then .ok () else .error (.unbalancedTree t.names.reverse)

end Trail

/-- Walks along a list of children up to the first violation. -/
def check (children : List Node) : Except Failure Unit := do
  (← children.foldlM Trail.passChild {}).finish

namespace Builder

/-! ### The trail of a replay -/

/-- What is left of a replay when all that was built is forgotten. -/
def trail (b : Builder) : Trail := ⟨b.frames.map Frame.name, b.tagPending⟩

@[simp] theorem trail_names (b : Builder) : b.trail.names = b.frames.map Frame.name := rfl

@[simp] theorem trail_tagPending (b : Builder) : b.trail.tagPending = b.tagPending := rfl

@[simp] theorem trail_countToken (b : Builder) : b.countToken.trail = b.trail := rfl

@[simp] theorem trail_push (node : Node) (b : Builder) : (b.push node).trail = b.trail := by
  rw [push]
  split
  · rfl
  · next f fs h => simp [trail, h]

@[simp] theorem trail_pushAll (nodes : List Node) (b : Builder) :
    (b.pushAll nodes).trail = b.trail := by
  induction nodes generalizing b with
  | nil => rfl
  | cons n ns ih => exact (ih (b.push n)).trans (trail_push n b)

@[simp] theorem trail_extendTail (more : String) (b : Builder) :
    (b.extendTail more).trail = b.trail := by
  rw [extendTail]
  split
  · rfl
  · next f fs h => simp [trail, h]

@[simp] theorem trail_addText (rules : TextRules) (text : String) (b : Builder) :
    (b.addText rules text).trail = b.trail := by
  rw [addText]
  split
  · rfl
  · split
    · exact trail_extendTail text b
    · exact trail_push (.text text) b

@[simp] theorem trail_closeInnermost (b : Builder) :
    b.closeInnermost.trail = { b.trail with names := b.trail.names.tail } := by
  rw [closeInnermost]
  split
  · next h => simp [trail, h]
  · next f fs h =>
    rw [trail_push]
    simp [trail, h]

theorem trail_closeIfVoid (name : String) (ending : TagEnd) (b : Builder) :
    (b.closeIfVoid name ending).trail =
      if ending = .selfClosing ∧ isVoid name then { b.trail with names := b.trail.names.tail }
      else b.trail := by
  rw [closeIfVoid]
  split
  · exact trail_closeInnermost b
  · rfl

theorem trail_openElement (name : String) (attributes : List Attribute) (ending : TagEnd)
    (b : Builder) :
    (b.openElement name attributes ending).trail = b.trail.afterStartTag name ending := by
  rw [openElement, trail_closeIfVoid, Trail.afterStartTag]
  split
  · next h => simp [trail, h.1]
  · rfl

theorem trail_continueTag (name : String) (attributes : List Attribute) (ending : TagEnd)
    (b : Builder) :
    (b.continueTag name attributes ending).trail = b.trail.afterResumedTag name ending := by
  have pushed (p : Bool) : Builder.trail { b.pushAll (attributes.map .ofAttribute) with
      tagPending := p } = { b.trail with tagPending := p } :=
    congrArg (fun t : Trail => { t with tagPending := p }) (trail_pushAll _ b)
  rw [continueTag, trail_closeIfVoid, Trail.afterResumedTag, pushed]
  split
  · next h => simp [h.1]
  · rfl

/-! ### A replay beside its trail -/

/-- A replay and a walk end alike: they fail for the same reason, or the walk ends in the replay's
trail. -/
abbrev AlongTrail : Except Halt Builder → Except Failure Trail → Prop :=
  Parallel (fun halt failure => halt.failure = failure) (fun b t => b.trail = t)

theorem parallel_closeElement (found : String) (b : Builder) :
    AlongTrail (b.closeElement found) (b.trail.pass (.endTag found)) := by
  rw [closeElement, Trail.pass, Trail.violation?]
  cases h : b.frames with
  | nil =>
    simp only [trail_names, h, List.map_nil, List.head?_nil, reduceCtorEq, if_false]
    exact .error rfl
  | cons f fs =>
    simp only [trail_names, h, List.map_cons, List.head?_cons, Option.some.injEq]
    by_cases hf : f.name = found
    · simp only [hf, if_true]
      exact .ok (trail_closeInnermost b)
    · simp only [hf, if_false]
      exact .error rfl

/-- A token is received exactly if the trail walks past it. -/
theorem parallel_receive (rules : TextRules) (b : Builder) (token : Token) :
    AlongTrail (b.receive rules token) (b.trail.pass token) := by
  cases token with
  | doctype text => exact .error rfl
  | startTag name attributes ending => exact .ok (trail_openElement name attributes ending _)
  | endTag name => exact parallel_closeElement name b.countToken
  | text text => exact .ok (trail_addText rules text _)
  | comment text => exact .ok rfl
  | endOfInput => exact .ok rfl

/-- A start tag is pending only after a token that is cut off. -/
theorem tagPending_receiveAll {rules : TextRules} {tokens : List Token}
    (ht : ∀ t ∈ tokens, t.isCutOff = false) {b c : Builder} (hb : b.tagPending = false)
    (h : b.receiveAll rules tokens = .ok c) : c.tagPending = false := by
  induction tokens generalizing b with
  | nil =>
    obtain rfl := Except.ok.inj h
    exact hb
  | cons token tokens ih =>
    obtain ⟨first, others⟩ := List.forall_mem_cons.1 ht
    rw [receiveAll, List.foldlM_cons] at h
    obtain ⟨d, hd, hc⟩ := bind_eq_ok_iff.1 h
    obtain ⟨t, ht, htrail⟩ := (parallel_receive rules b token).exists_of_ok_left hd
    refine ih others ?_ hc
    rw [← trail_tagPending, htrail, Trail.eq_after_of_pass ht]
    exact Trail.tagPending_after first hb

theorem parallel_receiveContinued (rules : TextRules) (b : Builder) (token : Token) :
    AlongTrail (b.receiveContinued rules token) (b.trail.passResumed token) := by
  cases token with
  | startTag name attributes ending => exact .ok (trail_continueTag name attributes ending _)
  | doctype text => exact parallel_receive rules b (.doctype text)
  | endTag name => exact parallel_receive rules b (.endTag name)
  | text text => exact parallel_receive rules b (.text text)
  | comment text => exact parallel_receive rules b (.comment text)
  | endOfInput => exact parallel_receive rules b .endOfInput

theorem parallel_receiveAll (rules : TextRules) (b : Builder) (tokens : List Token) :
    AlongTrail (b.receiveAll rules tokens) (tokens.foldlM Trail.pass b.trail) := by
  refine Parallel.foldlM_same ?_ tokens rfl
  rintro b _ token rfl
  exact parallel_receive rules b token

theorem trail_pendingName? (b : Builder) : b.trail.pendingName? = b.pendingName? := by
  simp [Trail.pendingName?, pendingName?]

/-- A markup node is taken exactly if the trail walks past it. -/
theorem parallel_addRun (rules : TextRules) (b : Builder) (text : String) :
    AlongTrail (b.addRun rules text) (b.trail.passRun text) := by
  have received : AlongTrail
      (receiveRun rules { b with tagPending := false, stats := b.stats.countRun } b.pendingName?
        text)
      (b.trail.passRun text) := by
    rw [Trail.passRun]
    rw [trail_pendingName?]
    cases b.pendingName? with
    | none => exact parallel_receiveAll rules _ (tokens text)
    | some name =>
      simp only [receiveRun]
      cases tagRestTokens name text with
      | nil => exact .ok rfl
      | cons first others =>
        refine (parallel_receiveContinued rules _ first).bind ?_
        rintro c _ rfl
        exact parallel_receiveAll rules c others
  exact received.map_left fun _ _ h => h

/-- A child is taken exactly if the trail walks past it. -/
theorem parallel_addChild (rules : TextRules) (b : Builder) (child : Node) :
    AlongTrail (b.addChild rules child) (b.trail.passChild child) := by
  cases child with
  | markup pieces => exact parallel_addRun rules b (String.join pieces)
  | attr name parts =>
    simp only [addChild, Trail.passChild, trail_names, List.isEmpty_map]
    split
    · exact .error rfl
    · exact .ok (trail_push _ b)
  | _ => exact .ok (trail_push _ b)

theorem parallel_finish (b : Builder) :
    Parallel (fun halt failure => halt.failure = failure) (fun _ _ => True) b.finish
      b.trail.finish := by
  simp only [finish, Trail.finish, trail_names, List.isEmpty_map]
  split
  · exact .ok trivial
  · exact .error rfl

end Builder

/-- A replay and the walk along its children end alike. -/
theorem parallel_build_check (rules : TextRules) (stats : Stats) (children : List Node) :
    Parallel (fun halt failure => halt.failure = failure) (fun _ _ => True)
      (build rules stats children) (check children) := by
  refine Parallel.bind (V := fun b t => Builder.trail b = t) ?_ ?_
  · refine Parallel.foldlM_same ?_ children rfl
    rintro b _ child rfl
    exact Builder.parallel_addChild rules b child
  · rintro b _ rfl
    exact b.parallel_finish.map_left fun _ _ h => h

/-- A list of children can be given structure exactly if the walk along it meets no violation, and
otherwise the first violation is why not. No policy, root or count plays a part. -/
theorem forget_build (policy : Policy) (root : Node) (stats : Stats) (children : List Node) :
    ((build (policy.rules root) stats children).mapError Halt.failure).map (fun _ => ()) =
      check children := by
  have alike := parallel_build_check (policy.rules root) stats children
  cases hb : build (policy.rules root) stats children with
  | error halt =>
    rw [hb] at alike
    obtain ⟨failure, hc, hf⟩ := alike.exists_of_error_left rfl
    rw [hc, ← hf]
    rfl
  | ok built =>
    rw [hb] at alike
    obtain ⟨_, hc, -⟩ := alike.exists_of_ok_left rfl
    rw [hc]
    rfl

end MarkupTree
