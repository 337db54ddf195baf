import MarkupTree.Proofs.Replay.Carrying
import MarkupTree.Proofs.Replay.Tracing

/-!
# Carried children are opaque

A replay looks at a child that is not markup for two things only: whether it is an attribute, and if
so, under what name. So let a function change such children in any way that keeps this
(`Node.KeepsKinds`). Replacing each child that is not markup by its image, and then building, is
building, and then replacing each of them where it stands (`build_carried`); failures and counts are
the same.

The children say the same with the images in the place of the carried ones, so the traced forest is
the same with the images in it, however the rules show it. And a traced forest as the rules show it
has every carried child as it was, in the order of the children: no text of a markup node is ever
added to one (`Traced.carried_shown`).

## Main definitions

* `Node.KeepsKinds` : a function that keeps what a replay looks at.
* `Traced.mapCarried` : a tree with the images of its carried nodes.
* `Traced.carried` : the carried nodes of a forest, with their numbers.

## Main results

* `traced_map_onCarried` : what children say, with images in the place of carried ones.
* `Traced.shown_mapCarried` : rules for texts do not look into carried nodes.
* `Traced.carried_shown`, `carried_traced` : each carried child is in the forest.
* `build_carried` : building with images in the place of carried children.
-/

namespace MarkupTree

/-! ### Functions on carried nodes -/

namespace Node

/-- A function on nodes that gives an attribute of the same name for an attribute, and no markup and
no attribute for a node of any other kind but markup. -/
structure KeepsKinds (f : Node → Node) : Prop where
  attr : ∀ name parts, ∃ others, f (attr name parts) = attr name others
  isMarkup : ∀ n, n.isMarkup = false → n.isAttr = false → (f n).isMarkup = false
  isAttr : ∀ n, n.isMarkup = false → n.isAttr = false → (f n).isAttr = false

/-- The image of a child. Markup, which is not carried, stays as it is. -/
def onCarried (f : Node → Node) (n : Node) : Node := if n.isMarkup then n else f n

variable {f : Node → Node}

theorem onCarried_of_not_markup {n : Node} (h : n.isMarkup = false) : n.onCarried f = f n := by
  rw [onCarried, h]
  rfl

theorem KeepsKinds.isMarkup_image (hf : KeepsKinds f) {n : Node} (h : n.isMarkup = false) :
    (f n).isMarkup = false := by
  cases ha : n.isAttr with
  | false => exact hf.isMarkup n h ha
  | true =>
    cases n with
    | attr name parts =>
      obtain ⟨others, hothers⟩ := hf.attr name parts
      rw [hothers]
      rfl
    | _ => cases ha

/-- A replay treats a child and its image alike. -/
theorem KeepsKinds.corresponds (hf : KeepsKinds f) (n : Node) :
    Corresponds (fun _ _ => True) n (n.onCarried f) := by
  cases n with
  | markup pieces => exact .markup rfl
  | attr name parts =>
    obtain ⟨others, hothers⟩ := hf.attr name parts
    rw [onCarried_of_not_markup rfl, hothers]
    exact .attr trivial
  | _ => exact .carried trivial rfl (hf.isMarkup _ rfl rfl) rfl (hf.isAttr _ rfl rfl)

end Node

/-- A part with the image of its node, if that is carried. -/
def Part.mapCarried (f : Node → Node) : Part → Part
  | .carried child n => .carried child (f n)
  | part => part

namespace TracedEvent

/-- One thing that is said, with the image of the carried node in it. -/
def mapCarried (f : Node → Node) : TracedEvent → TracedEvent
  | leaf part => leaf (part.mapCarried f)
  | e => e

theorem mapCarried_of_none {e : TracedEvent} (h : e.carried? = none) (f : Node → Node) :
    e.mapCarried f = e := by
  cases e with
  | opening run name => rfl
  | closing run => rfl
  | leaf part =>
    cases part with
    | carried child n => cases h
    | attr run a => rfl
    | text run s => rfl

end TracedEvent

/-! ### What children say -/

namespace Trail

variable {f : Node → Node}

theorem tracedChild_onCarried (hf : Node.KeepsKinds f) (t : Trail) (number : Nat) (n : Node) :
    t.tracedChild number (n.onCarried f) = (t.tracedChild number n).map (.mapCarried f) := by
  cases h : n.isMarkup with
  | false =>
    rw [Node.onCarried_of_not_markup h, tracedChild_of_not_markup (hf.isMarkup_image h),
      tracedChild_of_not_markup h]
    rfl
  | true =>
    cases n with
    | markup pieces =>
      have same := List.map_congr_left fun e he =>
        TracedEvent.mapCarried_of_none
          (isOfRun_of_mem_tracedRun t number (String.join pieces) e he).1 f
      rw [List.map_id'] at same
      exact same.symm
    | _ => cases h

theorem afterChild_onCarried (hf : Node.KeepsKinds f) (t : Trail) (n : Node) :
    t.afterChild (n.onCarried f) = t.afterChild n := by
  cases h : n.isMarkup with
  | false =>
    rw [Node.onCarried_of_not_markup h, afterChild_of_not_markup (hf.isMarkup_image h),
      afterChild_of_not_markup h]
  | true => rw [Node.onCarried, h, if_pos rfl]

theorem tracedChildren_map_onCarried (hf : Node.KeepsKinds f) (t : Trail) (number : Nat)
    (children : List Node) :
    t.tracedChildren number (children.map (.onCarried f)) =
      (t.tracedChildren number children).map (.mapCarried f) := by
  induction children generalizing t number with
  | nil => rfl
  | cons child others ih =>
    rw [List.map_cons, tracedChildren, tracedChildren, List.map_append,
      tracedChild_onCarried hf, afterChild_onCarried hf, ih]

/-- The carried nodes of which children speak are the children that are not markup. -/
theorem carried_tracedChildren (t : Trail) (number : Nat) (children : List Node) :
    (t.tracedChildren number children).filterMap TracedEvent.carried? =
      (children.zipIdx number).filter fun c => !c.1.isMarkup := by
  induction children generalizing t number with
  | nil => rfl
  | cons child others ih =>
    rw [tracedChildren, List.filterMap_append, ih, List.zipIdx_cons, List.filter_cons]
    cases h : child.isMarkup with
    | false =>
      rw [tracedChild_of_not_markup h]
      rfl
    | true =>
      cases child with
      | markup pieces =>
        rw [tracedChild, List.filterMap_eq_nil_iff.2 fun e he =>
          (isOfRun_of_mem_tracedRun t number _ e he).1]
        rfl
      | _ => cases h

end Trail

/-- Children with the images of those that are carried say the same, with the images. -/
theorem traced_map_onCarried {f : Node → Node} (hf : Node.KeepsKinds f) (children : List Node) :
    traced (children.map (.onCarried f)) = (traced children).map (.mapCarried f) :=
  Trail.tracedChildren_map_onCarried hf {} 0 children

theorem carried_traced (children : List Node) :
    (traced children).filterMap TracedEvent.carried? =
      children.zipIdx.filter fun c => !c.1.isMarkup :=
  Trail.carried_tracedChildren {} 0 children

/-! ### Forests -/

namespace Traced

variable (f : Node → Node) {gs : List Traced}

mutual

/-- A tree with the images of its carried nodes. -/
def mapCarried : Traced → Traced
  | element first last name children => element first last name (mapCarriedAll children)
  | leaf part => leaf (part.mapCarried f)

/-- A forest with the images of its carried nodes. -/
def mapCarriedAll : List Traced → List Traced
  | [] => []
  | g :: gs => g.mapCarried :: mapCarriedAll gs

end

theorem mapCarriedAll_eq_map (gs : List Traced) : mapCarriedAll f gs = gs.map (mapCarried f) := by
  induction gs with
  | nil => rfl
  | cons g gs ih => rw [mapCarriedAll, ih, List.map_cons]

mutual

theorem events_mapCarried : (g : Traced) →
    (g.mapCarried f).events = g.events.map (.mapCarried f)
  | element first last name children => by
    rw [mapCarried, events, linearise_mapCarriedAll children, events, List.map_cons,
      List.map_append]
    rfl
  | leaf part => rfl

theorem linearise_mapCarriedAll : (gs : List Traced) →
    linearise (mapCarriedAll f gs) = (linearise gs).map (.mapCarried f)
  | [] => rfl
  | g :: gs => by
    rw [mapCarriedAll, linearise, events_mapCarried g, linearise_mapCarriedAll gs, linearise,
      List.map_append]

end

theorem textRun?_mapCarried (g : Traced) : (g.mapCarried f).textRun? = g.textRun? := by
  cases g with
  | element first last name children => rfl
  | leaf part => cases part <;> rfl

theorem isWhite_mapCarried (g : Traced) : (g.mapCarried f).isWhite = g.isWhite := by
  cases g with
  | element first last name children => rfl
  | leaf part => cases part <;> rfl

theorem lastRun?_map_mapCarried (gs : List Traced) :
    lastRun? (gs.map (mapCarried f)) = lastRun? gs := by
  rw [lastRun?, lastRun?, List.getLast?_map, Option.bind_map]
  exact congrArg _ (funext (textRun?_mapCarried f))

/-- If joining inside the trees of a forest does not look into carried nodes, joining the forest
does not. -/
theorem joinTexts_map_of_forall (h : ∀ g ∈ gs, (g.mapCarried f).joined = g.joined.mapCarried f) :
    joinTexts (gs.map (mapCarried f)) = (joinTexts gs).map (mapCarried f) := by
  induction gs using joinTexts_induction with
  | nil => rfl
  | apart gs g hapart ih =>
    rw [List.forall_mem_append, List.forall_mem_singleton] at h
    have apart (run : Nat) (hg : (g.mapCarried f).textRun? = some run) :
        lastRun? (gs.map (mapCarried f)) ≠ some run := by
      rw [textRun?_mapCarried] at hg
      rw [lastRun?_map_mapCarried]
      exact hapart run hg
    rw [List.map_append, List.map_singleton, joinTexts_concat_apart apart, ih h.1, h.2,
      List.map_append, List.map_singleton]
  | joined gs run s hs t hlast _ ih =>
    have before := ih fun g hg => h g (List.mem_append_left _ hg)
    rw [← lastRun?_map_mapCarried f] at hlast
    obtain ⟨hs', t', heq, hmore⟩ := joinTexts_concat_joined hlast s
    rw [heq, List.map_append] at before
    obtain ⟨rfl, hnewest⟩ := List.append_inj' before rfl
    cases hnewest
    rw [List.map_append, List.map_append]
    exact hmore

theorem joined_mapCarried (g : Traced) : (g.mapCarried f).joined = g.joined.mapCarried f := by
  induction g using Traced.induction with
  | leaf part => rfl
  | element first last name children ih =>
    have inside := joinTexts_map_of_forall f ih
    rw [← mapCarriedAll_eq_map, ← mapCarriedAll_eq_map] at inside
    exact congrArg (element first last name) inside

/-- The rules for texts do not look into carried nodes. -/
theorem shown_mapCarried (rules : TextRules) (gs : List Traced) :
    rules.shown (mapCarriedAll f gs) = mapCarriedAll f (rules.shown gs) := by
  have kept : rules.kept (mapCarriedAll f gs) = (rules.kept gs).map (mapCarried f) := by
    rw [mapCarriedAll_eq_map, TextRules.kept, TextRules.kept]
    split
    · rw [List.filter_map]
      simp only [Function.comp_def, isWhite_mapCarried]
    · rfl
  rw [TextRules.shown, TextRules.shown, kept, TextRules.joined, TextRules.joined,
    mapCarriedAll_eq_map]
  split
  · exact joinTexts_map_of_forall f fun g _ => joined_mapCarried f g
  · rfl

/-! ### Carried nodes in their places -/

/-- The carried nodes of a forest in document order, with their numbers. -/
def carried (gs : List Traced) : List (Node × Nat) :=
  (linearise gs).filterMap TracedEvent.carried?

theorem carried_append (gs hs : List Traced) : carried (gs ++ hs) = carried gs ++ carried hs := by
  rw [carried, linearise_append, List.filterMap_append]
  rfl

theorem carried_element (first last : Nat) (name : String) (children : List Traced) :
    carried [element first last name children] = carried children := by
  rw [carried, linearise, linearise, List.append_nil, events, List.filterMap_cons_none rfl,
    List.filterMap_append]
  exact List.append_nil _

/-- If joining inside the trees of a forest keeps what is carried, joining the forest does. -/
theorem carried_joinTexts_of_forall (h : ∀ g ∈ gs, carried [g.joined] = carried [g]) :
    carried (joinTexts gs) = carried gs := by
  induction gs using joinTexts_induction with
  | nil => rfl
  | apart gs g _ ih =>
    rw [List.forall_mem_append, List.forall_mem_singleton] at h
    rw [carried_append, carried_append, ih h.1, h.2]
  | joined gs run s hs t _ _ ih =>
    have before := ih fun g hg => h g (List.mem_append_left _ hg)
    rw [carried_append] at before ⊢
    rw [carried_append gs, ← before, List.append_assoc]
    rfl

theorem carried_joined (g : Traced) : carried [g.joined] = carried [g] := by
  induction g using Traced.induction with
  | leaf part => rfl
  | element first last name children ih =>
    rw [carried_element, ← carried_joinTexts_of_forall ih]
    exact carried_element first last name (joinTexts children)

/-- White space that is dropped carries nothing. -/
theorem carried_filter (gs : List Traced) :
    carried (gs.filter fun g => !g.isWhite) = carried gs := by
  induction gs with
  | nil => rfl
  | cons g gs ih =>
    have first (hs : List Traced) : carried (g :: hs) = carried [g] ++ carried hs :=
      carried_append [g] hs
    cases hw : g.isWhite with
    | false =>
      rw [List.filter_cons, hw, if_pos Bool.not_false, first, ih]
      exact (first gs).symm
    | true =>
      cases hrun : g.textRun? with
      | none => exact absurd hw (by simp [isWhite_eq_false hrun])
      | some run =>
        obtain ⟨s, rfl⟩ := exists_of_textRun? hrun
        rw [List.filter_cons, hw, if_neg (by decide), ih]
        rfl

/-- However the rules show a forest, the carried nodes are in it as they were, in their order. -/
theorem carried_shown (rules : TextRules) (gs : List Traced) :
    carried (rules.shown gs) = carried gs := by
  have kept : carried (rules.kept gs) = carried gs := by
    rw [TextRules.kept]
    split
    · exact carried_filter gs
    · rfl
  rw [TextRules.shown, TextRules.joined]
  split
  · rw [carried_joinTexts_of_forall fun g _ => carried_joined g, kept]
  · exact kept

end Traced

/-! ### Building -/

theorem keeps_anything : Builder.Keeps (fun _ _ => True) Eq where
  text _ := trivial
  ofAttribute _ := trivial
  element _ _ _ _ := trivial
  countRun h := congrArg Stats.countRun h
  countToken h := congrArg Stats.countToken h
  countDropped h := congrArg Stats.countDropped h
  countElement depth h := congrArg (Stats.countElement · depth) h

/-- Building a list of children, and building it with the images of its carried children, fail with
the same failure and counts, or they give the same forest with the same counts, except that in the
one each carried node is as it was, and in the other its image is in its place. Each carried child
is in that forest, in the order of the children. -/
theorem build_carried {f : Node → Node} (hf : Node.KeepsKinds f) (policy : Policy) (root : Node)
    (stats : Stats) (children : List Node) :
    let rules := policy.rules root
    Parallel Eq
      (fun x y => x.stats = y.stats ∧
        ∃ forest, Traces forest children ∧
          let shown := rules.shown forest
          Traced.carried shown = (children.zipIdx.filter fun c => !c.1.isMarkup) ∧
          x.children = Traced.nodes shown ∧
          y.children = Traced.nodes (Traced.mapCarriedAll f shown))
      (build rules stats children) (build rules stats (children.map (.onCarried f))) := by
  intro rules
  have alike : List.Forall₂ (Corresponds fun _ _ => True) children
      (children.map (.onCarried f)) :=
    List.forall₂_map_right_iff.2 (List.forall₂_same.2 fun n _ => hf.corresponds n)
  have replays := parallel_build keeps_anything rules (rfl : stats = stats) alike
  refine replays.with_eq.imp ?_ ?_
  · rintro ⟨_, _⟩ ⟨_, _⟩ ⟨hfailure, hstats⟩
    cases hfailure
    cases hstats
    rfl
  · rintro x y ⟨⟨-, hstats⟩, hx, hy⟩
    obtain ⟨forest, hforest, hchildren, -⟩ := traces_build hx
    obtain ⟨images, himages, hchildren', -⟩ := traces_build hy
    have mapped : Traces (Traced.mapCarriedAll f forest) (children.map (.onCarried f)) := by
      rw [Traces, Traced.linearise_mapCarriedAll, hforest, traced_map_onCarried hf]
    -- The second replay traces the forest of the first with the images in it.
    obtain rfl := himages.unique mapped
    rw [Traced.shown_mapCarried] at hchildren'
    refine ⟨hstats, forest, hforest, ?_, hchildren, hchildren'⟩
    rw [Traced.carried_shown, Traced.carried, hforest, carried_traced]

theorem keepsKinds_wrap : Node.KeepsKinds Node.wrap where
  attr name parts := ⟨[.foreign "" "" [.attr name parts]], rfl⟩
  isMarkup n h h' := by
    cases n with
    | markup pieces => cases h
    | _ => rfl
  isAttr n h h' := by
    cases n with
    | attr name parts => cases h'
    | markup pieces => cases h
    | _ => rfl

/-- A paragraph with an attribute and a text between pieces of markup. -/
def carriedText : List Node :=
  [.markup ["<p "], .attr "id" [.text "i"], .markup [">a<!-- -->b"], .text "c",
    .markup ["d<!-- -->e</p>"]]

/-- Texts of a markup node are put together, but not with the text that is carried. -/
theorem build_carried_carriedText :
    Node.KeepsKinds Node.wrap ∧
      ∃ x y, build (Policy.rules ⟨.elide, true⟩ (.document carriedText)) {} carriedText = .ok x ∧
        build (Policy.rules ⟨.elide, true⟩ (.document carriedText)) {}
          (carriedText.map (.onCarried .wrap)) = .ok y ∧
        x.stats = y.stats ∧
        x.children =
          [.element "p" [.attr "id" [.text "i"], .text "ab", .text "c", .text "de"]] ∧
        ∃ shown, x.children = Traced.nodes shown ∧
          y.children = Traced.nodes (Traced.mapCarriedAll .wrap shown) := by
  have built : (build (Policy.rules ⟨.elide, true⟩ (.document carriedText)) {}
      carriedText).toOption.map Built.children =
        some [.element "p" [.attr "id" [.text "i"], .text "ab", .text "c", .text "de"]] := by
    decide +kernel
  obtain ⟨x, hx, hchildren⟩ := exists_of_toOption_map built
  obtain ⟨y, hy, hstats, forest, -, -, hshown, himages⟩ :=
    (build_carried keepsKinds_wrap ⟨.elide, true⟩ (.document carriedText) {}
      carriedText).exists_of_ok_left hx
  exact ⟨keepsKinds_wrap, x, y, hx, hy, hstats, hchildren, _, hshown, himages⟩

end MarkupTree
