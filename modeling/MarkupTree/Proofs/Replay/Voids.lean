import MarkupTree.Proofs.Replay.Tracing

/-!
# What void elements hold

A void element ends with its start tag, so nothing of what follows the tag is put into it. But the
tag need not be in one markup node. As long as it is pending, the element is the innermost open one,
and a child that is no markup and comes then is put into it, whatever it is. That is all: a void
element holds attributes of its start tag, and children that came while the tag was pending, between
the markup node where it starts and the one where it ends (`build_void`). If that is one markup
node, the element holds attributes only.

A traced forest has to be read together with what it says. Along all that is said, the names of the
elements that are open tell where each thing stands (`Walks`); no void element is open but one whose
start tag is pending (`Trail.IsSound`), so what is said of a void element can be checked from one
thing to the next.

## Main definitions

* `TracedEvent.FitsIn` : what may be said where the innermost element may be void.
* `Walks` : a row of things that are said, each where it may be.
* `Traced.FitsUnder` : a tree that may stand under a parent.
* `pendingBefore` : the start tag that is pending before a child.

## Main results

* `Trail.IsSound.walks_children` : what children say can be walked along.
* `Traced.fitsUnder_of_walks` : so the forest fits.
* `Traces.content_of_void`, `Traces.mem_of_void_shown` : a void element of a traced forest, and the
  same as the rules for texts show it.
* `build_void` : what a built void element holds.
-/

namespace MarkupTree

/-- What may be put into a void element of a given name: a child with its number. -/
abbrev VoidContent := String → Nat → Node → Prop

variable {allowed : VoidContent}

/-! ### Along what is said -/

namespace TracedEvent

/-- The names of the open elements after one thing that is said, the innermost first. -/
def namesAfter (names : List String) : TracedEvent → List String
  | opening _ name => name :: names
  | leaf _ => names
  | closing _ => names.tail

/-- The innermost of some open elements, if there is one, is not void. -/
def NotInVoid (names : List String) : Prop := ∀ name ∈ names.head?, isVoid name = false

/-- One thing may be said where these elements are open. No text and no element is in a void
element, and a carried child only if it is allowed. -/
def FitsIn (allowed : VoidContent) (names : List String) : TracedEvent → Prop
  | opening _ _ => NotInVoid names
  | leaf (.attr ..) => True
  | leaf (.text ..) => NotInVoid names
  | leaf (.carried child n) => ∀ name ∈ names.head?, isVoid name → allowed name child n
  | closing _ => True

end TracedEvent

/-- A row of things is said, each where it may be. First the elements `names` are open, in the end
the elements `rest`. -/
inductive Walks (allowed : VoidContent) : (names : List String) → List TracedEvent →
    (rest : List String) → Prop
  | nil (names : List String) : Walks allowed names [] names
  | cons {names rest : List String} {e : TracedEvent} {es : List TracedEvent}
      (fits : e.FitsIn allowed names) (h : Walks allowed (e.namesAfter names) es rest) :
      Walks allowed names (e :: es) rest

theorem Walks.append {names between rest : List String} {es fs : List TracedEvent}
    (he : Walks allowed names es between) (hf : Walks allowed between fs rest) :
    Walks allowed names (es ++ fs) rest := by
  induction he with
  | nil => exact hf
  | cons fits _ ih => exact .cons fits (ih hf)

/-- The rest of a start tag may be said inside its element. -/
theorem walks_tracedTag (allowed : VoidContent) (run : Nat) (name : String)
    (attributes : List Attribute) (ending : TagEnd) (names : List String) :
    Walks allowed names (tracedTag run name attributes ending)
      (if ending = .selfClosing ∧ isVoid name then names.tail else names) := by
  induction attributes with
  | nil =>
    rw [tracedTag, List.map_nil, List.nil_append]
    split
    · exact .cons trivial (.nil _)
    · exact .nil _
  | cons a as ih => exact .cons trivial ih

/-! ### Along markup -/

namespace Trail

variable {t : Trail}

/-- A sound trail stays sound over a token that may have content after it. -/
theorem IsSound.after (h : t.IsSound) (hp : t.tagPending = false) {token : Token}
    (hv : token.EndsVoid) : (t.after token).IsSound := by
  cases token with
  | startTag name attributes ending => exact h.afterStartTag hp hv
  | endTag name =>
    have settled := h.of_not_pending hp
    refine isSound_of _ _ ?_ ?_
    · exact fun n hn => settled n (List.mem_of_mem_tail (List.mem_of_mem_tail hn))
    · exact fun _ n hn => settled n (List.mem_of_mem_tail (List.mem_of_mem_head? hn))
  | _ => exact h

theorem IsSound.notInVoid (h : t.IsSound) (hn : t.pendingName? = none) :
    TracedEvent.NotInVoid t.names :=
  fun name hname => h.of_pendingName? hn name (List.mem_of_mem_head? hname)

theorem pendingName?_of_not_pending (hp : t.tagPending = false) : t.pendingName? = none := by
  rw [pendingName?, hp]
  rfl

/-- What a token says may be said where no start tag is pending. -/
theorem IsSound.walks_token (h : t.IsSound) (hp : t.tagPending = false) (allowed : VoidContent)
    (number : Nat) (token : Token) :
    Walks allowed t.names (token.traced number) (t.after token).names := by
  have outside := h.notInVoid (pendingName?_of_not_pending hp)
  cases token with
  | startTag name attributes ending =>
    have inside := walks_tracedTag allowed number name attributes ending
      (name :: t.names)
    refine .cons outside ?_
    rw [Trail.after, Trail.afterStartTag]
    split
    · next hends => rwa [if_pos hends] at inside
    · next hends => rwa [if_neg hends] at inside
  | endTag name => exact .cons trivial (.nil _)
  | text text => exact .cons outside (.nil _)
  | doctype text | comment text | endOfInput => exact .nil _

/-- What the tokens of a text say may be said where no start tag is pending. -/
theorem IsSound.walks_tokens (h : t.IsSound) (hp : t.tagPending = false) (allowed : VoidContent)
    (number : Nat) {tokens : List Token} (ho : Orderly tokens) :
    Walks allowed t.names (tokens.flatMap (Token.traced number))
        (tokens.foldl Trail.after t).names ∧
      (tokens.foldl Trail.after t).IsSound := by
  induction ho generalizing t with
  | finish => exact ⟨.nil _, h⟩
  | cutOff name attributes =>
    -- The tag is pending now, and the end of input, which comes next, says nothing.
    have ends : Token.EndsVoid (.startTag name attributes .cutOff) := fun _ => by decide
    refine ⟨?_, h.after hp ends⟩
    exact (h.walks_token hp allowed number _).append (.nil _)
  | cons whole _ ih =>
    have later := ih (h.after hp whole.endsVoid) (tagPending_after whole.isCutOff hp)
    exact ⟨(h.walks_token hp allowed number _).append later.1, later.2⟩

/-- What a markup node says may be said, also if it goes on with a start tag. -/
theorem IsSound.walks_markup (h : t.IsSound) (allowed : VoidContent) (number : Nat)
    (pieces : List String) :
    Walks allowed t.names (t.tracedChild number (.markup pieces))
        (t.afterChild (.markup pieces)).names ∧
      (t.afterChild (.markup pieces)).IsSound := by
  rw [tracedChild, tracedRun, afterChild, start]
  cases hn : t.pendingName? with
  | none =>
    have settled : IsSound { t with tagPending := false } := h.of_pendingName? hn
    exact settled.walks_tokens rfl allowed number (orderly_tokens _)
  | some name =>
    obtain ⟨attributes, ending, others, heq, ho⟩ := exists_tagRestTokens name (String.join pieces)
    have head := head?_of_pendingName? hn
    have rest : Walks allowed t.names (tracedTag number name attributes ending)
        (t.afterResumedTag name ending).names := by
      have inside := walks_tracedTag allowed number name attributes ending t.names
      rw [Trail.afterResumedTag]
      split
      · next hends => rwa [if_pos hends] at inside
      · next hends => rwa [if_neg hends] at inside
    simp only [heq]
    cases ho with
    | cutOff =>
      have ends : isVoid name → TagEnd.cutOff ≠ .plain := fun _ => by decide
      exact ⟨rest.append (.nil _), h.afterResumedTag head ends⟩
    | cons whole hs =>
      have sound := h.afterResumedTag head whole.endsVoid
      have later := sound.walks_tokens (tagPending_afterResumedTag whole.1) allowed number hs
      exact ⟨rest.append later.1, later.2⟩

/-! ### Along children -/

/-- A carried child may be put where it is put, if a void element whose start tag is pending may
hold it. -/
theorem IsSound.fitsIn_carried (h : t.IsSound) {number : Nat} {n : Node}
    (ha : ∀ name, t.pendingName? = some name → allowed name number n) :
    (TracedEvent.leaf (.carried number n)).FitsIn allowed t.names := by
  intro name hname hv
  cases hn : t.pendingName? with
  | none => exact absurd hv (by simp [h.notInVoid hn name hname])
  | some pending =>
    have head := head?_of_pendingName? hn
    obtain rfl : pending = name := Option.some.inj (head.symm.trans hname)
    exact ha pending hn

/-- What children say may be said. -/
theorem IsSound.walks_children (h : t.IsSound) (number : Nat) (children : List Node)
    (ha : ∀ k name n, children[k]? = some n → n.isMarkup = false →
      ((children.take k).foldl afterChild t).pendingName? = some name →
      allowed name (number + k) n) :
    ∃ rest, Walks allowed t.names (t.tracedChildren number children) rest := by
  induction children generalizing t number with
  | nil => exact ⟨_, .nil _⟩
  | cons child others ih =>
    have first : Walks allowed t.names (t.tracedChild number child) (t.afterChild child).names ∧
        (t.afterChild child).IsSound := by
      cases child with
      | markup pieces => exact h.walks_markup allowed number pieces
      | _ => exact ⟨.cons (h.fitsIn_carried fun name hn => ha 0 name _ rfl rfl hn) (.nil _), h⟩
    obtain ⟨rest, later⟩ := ih first.2 (number + 1) fun k name n hk hm hn => by
      have this := ha (k + 1) name n hk hm hn
      rwa [Nat.add_left_comm, Nat.add_comm] at this
    exact ⟨rest, first.1.append later⟩

end Trail

/-! ### Forests -/

namespace Traced

/-- A tree may stand under a parent of a given name, if it has one. No text and no element stands
under a void element, and a carried child only if it is allowed. -/
inductive FitsUnder (allowed : VoidContent) : (parent : Option String) → Traced → Prop
  | element {parent : Option String} {first last : Nat} {name : String} {children : List Traced}
      (hp : ∀ p ∈ parent, isVoid p = false)
      (h : ∀ g ∈ children, FitsUnder allowed (some name) g) :
      FitsUnder allowed parent (element first last name children)
  | text {parent : Option String} {run : Nat} {s : String} (hp : ∀ p ∈ parent, isVoid p = false) :
      FitsUnder allowed parent (leaf (.text run s))
  | attr {parent : Option String} {run : Nat} {a : Attribute} :
      FitsUnder allowed parent (leaf (.attr run a))
  | carried {parent : Option String} {child : Nat} {n : Node}
      (hp : ∀ p ∈ parent, isVoid p → allowed p child n) :
      FitsUnder allowed parent (leaf (.carried child n))

mutual

/-- A tree that says what may be said may stand where it says it. -/
theorem fitsUnder_of_walks : (g : Traced) → {names rest : List String} → {es : List TracedEvent} →
    Walks allowed names (g.events ++ es) rest →
      g.FitsUnder allowed names.head? ∧ Walks allowed names es rest
  | element first last name children, names, rest, es, h => by
    rw [events, List.cons_append, List.append_assoc] at h
    cases h with
    | cons fits h =>
      obtain ⟨inside, h⟩ := forall_fitsUnder_of_walks children h
      cases h with
      | cons _ h => exact ⟨.element fits inside, h⟩
  | leaf part, names, rest, es, h => by
    cases h with
    | cons fits h =>
      refine ⟨?_, h⟩
      cases part with
      | attr run a => exact .attr
      | text run s => exact .text fits
      | carried child n => exact .carried fits

theorem forall_fitsUnder_of_walks : (gs : List Traced) → {names rest : List String} →
    {es : List TracedEvent} → Walks allowed names (linearise gs ++ es) rest →
      (∀ g ∈ gs, g.FitsUnder allowed names.head?) ∧ Walks allowed names es rest
  | [], _, _, _, h => ⟨nofun, h⟩
  | g :: gs, _, _, _, h => by
    rw [linearise, List.append_assoc] at h
    obtain ⟨first, h⟩ := fitsUnder_of_walks g h
    obtain ⟨others, h⟩ := forall_fitsUnder_of_walks gs h
    exact ⟨List.forall_mem_cons.2 ⟨first, others⟩, h⟩

end

/-- A void element in a tree that may stand where it does holds attributes and allowed children. -/
theorem FitsUnder.content {parent : Option String} {g : Traced} (h : g.FitsUnder allowed parent)
    {first last : Nat} {name : String} {kids : List Traced}
    (he : .element first last name kids ∈ g.elements) (hv : isVoid name = true) :
    ∀ kid ∈ kids, (∃ run a, kid = leaf (.attr run a)) ∨
      ∃ k n, kid = leaf (.carried k n) ∧ allowed name k n := by
  induction h with
  | @element _ _ _ outer children _ h ih =>
    rcases List.mem_cons.1 he with hsame | he
    · cases hsame
      have void : ¬∀ p ∈ some name, isVoid p = false := fun hp => by simp [hp name rfl] at hv
      intro kid hkid
      cases h kid hkid with
      | element hp _ => exact absurd hp void
      | text hp => exact absurd hp void
      | attr => exact .inl ⟨_, _, rfl⟩
      | carried hp => exact .inr ⟨_, _, rfl, hp name rfl hv⟩
    · obtain ⟨g, hg, he⟩ := mem_elementsAll_iff.1 he
      exact ih g hg he
  | text _ | attr | carried _ => cases he

/-! ### Elements as the rules show them -/

/-- If the elements inside the trees of a forest are joined, so are those of the forest. -/
theorem elementsAll_joinTexts_of_forall {gs : List Traced}
    (h : ∀ g ∈ gs, g.joined.elements = g.elements.map joined) :
    elementsAll (joinTexts gs) = (elementsAll gs).map joined := by
  rw [elementsAll_eq_flatMap, elementsAll_eq_flatMap]
  induction gs using joinTexts_induction with
  | nil => rfl
  | apart gs g _ ih =>
    rw [List.forall_mem_append, List.forall_mem_singleton] at h
    rw [List.flatMap_append, List.flatMap_append, List.map_append, ih h.1, List.flatMap_singleton,
      List.flatMap_singleton, h.2]
  | joined gs run s hs t _ _ ih =>
    have before := ih fun g hg => h g (List.mem_append_left _ hg)
    rw [List.flatMap_append] at before ⊢
    rw [List.flatMap_append, List.map_append, ← before, List.append_assoc]
    rfl

theorem elements_joined (g : Traced) : g.joined.elements = g.elements.map joined := by
  induction g using Traced.induction with
  | leaf part => rfl
  | element first last name children ih =>
    exact congrArg (element first last name (joinTexts children) :: ·)
      (elementsAll_joinTexts_of_forall ih)

/-- The elements of a forest as the rules show it are those of the forest, with their texts put
together if the rules say so. -/
theorem exists_of_mem_elementsAll_shown {rules : TextRules} {gs : List Traced} {e : Traced}
    (he : e ∈ elementsAll (rules.shown gs)) : ∃ g ∈ elementsAll gs, e = g ∨ e = g.joined := by
  have kept : ∀ g ∈ elementsAll (rules.kept gs), g ∈ elementsAll gs := by
    rw [TextRules.kept, elementsAll_eq_flatMap, elementsAll_eq_flatMap]
    split
    · exact fun g hg => (List.filter_sublist.flatMap elements).mem hg
    · exact fun g hg => hg
  rw [TextRules.shown, TextRules.joined] at he
  split at he
  · rw [elementsAll_joinTexts_of_forall fun g _ => elements_joined g] at he
    obtain ⟨g, hg, rfl⟩ := List.mem_map.1 he
    exact ⟨g, kept g hg, .inr rfl⟩
  · exact ⟨e, kept e he, .inl rfl⟩

/-- Leaves that are no texts stay as they are. -/
theorem joinTexts_of_no_text {gs : List Traced}
    (h : ∀ g ∈ gs, g.joined = g ∧ g.textRun? = none) : joinTexts gs = gs := by
  induction gs using joinTexts_induction with
  | nil => rfl
  | apart gs g _ ih =>
    rw [List.forall_mem_append, List.forall_mem_singleton] at h
    rw [ih h.1, h.2.1]
  | joined gs run s hs t _ _ _ =>
    cases (h _ (List.mem_append_right _ (List.mem_singleton_self _))).2

end Traced

/-! ### Building -/

/-- The name of the element whose start tag is pending before the child number `k`. -/
def pendingBefore (children : List Node) (k : Nat) : Option String :=
  ((children.take k).foldl Trail.afterChild {}).pendingName?

/-- A void element holds attributes, and children that came while its start tag was pending. -/
theorem Traces.content_of_void {forest : List Traced} {children : List Node}
    (h : Traces forest children) {first last : Nat} {name : String} {kids : List Traced}
    (he : .element first last name kids ∈ Traced.elementsAll forest) (hv : isVoid name = true) :
    ∀ kid ∈ kids, (∃ run a, kid = .leaf (.attr run a)) ∨
      ∃ k n, kid = .leaf (.carried k n) ∧ children[k]? = some n ∧ n.isMarkup = false ∧
        pendingBefore children k = some name := by
  -- What is allowed in a void element is what the statement says of a carried child.
  let allowed : VoidContent := fun name k n =>
    children[k]? = some n ∧ n.isMarkup = false ∧ pendingBefore children k = some name
  obtain ⟨rest, walks⟩ : ∃ rest, Walks allowed [] (Trail.tracedChildren {} 0 children) rest := by
    refine Trail.isSound_empty.walks_children 0 children fun k name n hk hm hn => ?_
    rw [Nat.zero_add]
    exact ⟨hk, hm, hn⟩
  have told : Traced.linearise forest ++ [] = Trail.tracedChildren {} 0 children :=
    (List.append_nil _).trans h
  rw [← told] at walks
  have fits := (Traced.forall_fitsUnder_of_walks forest walks).1
  obtain ⟨g, hg, he⟩ := Traced.mem_elementsAll_iff.1 he
  exact (fits g hg).content he hv

/-- A void element is shown as it is, since there are no texts in it. -/
theorem Traces.mem_of_void_shown {forest : List Traced} {children : List Node}
    (h : Traces forest children) {rules : TextRules} {first last : Nat} {name : String}
    {kids : List Traced}
    (he : .element first last name kids ∈ Traced.elementsAll (rules.shown forest))
    (hv : isVoid name = true) : .element first last name kids ∈ Traced.elementsAll forest := by
  obtain ⟨g, hg, same⟩ := Traced.exists_of_mem_elementsAll_shown he
  rcases same with rfl | same
  · exact hg
  · cases g with
    | leaf part => cases same
    | element first' last' name' inner =>
      cases same
      have noText : ∀ kid ∈ inner, kid.joined = kid ∧ kid.textRun? = none := by
        intro kid hkid
        rcases h.content_of_void hg hv kid hkid with ⟨_, _, rfl⟩ | ⟨_, _, rfl, -⟩ <;>
          exact ⟨rfl, rfl⟩
      have unchanged := Traced.joinTexts_of_no_text noText
      rw [Traced.joinTexts] at unchanged
      rwa [unchanged]

/-- A void element that was built holds attributes of its start tag, and children that came as they
are while that tag was pending: after the markup node that opened the element and before the one
with the end of the tag. If that is one markup node, there is no such child. Nothing else is in the
element: no text, no element and no child that came after the tag had ended. -/
theorem build_void {policy : Policy} {root : Node} {stats : Stats} {children : List Node}
    {built : Built} (hb : build (policy.rules root) stats children = .ok built) :
    ∃ forest, Traces forest children ∧
      let shown := (policy.rules root).shown forest
      built.children = Traced.nodes shown ∧
      ∀ first last name kids, .element first last name kids ∈ Traced.elementsAll shown →
        isVoid name → ∀ kid ∈ kids,
          (∃ run a, kid = .leaf (.attr run a)) ∨
            ∃ k n, kid = .leaf (.carried k n) ∧ first < k ∧ k < last ∧
              children[k]? = some n ∧ n.isMarkup = false ∧
              pendingBefore children k = some name := by
  obtain ⟨forest, hforest, hchildren, -⟩ := traces_build hb
  refine ⟨forest, hforest, hchildren, fun first last name kids he hv kid hkid => ?_⟩
  have element := hforest.mem_of_void_shown he hv
  rcases hforest.content_of_void element hv kid hkid with hattr | ⟨k, n, rfl, hk, hm, hpending⟩
  · exact .inl hattr
  · obtain ⟨hfirst, hlast⟩ := hforest.between element hkid
    exact .inr ⟨k, n, rfl, hfirst, hlast, hk, hm, hpending⟩

/-- An image in a paragraph, whose start tag is split around an attribute. -/
def splitImage : List Node :=
  [.markup ["<p><img src=a"], .attr "alt" [.foreign "expr" "x" []], .markup [" hidden>b<br></p>"]]

theorem build_void_splitImage :
    ∃ built forest,
      build (Policy.rules {} (.document splitImage)) {} splitImage = .ok built ∧
        built.children =
          [.element "p"
            [.element "img"
              [.attr "src" [.text "a"], .attr "alt" [.foreign "expr" "x" []],
                .attr "hidden" [.text ""]],
              .text "b", .element "br" []]] ∧
        Traces forest splitImage ∧
        let shown := (Policy.rules {} (.document splitImage)).shown forest
        built.children = Traced.nodes shown ∧
        ∀ first last name kids, .element first last name kids ∈ Traced.elementsAll shown →
          isVoid name → ∀ kid ∈ kids,
            (∃ run a, kid = .leaf (.attr run a)) ∨
              ∃ k n, kid = .leaf (.carried k n) ∧ first < k ∧ k < last ∧
                splitImage[k]? = some n ∧ n.isMarkup = false ∧
                pendingBefore splitImage k = some name := by
  have result : (build (Policy.rules {} (.document splitImage)) {} splitImage).toOption.map
      Built.children =
        some [.element "p"
          [.element "img"
            [.attr "src" [.text "a"], .attr "alt" [.foreign "expr" "x" []],
              .attr "hidden" [.text ""]],
            .text "b", .element "br" []]] := by
    decide +kernel
  obtain ⟨built, hb, hbuilt⟩ := exists_of_toOption_map result
  obtain ⟨forest, hforest, hchildren, hvoid⟩ := build_void hb
  exact ⟨built, forest, hb, hbuilt, hforest, hchildren, hvoid⟩

/-- A void element holds any child that comes while its start tag is pending, and it need not be an
attribute. -/
theorem void_element_of_interrupted_tag :
    ∃ built,
      build (Policy.rules {} (.method "Render" [])) {}
          [.markup ["<img src=a"], .foreign "expr" "x" [], .markup [">after"]] = .ok built ∧
        built.stats.elements = 1 ∧ isVoid "img" ∧
        built.children =
          [.element "img" [.attr "src" [.text "a"], .foreign "expr" "x" []], .text "after"] ∧
        (Node.foreign "expr" "x" []).isAttr = false := by
  have result : (build (Policy.rules {} (.method "Render" [])) {}
      [.markup ["<img src=a"], .foreign "expr" "x" [], .markup [">after"]]).toOption.map
        (fun built => (built.children, built.stats.elements)) =
      some
        ([.element "img" [.attr "src" [.text "a"], .foreign "expr" "x" []], .text "after"], 1) := by
    decide +kernel
  obtain ⟨built, hb, hbuilt⟩ := exists_of_toOption_map result
  obtain ⟨hchildren, helements⟩ := Prod.mk.inj hbuilt
  exact ⟨built, hb, helements, by decide +kernel, hchildren, rfl⟩

end MarkupTree
