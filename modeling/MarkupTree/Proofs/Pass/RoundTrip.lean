import MarkupTree.Proofs.Pass.Respelling
import MarkupTree.Proofs.Pass.Settling

/-!
# Lowered trees get their structure back

If a tree can be lowered (`isLowerable`), then the pass over the lowered tree succeeds and gives
the tree back (`restructure_lower`). This holds for every policy, and however far the lowering
reaches.

One list of children is given back by building, by induction on the trees in it: each is spelled
before the rest of the list, and the rest is built as if the tree were in place already
(`completes_spell`, `build_flatten`). The lists of carried nodes below it are given back by the
pass, which settles these nodes first (`settles_lower`).

## Main results

* `completes_spell`, `completes_spellAll` : a node and a list of nodes that are written.
* `build_flatten` : a list of children as markup and carried nodes is built into the children.
* `settles_lower` : a lowered tree settles to the tree.
* `restructure_lower` : the pass over a lowered tree gives the tree back.
-/

namespace MarkupTree

variable {policy : Policy} {reach : Reach} {rules : TextRules} {built : List Node} {f g : Flat}
  {s : Stack} {name : String} {children : List Node} {n : Node}

/-! ### Lists of nodes that fit -/

theorem fits_of_allFit (h : allFit policy reach children) :
    ∀ c ∈ children, fits policy reach c := by
  induction children with
  | nil => nofun
  | cons c cs ih =>
    obtain ⟨hc, hcs⟩ := Bool.and_eq_true_iff.1 h
    exact List.forall_mem_cons.2 ⟨hc, ih hcs⟩

theorem fitsInValue_of_allFitInValue (h : allFitInValue policy reach children) :
    ∀ c ∈ children, fitsInValue policy reach c := by
  induction children with
  | nil => nofun
  | cons c cs ih =>
    obtain ⟨hc, hcs⟩ := Bool.and_eq_true_iff.1 h
    exact List.forall_mem_cons.2 ⟨hc, ih hcs⟩

theorem textsApart_of_append {ms ns : List Node} (h : textsApart (ms ++ ns)) : textsApart ns := by
  induction ms with
  | nil => exact h
  | cons m ms ih => exact ih (Bool.and_eq_true_iff.1 h).2

/-- What the nodes are that stand where no element is open. -/
theorem of_standUnder (h : standUnder rules children) :
    textsApart children ∧ (∀ c ∈ children, c.isAttr = false) ∧
      ∀ c ∈ children, rules.drops c = false := by
  obtain ⟨hapart, hall⟩ := Bool.and_eq_true_iff.1 h
  refine ⟨hapart, fun c hc => ?_, fun c hc => ?_⟩
  · simpa using (Bool.and_eq_true_iff.1 (List.all_eq_true.1 hall c hc)).1
  · simpa using (Bool.and_eq_true_iff.1 (List.all_eq_true.1 hall c hc)).2

/-- The children of an element that fits are its attributes and then its content. -/
theorem exists_of_standInside (h : standInside name children) :
    ∃ attributes content, children = attributes ++ content ∧
      (∀ c ∈ attributes, c.isAttr = true) ∧ (∀ c ∈ content, c.isAttr = false) ∧
      textsApart content ∧ (isVoid name = true → content = []) := by
  obtain ⟨h, hvoid⟩ := Bool.and_eq_true_iff.1 h
  obtain ⟨hapart, hlead⟩ := Bool.and_eq_true_iff.1 h
  have whole : children.takeWhile Node.isAttr ++ children.dropWhile Node.isAttr = children :=
    List.takeWhile_append_dropWhile
  refine ⟨children.takeWhile Node.isAttr, children.dropWhile Node.isAttr, whole.symm, ?_, ?_, ?_,
    ?_⟩
  · exact fun c hc => List.mem_takeWhile_imp hc
  · intro c hc
    simpa using List.all_eq_true.1 hlead c hc
  · exact textsApart_of_append (whole.symm ▸ hapart)
  · intro hv
    rw [hv, Bool.not_true, Bool.false_or, List.all_eq_true] at hvoid
    exact List.dropWhile_eq_nil_iff.2 hvoid

/-! ### Attributes and content apart -/

theorem spell_of_isAttr (h : n.isAttr = true) (f : Flat) : spell reach n f = f := by
  cases n <;> first | rfl | cases h

theorem spellInTag_of_not_isAttr (h : n.isAttr = false) (f : Flat) : spellInTag reach n f = f := by
  cases n <;> first | rfl | cases h

theorem spellAll_append {ms ns : List Node} (h : ∀ m ∈ ms, m.isAttr = true) (f : Flat) :
    spellAll reach (ms ++ ns) f = spellAll reach ns f := by
  induction ms with
  | nil => rfl
  | cons m ms ih =>
    obtain ⟨hm, hms⟩ := List.forall_mem_cons.1 h
    rw [List.cons_append, spellAll, spell_of_isAttr hm, ih hms]

theorem spellAttributes_of_not_isAttr {ns : List Node} (h : ∀ n ∈ ns, n.isAttr = false) (f : Flat) :
    spellAttributes reach ns f = f := by
  induction ns with
  | nil => rfl
  | cons n ns ih =>
    obtain ⟨hn, hns⟩ := List.forall_mem_cons.1 h
    rw [spellAttributes, spellInTag_of_not_isAttr hn, ih hns]

theorem spellAttributes_append {ms ns : List Node} (h : ∀ n ∈ ns, n.isAttr = false) (f : Flat) :
    spellAttributes reach (ms ++ ns) f = spellAttributes reach ms f := by
  induction ms with
  | nil => exact spellAttributes_of_not_isAttr h f
  | cons m ms ih => rw [List.cons_append, spellAttributes, spellAttributes, ih]

theorem lowerParts_here (parts : List Node) : lowerParts .here parts = parts := by
  induction parts with
  | nil => rfl
  | cons n ns ih =>
    have same : lowerPart .here n = n := by cases n <;> rfl
    rw [lowerParts, same, ih]

/-! ### Where pieces meet -/

/-- No attribute can be taken for more of the name of its element. -/
theorem endsName_spellAttributes (ns : List Node) (h : endsName f.head) :
    endsName (spellAttributes reach ns f).head := by
  induction ns with
  | nil => exact h
  | cons n ns ih =>
    rw [spellAttributes]
    cases n with
    | attr key parts =>
      simp only [spellInTag]
      split
      · rfl
      · rfl
    | _ => exact ih

/-- What does not start with a text cannot be taken for more of a text. -/
theorem endsText_spellAll {ns : List Node} (hn : ∀ n ∈ ns, fits policy reach n = true)
    (ha : ∀ n ∈ ns, n.isAttr = false) (ht : startsWithText ns = false) (h : endsText f.head) :
    endsText (spellAll .here ns f).head := by
  cases ns with
  | nil => exact h
  | cons n ns =>
    have fits := hn n List.mem_cons_self
    cases n with
    | text text => cases ht
    | element name children =>
      have named : isElementName name = true :=
        (Bool.and_eq_true_iff.1 (Bool.and_eq_true_iff.1 fits).1).1
      obtain ⟨c, cs, hname, hletter, -⟩ :=
        exists_of_isTagName (isTagName_of_isElementName named)
      simp only [spellAll, spell, Flat.write, hname, List.cons_append]
      simp [endsText, opensMarkup, hletter]
    | foreign label payload children => rfl
    | attr key parts => cases ha (.attr key parts) List.mem_cons_self
    | _ => cases fits

/-! ### One list of children -/

/-- A node that is written before the rest is read as if it had been put in place. -/
def CompletesNode (rules : TextRules) (n : Node) : Prop :=
  ∀ (built : List Node) (f : Flat) (s : Stack), (n.isText = true → endsText f.head) →
    (s.frames = [] → rules.drops n = false) →
    Completes rules built none f (s.push n) n.isText →
    Completes rules built none (spell .here n f) s (!n.isText)

theorem frames_push_eq_nil (n : Node) (s : Stack) : (s.push n).frames = [] ↔ s.frames = [] := by
  obtain ⟨root, frames⟩ := s
  cases frames with
  | nil => exact Iff.rfl
  | cons f fs => exact ⟨nofun, nofun⟩

/-- A list of nodes that are written before the rest. -/
theorem completes_spellAll {ns : List Node} (hn : ∀ n ∈ ns, CompletesNode rules n)
    (hfit : ∀ n ∈ ns, fits policy reach n = true) (hattr : ∀ n ∈ ns, n.isAttr = false)
    (hapart : textsApart ns) (hd : s.frames = [] → ∀ n ∈ ns, rules.drops n = false)
    (hf : endsText f.head) (h : Completes rules built none f (s.pushAll ns) true) :
    Completes rules built none (spellAll .here ns f) s (!startsWithText ns) := by
  induction ns generalizing s with
  | nil => exact h
  | cons n ns ih =>
    obtain ⟨hn, hns⟩ := List.forall_mem_cons.1 hn
    obtain ⟨-, hfits⟩ := List.forall_mem_cons.1 hfit
    obtain ⟨-, hattrs⟩ := List.forall_mem_cons.1 hattr
    obtain ⟨hfirst, haparts⟩ := Bool.and_eq_true_iff.1 hapart
    have next : n.isText = true → startsWithText ns = false := by
      intro ht
      simpa [ht] using hfirst
    have outside (hs : (s.push n).frames = []) : ∀ m ∈ ns, rules.drops m = false :=
      fun m hm => hd ((frames_push_eq_nil n s).1 hs) m (List.mem_cons_of_mem n hm)
    have later := ih hns hfits hattrs haparts outside h
    refine hn built (spellAll .here ns f) s ?_ ?_ ?_
    · exact fun ht => endsText_spellAll hfits hattrs (next ht) hf
    · exact fun hs => hd hs n List.mem_cons_self
    · exact later.weaken fun ht => by rw [next ht]; rfl

theorem eq_of_literal? {parts : List Node} {value : String} (h : literal? parts = some value) :
    parts = [.text value] := by
  unfold literal? at h
  split at h
  · cases h
    rfl
  · cases h

/-- The attributes of a start tag that are written before the rest of the tag. -/
theorem completes_spellAttributes {attributes : List Node}
    (hfit : ∀ n ∈ attributes, fits policy reach n = true)
    (hattr : ∀ n ∈ attributes, n.isAttr = true) (hraw : hasRawText name = false)
    (h : Completes rules built (some name) f (s.enter name (attributes.reverse ++ children))
      false) :
    Completes rules built (some name) (spellAttributes .here attributes f)
      (s.enter name children) false := by
  induction attributes generalizing children with
  | nil => exact h
  | cons n ns ih =>
    obtain ⟨hn, hns⟩ := List.forall_mem_cons.1 hfit
    obtain ⟨ha, has⟩ := List.forall_mem_cons.1 hattr
    rw [List.reverse_cons, List.append_assoc] at h
    have later := ih hns has h
    cases n with
    | attr key parts =>
      simp only [spellAttributes, spellInTag]
      simp only [fits] at hn
      cases hl : literal? parts with
      | some value =>
        obtain rfl := eq_of_literal? hl
        rw [hl] at hn
        exact later.literal hn hraw
      | none =>
        rw [lowerParts_here]
        have carried := later.carry (n := .attr key parts) (s := s.enter name children) ?_ ?_
        · exact carried.weaken nofun
        · intro b hb
          have frames := Builder.frames_of_stack_enter hb
          rw [Builder.addChild, frames]
          rfl
        · intro _ hm
          cases hm
          exact ⟨hraw, rfl⟩
    | _ => cases ha

/-- The start tag of an element with all its attributes, before the content. -/
theorem completes_spellTag {attributes content : List Node} (hname : isElementName name)
    (hfit : ∀ n ∈ attributes, fits policy reach n = true)
    (hattr : ∀ n ∈ attributes, n.isAttr = true) (hcontent : ∀ n ∈ content, n.isAttr = false)
    (hf : endsName f.head)
    (h : Completes rules built (some name) f (s.enter name attributes.reverse) false) :
    Completes rules built none
      ((spellAttributes .here (attributes ++ content) f).write ('<' :: name.toList)) s true := by
  rw [spellAttributes_append hcontent]
  rw [← List.append_nil attributes.reverse] at h
  have tagged := completes_spellAttributes hfit hattr (hasRawText_of_isElementName hname) h
  exact tagged.startTag hname (endsName_spellAttributes attributes hf)

/-- A node that fits is read as if it had been put in place. -/
theorem completes_spell (rules : TextRules) (h : fits policy reach n) (ha : n.isAttr = false) :
    CompletesNode rules n := by
  induction n using Node.induction with
  | step n ih =>
    intro built f s hf hd hn
    cases n with
    | text text => exact hn.text (by simpa [fits] using h) (hf rfl) hd
    | foreign label payload children =>
      exact hn.carry (n := .foreign label payload children) (s := s) (fun _ _ => rfl) nofun
    | element name children =>
      obtain ⟨h, hfit⟩ := Bool.and_eq_true_iff.1 h
      obtain ⟨hname, hstand⟩ := Bool.and_eq_true_iff.1 h
      have hfit := fits_of_allFit hfit
      have hraw := hasRawText_of_isElementName hname
      obtain ⟨attributes, content, rfl, hattr, hcontent, hapart, hvoid⟩ :=
        exists_of_standInside hstand
      obtain ⟨hfitAttr, hfitContent⟩ := List.forall_mem_append.1 hfit
      have inner : ∀ n ∈ content, CompletesNode rules n := fun n hn =>
        ih _ rfl n (List.mem_append_right _ hn) (hfitContent n hn) (hcontent n hn)
      -- The element is read from its end: what the rest needs is proved, the start tag last.
      cases hv : isVoid name with
      | true =>
        obtain rfl := hvoid hv
        rw [List.append_nil, ← List.reverse_reverse attributes] at hn
        have closed := hn.closeVoidTag hraw hv
        simp only [spell, hv, if_true]
        exact completes_spellTag hname hfitAttr hattr hcontent rfl closed
      | false =>
        rw [← List.reverse_reverse (attributes ++ content), List.reverse_append] at hn
        have ended := hn.endTag hname
        rw [← Stack.pushAll_enter] at ended
        have inside : (s.enter name attributes.reverse).frames = [] →
            ∀ n ∈ content, rules.drops n = false := fun h => absurd h (List.cons_ne_nil _ _)
        have filled := completes_spellAll inner hfitContent hcontent hapart inside rfl ended
        have first : Completes rules built none
            (spellAll .here content (f.write (spellEndTag name)))
            (s.enter name attributes.reverse) false :=
          filled.weaken fun h => absurd h Bool.false_ne_true
        have closed := first.closeContentTag hraw hv
        simp only [spell, hv, spellAll_append hattr]
        exact completes_spellTag hname hfitAttr hattr hcontent rfl closed
    | attr key parts => cases ha
    | _ => cases h

/-- A list of children as markup and carried nodes is built into the children. -/
theorem build_flatten (stats : Stats) (hstand : standUnder rules children)
    (hfit : allFit policy reach children) :
    ∃ x, build rules stats (flatten .here children) = .ok x ∧ x.children = children := by
  obtain ⟨hapart, hattr, hdrops⟩ := of_standUnder hstand
  have hfits := fits_of_allFit hfit
  have inner : ∀ n ∈ children, CompletesNode rules n := fun n hn =>
    completes_spell rules (hfits n hn) (hattr n hn)
  have ended : Completes rules children.reverse none {} (Stack.pushAll children {}) true := by
    have done := Stack.pushAll_empty children []
    rw [List.append_nil] at done
    rw [done]
    exact Completes.nil rfl rfl
  have whole := completes_spellAll inner hfits hattr hapart (fun _ => hdrops) rfl ended
  obtain ⟨x, hx, hxs⟩ := whole.nodes.build stats
  exact ⟨x, hx, hxs.trans (List.reverse_reverse children)⟩

/-! ### Whole trees -/

/-- Where no element is open, nodes that are not markup are put in place one after another. -/
theorem stack_of_addChildren {b c : Builder} (hm : children.any Node.isMarkup = false)
    (hb : b.frames = []) (h : children.foldlM (Builder.addChild rules) b = .ok c) :
    c.stack = b.stack.pushAll children := by
  induction children generalizing b with
  | nil =>
    cases h
    rfl
  | cons n ns ih =>
    rw [List.any_cons, Bool.or_eq_false_iff] at hm
    obtain ⟨d, hd, h⟩ := bind_eq_ok_iff.1 h
    have pushed : d = b.push n := by
      cases n with
      | markup pieces => cases hm.1
      | attr key parts =>
        rw [Builder.addChild, hb] at hd
        cases hd
      | _ => exact (Except.ok.inj hd).symm
    subst pushed
    have outside : (b.push n).frames = [] := by rw [Builder.push, hb]
    rw [ih hm.2 outside h, Builder.stack_push]
    rfl

/-- Without markup among them, nodes are built into themselves. -/
theorem children_of_build {stats : Stats} {x : Built}
    (hm : children.any Node.isMarkup = false) (h : build rules stats children = .ok x) :
    x.children = children := by
  obtain ⟨b, hb, h⟩ := bind_eq_ok_iff.1 h
  obtain ⟨c, hc, h⟩ := bind_eq_ok_iff.1 h
  cases h
  have same : c = b := by
    rw [Builder.finish] at hc
    split at hc
    · exact (Except.ok.inj hc).symm
    · cases hc
  have root : b.root = children.reverse := by
    have placed := (stack_of_addChildren hm rfl hb).trans (Stack.pushAll_empty children [])
    rw [List.append_nil] at placed
    exact congrArg Stack.root placed
  rw [same, root, List.reverse_reverse]

/-- A part of an attribute's value that fits is lowered as a whole tree is, or it is left as it is
and has no markup. -/
theorem fitsInValue_cases (h : fitsInValue policy reach n) :
    (fits policy reach n ∧ isLowerable policy reach n ∧ lowerPart reach n = lower reach n) ∨
      (n.containsMarkup = false ∧ lowerPart reach n = n) := by
  cases n with
  | foreign label payload children =>
    simp only [fitsInValue] at h
    simp only [lowerPart]
    split_ifs at h ⊢ with hr
    · exact .inl ⟨h, h, rfl⟩
    · exact .inr ⟨by simpa [Node.containsMarkup] using h, rfl⟩
  | _ => exact .inr ⟨by simpa [fitsInValue] using h, rfl⟩

/-- What fits has no markup. -/
theorem containsMarkup_of_fits (h : fits policy reach n) : n.containsMarkup = false := by
  induction n using Node.induction with
  | step n ih =>
    have all {cs : List Node} (hc : n.children? = some cs)
        (h : ∀ c ∈ cs, fits policy reach c = true ∨ c.containsMarkup = false) :
        n.containsMarkup = false := by
      rw [Node.containsMarkup_of_children? hc, List.any_eq_false]
      intro c hcs
      rcases h c hcs with hfit | hnone
      · simpa using ih cs hc c hcs hfit
      · simpa using hnone
    cases n with
    | text text => rfl
    | element name children | foreign label payload children =>
      have hfit := fits_of_allFit (Bool.and_eq_true_iff.1 h).2
      exact all rfl fun c hc => .inl (hfit c hc)
    | attr key parts =>
      simp only [fits] at h
      cases hl : literal? parts with
      | some value =>
        rw [eq_of_literal? hl]
        rfl
      | none =>
        rw [hl] at h
        refine all rfl fun c hc => ?_
        rcases fitsInValue_cases (fitsInValue_of_allFitInValue h c hc) with ⟨hfit, -⟩ | ⟨hnone, -⟩
        · exact .inl hfit
        · exact .inr hnone
    | _ => cases h

/-- Two lists that are being written, with the same text at their start, of which the nodes of the
first settle to those of the second. -/
structure FlatSettles (policy : Policy) (f g : Flat) : Prop where
  head : f.head = g.head
  tail : List.Forall₂ (Settles policy) f.tail g.tail

namespace FlatSettles

theorem write (h : FlatSettles policy f g) (text : List Char) :
    FlatSettles policy (f.write text) (g.write text) :=
  ⟨congrArg (text ++ ·) h.head, h.tail⟩

theorem nodes (h : FlatSettles policy f g) :
    List.Forall₂ (Settles policy) f.nodes g.nodes := by
  unfold Flat.nodes
  rw [h.head]
  split
  · exact h.tail
  · exact .cons (settles_of_none rfl) h.tail

theorem carry (h : FlatSettles policy f g) {m : Node} (hm : Settles policy m n) :
    FlatSettles policy (f.carry m) (g.carry n) :=
  ⟨rfl, .cons hm h.nodes⟩

theorem nil : FlatSettles policy {} {} := ⟨rfl, .nil⟩

end FlatSettles

/-- What a lowering does below one list of children is undone by settling. -/
structure Restores (policy : Policy) (reach : Reach) (n : Node) : Prop where
  content : fits policy reach n → ∀ {f g : Flat}, FlatSettles policy f g →
    FlatSettles policy (spell reach n f) (spell .here n g)
  inTag : fits policy reach n → ∀ {f g : Flat}, FlatSettles policy f g →
    FlatSettles policy (spellInTag reach n f) (spellInTag .here n g)
  whole : isLowerable policy reach n → Settles policy (lower reach n) n

theorem flatSettles_spellAll {ns : List Node} (hn : ∀ n ∈ ns, Restores policy reach n)
    (hfit : ∀ n ∈ ns, fits policy reach n = true) (h : FlatSettles policy f g) :
    FlatSettles policy (spellAll reach ns f) (spellAll .here ns g) := by
  induction ns with
  | nil => exact h
  | cons n ns ih =>
    obtain ⟨hn, hns⟩ := List.forall_mem_cons.1 hn
    obtain ⟨hf, hfs⟩ := List.forall_mem_cons.1 hfit
    exact hn.content hf (ih hns hfs)

theorem flatSettles_spellAttributes {ns : List Node} (hn : ∀ n ∈ ns, Restores policy reach n)
    (hfit : ∀ n ∈ ns, fits policy reach n = true) (h : FlatSettles policy f g) :
    FlatSettles policy (spellAttributes reach ns f) (spellAttributes .here ns g) := by
  induction ns with
  | nil => exact h
  | cons n ns ih =>
    obtain ⟨hn, hns⟩ := List.forall_mem_cons.1 hn
    obtain ⟨hf, hfs⟩ := List.forall_mem_cons.1 hfit
    exact hn.inTag hf (ih hns hfs)

/-- A node whose children were lowered settles to the node, if what they carry settles. -/
theorem settles_of_flatten (hc : n.children? = some children)
    (hstand : standUnder (policy.rules n) children) (hfit : allFit policy reach children)
    (hs : List.Forall₂ (Settles policy) (flatten reach children) (flatten .here children)) :
    Settles policy (n.withChildren (flatten reach children)) n := by
  refine (settles_iff (Node.children?_withChildren hc)).2 ⟨flatten .here children, hs, ?_⟩
  obtain ⟨x, hx, hxs⟩ := build_flatten {} hstand hfit
  have back : n.withChildren children = n := Node.withChildren_of_children? hc
  rw [Regrows]
  rw [Policy.rules_withChildren, Node.withChildren_withChildren]
  split
  · refine ⟨x, hx, ?_⟩
    rw [hxs, Node.withChildren_withChildren, back]
  · next hnone =>
    have same := children_of_build (by simpa using hnone) hx
    rw [← same, hxs, back]

/-- A part of an attribute's value settles to what it was before it was lowered. -/
theorem Restores.part (h : Restores policy reach n) (hfit : fitsInValue policy reach n) :
    Settles policy (lowerPart reach n) n := by
  rcases fitsInValue_cases hfit with ⟨-, hlower, heq⟩ | ⟨hnone, heq⟩
  · rw [heq]
    exact h.whole hlower
  · rw [heq]
    exact settles_of_containsMarkup hnone

theorem forall₂_lowerParts {parts : List Node} (hn : ∀ n ∈ parts, Restores policy reach n)
    (hfit : ∀ n ∈ parts, fitsInValue policy reach n = true) :
    List.Forall₂ (Settles policy) (lowerParts reach parts) parts := by
  induction parts with
  | nil => exact .nil
  | cons n ns ih =>
    obtain ⟨hn, hns⟩ := List.forall_mem_cons.1 hn
    obtain ⟨hf, hfs⟩ := List.forall_mem_cons.1 hfit
    exact .cons (hn.part hf) (ih hns hfs)

/-- An attribute settles to what it was before the parts of its value were lowered. -/
theorem settles_attr {key : String} {parts : List Node}
    (hn : ∀ n ∈ parts, Restores policy reach n) (hfit : fits policy reach (.attr key parts))
    (hvalue : allFitInValue policy reach parts) :
    Settles policy (.attr key (lowerParts reach parts)) (.attr key parts) := by
  have settled := forall₂_lowerParts hn (fitsInValue_of_allFitInValue hvalue)
  have none : parts.any Node.isMarkup = false := by
    have below := containsMarkup_of_fits hfit
    rw [Node.containsMarkup_of_children? rfl, List.any_eq_false] at below
    refine List.any_eq_false.2 fun c hc => ?_
    simpa using Node.isMarkup_of_containsMarkup (by simpa using below c hc)
  refine (settles_iff rfl).2 ⟨parts, settled, ?_⟩
  rw [Regrows, none]
  rfl

/-- Every node is restored: a lowering is undone from below. -/
theorem restores (policy : Policy) (reach : Reach) (n : Node) : Restores policy reach n := by
  induction n using Node.induction with
  | step n ih =>
    have whole (h : isLowerable policy reach n) : Settles policy (lower reach n) n := by
      cases n with
      | document children | method _ children | foreign _ _ children =>
        obtain ⟨hstand, hfit⟩ := Bool.and_eq_true_iff.1 h
        have carried := flatSettles_spellAll (ih children rfl) (fits_of_allFit hfit) .nil
        exact settles_of_flatten rfl hstand hfit carried.nodes
      | _ => cases h
    refine ⟨?_, ?_, whole⟩
    · intro hfit f g h
      cases n with
      | text text => exact h.write (escapeText text)
      | element name children =>
        have inner := fits_of_allFit (Bool.and_eq_true_iff.1 hfit).2
        have content : FlatSettles policy
            (if isVoid name then f else spellAll reach children (f.write (spellEndTag name)))
            (if isVoid name then g else spellAll .here children (g.write (spellEndTag name))) := by
          split
          · exact h
          · exact flatSettles_spellAll (ih children rfl) inner (h.write _)
        have tag := flatSettles_spellAttributes (ih children rfl) inner (content.write ['>'])
        exact tag.write ('<' :: name.toList)
      | foreign label payload children =>
        refine h.carry ?_
        rw [if_pos rfl]
        split
        · exact settles_of_containsMarkup (containsMarkup_of_fits hfit)
        · exact whole hfit
      | attr key parts => exact h
      | _ => cases hfit
    · intro hfit f g h
      cases n with
      | attr key parts =>
        simp only [spellInTag]
        cases hl : literal? parts with
        | some value => exact h.write (spellAttribute key value)
        | none =>
          have hvalue : allFitInValue policy reach parts := by
            simpa only [fits, hl, Option.isSome_none, Bool.false_eq_true, if_false] using hfit
          simp only [lowerParts_here]
          exact h.carry (settles_attr (ih parts rfl) hfit hvalue)
      | _ => exact h

/-- A lowered tree settles to the tree. -/
theorem settles_lower {tree : Node} (h : isLowerable policy reach tree) :
    Settles policy (lower reach tree) tree :=
  (restores policy reach tree).whole h

/-- The pass over a lowered tree succeeds and gives the tree back. -/
theorem restructure_lower {tree : Node} (h : isLowerable policy reach tree) :
    (restructure policy (lower reach tree)).failure = none ∧
      (restructure policy (lower reach tree)).result = tree :=
  settles_lower h

/-- A paragraph with a dynamic attribute between two others, whose value is foreign, and with a
branch and a void element in it. -/
def dynamicParagraph : Node :=
  .method "show"
    [.element "p"
      [.attr "class" [.text "a \"b\" & c"],
        .attr "id" [.text "item-", .foreign "expr" "i" [.element "i" [.text "n"]]],
        .attr "lang" [.text ""],
        .text "1 < 2",
        .foreign "branch" "c" [.element "b" [.text "yes"], .text "&amp;"],
        .element "img" [.attr "src" [.foreign "expr" "url" []], .attr "alt" [.text "x"]]]]

theorem restructure_lower_dynamicParagraph :
    isLowerable {} .everywhere dynamicParagraph = true ∧
      (restructure {} (lower .everywhere dynamicParagraph)).failure = none ∧
      (restructure {} (lower .everywhere dynamicParagraph)).result = dynamicParagraph := by
  have lowerable : isLowerable {} .everywhere dynamicParagraph = true := by decide +kernel
  exact ⟨lowerable, restructure_lower lowerable⟩

end MarkupTree
