import MarkupTree.Proofs.Pass.Completion
import MarkupTree.Proofs.Pass.Failing
import MarkupTree.Proofs.Replay.Trail

/-!
# Markup that is appended to a finished element

An attribute has to stand in an open element. When the children of a node are rebuilt, no element is
open at first, whatever the node is: the node itself does not count, even if it is an element. So
the attributes that an element already has stand outside of an element as soon as the element's
children are rebuilt, and the first of them is why the rebuilding fails (`check_eq_error_iff`).

A finished tree has its attributes right under their elements. If markup is put after the last child
of one of its elements, then the next pass rebuilds the children of that element. It succeeds if the
element has no attribute, and fails with the first one if it has (`attributes_of_rebuilt_element`).
All else in the tree is finished, so the tree fails as the one node that was changed
(`failure_replace`).

## Main definitions

* `MeetsAttribute` : an attribute is met where no element is open.
* `firstAttribute?` : the first attribute of a list of nodes.

## Main results

* `check_eq_error_iff` : a list of children fails with an attribute exactly if it is met so.
* `failure_replace` : a finished tree with another node in a place fails as that node does.
* `attributes_of_rebuilt_element` : a finished tree with markup put into one of its elements.
-/

namespace MarkupTree

variable {policy : Policy} {children : List Node} {a : String} {e : Failure}

/-! ### Attributes where no element is open -/

/-- A walk along `children` from the trail `t` comes to an attribute named `a` while no element is
open. -/
def MeetsAttribute (t : Trail) (children : List Node) (a : String) : Prop :=
  ∃ before parts after t', children = before ++ .attr a parts :: after ∧
    before.foldlM Trail.passChild t = .ok t' ∧ t'.names = []

namespace Trail

/-- No token is an attribute out of place. -/
theorem pass_ne (t : Trail) (token : Token) :
    t.pass token ≠ .error (.attributeOutsideElement a) := by
  rw [pass]
  cases token with
  | endTag found =>
    simp only [violation?]
    split_ifs <;> simp
  | _ => simp [violation?]

theorem passResumed_ne (t : Trail) (token : Token) :
    t.passResumed token ≠ .error (.attributeOutsideElement a) := by
  cases token with
  | startTag name attributes ending => exact nofun
  | doctype text => exact pass_ne t (.doctype text)
  | endTag name => exact pass_ne t (.endTag name)
  | text text => exact pass_ne t (.text text)
  | comment text => exact pass_ne t (.comment text)
  | endOfInput => exact pass_ne t .endOfInput

theorem foldlM_pass_ne (tokens : List Token) (t : Trail) :
    tokens.foldlM pass t ≠ .error (.attributeOutsideElement a) := by
  induction tokens generalizing t with
  | nil => exact nofun
  | cons token tokens ih =>
    rw [List.foldlM_cons]
    cases h : t.pass token with
    | error failure => exact fun he => pass_ne t token (h.trans he)
    | ok t' => exact ih t'

/-- In markup there is no attribute out of place. -/
theorem passRun_ne (t : Trail) (text : String) :
    t.passRun text ≠ .error (.attributeOutsideElement a) := by
  rw [passRun]
  cases t.pendingName? with
  | none => exact foldlM_pass_ne _ _
  | some name =>
    simp only
    cases tagRestTokens name text with
    | nil => simp
    | cons first others =>
      simp only
      cases h : passResumed { t with tagPending := false } first with
      | error failure => exact fun he => passResumed_ne _ _ (h.trans he)
      | ok t' => exact foldlM_pass_ne others t'

end Trail

theorem MeetsAttribute.cons {t t' : Trail} {child : Node} (h : t.passChild child = .ok t') :
    MeetsAttribute t (child :: children) a ↔ MeetsAttribute t' children a := by
  constructor
  · rintro ⟨before, parts, after, u, heq, hu, hopen⟩
    cases before with
    | nil =>
      cases hu
      cases heq
      simp [Trail.passChild, hopen] at h
    | cons first before =>
      cases heq
      rw [List.foldlM_cons, h] at hu
      exact ⟨before, parts, after, u, rfl, hu, hopen⟩
  · rintro ⟨before, parts, after, u, rfl, hu, hopen⟩
    refine ⟨child :: before, parts, after, u, rfl, ?_, hopen⟩
    rw [List.foldlM_cons, h]
    exact hu

theorem MeetsAttribute.of_error {t : Trail} {child : Node} (h : t.passChild child = .error e) :
    MeetsAttribute t (child :: children) a ↔ e = .attributeOutsideElement a := by
  constructor
  · rintro ⟨before, parts, after, u, heq, hu, hopen⟩
    cases before with
    | nil =>
      cases hu
      cases heq
      simp only [Trail.passChild, hopen, List.isEmpty_nil, if_true, Except.error.injEq] at h
      exact h.symm
    | cons first before =>
      cases heq
      rw [List.foldlM_cons, h] at hu
      cases hu
  · rintro rfl
    cases child with
    | attr name parts =>
      simp only [Trail.passChild] at h
      split at h
      · next hopen =>
        cases h
        exact ⟨[], parts, children, t, rfl, rfl, List.isEmpty_iff.1 hopen⟩
      · cases h
    | markup pieces => exact absurd h (Trail.passRun_ne t _)
    | _ => cases h

theorem foldlM_passChild_eq_error_iff (t : Trail) :
    children.foldlM Trail.passChild t = .error (.attributeOutsideElement a) ↔
      MeetsAttribute t children a := by
  induction children generalizing t with
  | nil =>
    refine iff_of_false nofun ?_
    rintro ⟨before, parts, after, -, heq, -, -⟩
    simp at heq
  | cons child children ih =>
    rw [List.foldlM_cons]
    cases h : t.passChild child with
    | error failure =>
      rw [MeetsAttribute.of_error h]
      exact Except.error.injEq failure _ ▸ Iff.rfl
    | ok t' =>
      rw [MeetsAttribute.cons h]
      exact ih t'

/-- A list of children cannot be given structure because of an attribute exactly if the walk along
it meets the attribute where no element is open. -/
theorem check_eq_error_iff :
    check children = .error (.attributeOutsideElement a) ↔ MeetsAttribute {} children a := by
  rw [← foldlM_passChild_eq_error_iff, check]
  cases children.foldlM Trail.passChild {} with
  | error failure =>
    change (Except.error failure : Except Failure Unit) = _ ↔ _
    simp
  | ok t =>
    refine iff_of_false ?_ nofun
    change t.finish ≠ _
    rw [Trail.finish]
    split <;> simp

/-! ### Rebuilding -/

/-- Rebuilding the children of a node fails as the walk along them does. -/
theorem failure_rebuild {n : Node} (h : n.children? = some children) (p : Progress) :
    (n.rebuild policy p).failure = some e ↔ check children = .error e := by
  have alike := parallel_build_check (policy.rules n) p.stats children
  simp only [Node.rebuild, h]
  generalize build (policy.rules n) p.stats children = built at alike ⊢
  generalize check children = walked at alike ⊢
  cases alike with
  | error he => simp [he]
  | ok _ => simp

/-- A node whose children are settled, with markup among them, fails if the walk along them meets a
violation. -/
theorem failsWith_of_check {n : Node} (hc : n.children? = some children)
    (hs : ∀ c ∈ children, Settles policy c c) (hm : n.hasMarkupChild = true)
    (h : check children = .error e) : n.FailsWith policy e := by
  have alike := parallel_build_check (policy.rules n) {} children
  rw [h] at alike
  cases hb : build (policy.rules n) {} children with
  | ok built =>
    rw [hb] at alike
    cases alike
  | error halt =>
    rw [hb] at alike
    cases alike with
    | error he => exact ⟨hm, children, children, halt, hc, forall₂_settles_of hs, hb, he⟩

/-- It fails with that violation, and settles if there is none. -/
theorem failure_of_settled {n : Node} (hc : n.children? = some children)
    (hs : ∀ c ∈ children, Settles policy c c) (hm : n.hasMarkupChild = true) :
    (restructure policy n).failure = some e ↔ check children = .error e := by
  cases h : check children with
  | error failure => simp [(restructure_of_failsWith (failsWith_of_check hc hs hm h)).1]
  | ok _ =>
    have alike := parallel_build_check (policy.rules n) {} children
    obtain ⟨built, hb, -⟩ := alike.exists_of_ok_right h
    have settles : Settles policy n (n.withChildren built.children) := by
      rw [Node.hasMarkupChild, hc, Option.getD_some] at hm
      refine (settles_iff hc).2 ⟨children, forall₂_settles_of hs, ?_⟩
      rw [Regrows, if_pos hm]
      exact ⟨built, hb, rfl⟩
    simp [(settles_iff_restructure.1 settles).1]

/-- A node without markup among its children settles if they do. -/
theorem settles_of_noMarkup {n : Node} {settled : List Node} (h : n.children? = some children)
    (hs : List.Forall₂ (Settles policy) children settled)
    (hm : ∀ c ∈ children, c.isMarkup = false) :
    Settles policy n (n.withChildren settled) := by
  have none : settled.any Node.isMarkup = false := by
    rw [any_isMarkup_of_settles hs, List.any_eq_false]
    exact fun c hc => by simp [hm c hc]
  refine (settles_iff h).2 ⟨settled, hs, ?_⟩
  rw [Regrows, none]
  rfl

/-! ### Another node in a place of a finished tree -/

section Replacing

variable {tree node new : Node} {place : List Nat}

/-- Putting another node in a place below a node changes one of its children and no other. -/
theorem exists_of_replace {n child : Node} {i : Nat} (hc : n.children? = some children)
    (hi : children[i]? = some child) (place : List Nat) (new : Node) :
    ∃ before after, children = before ++ child :: after ∧ before.length = i ∧
      n.replace (i :: place) new = n.withChildren (before ++ child.replace place new :: after) := by
  obtain ⟨hlt, rfl⟩ := List.getElem?_eq_some_iff.1 hi
  refine ⟨children.take i, children.drop (i + 1), ?_, List.length_take_of_le (Nat.le_of_lt hlt), ?_⟩
  · rw [List.getElem_cons_drop, List.take_append_drop]
  · simp only [Node.replace, hc]
    rw [List.modify_eq_take_cons_drop hlt]

theorem isMarkup_replace (hold : tree.isMarkup = false) (hnew : new.isMarkup = false) :
    (tree.replace place new).isMarkup = false := by
  cases place with
  | nil => exact hnew
  | cons i place =>
    rw [Node.replace]
    split
    · exact hold
    · rw [Node.isMarkup_withChildren, hold]

/-- If the node put in a place settles, then so does the tree around it. -/
theorem exists_settles_replace (h : tree.containsMarkup = false) (hp : tree.at? place = some node)
    (hnew : new.isMarkup = false) {r : Node} (hr : Settles policy new r) :
    ∃ r', Settles policy (tree.replace place new) r' := by
  induction place generalizing tree with
  | nil => exact ⟨r, hr⟩
  | cons i place ih =>
    simp only [Node.at?, Option.bind_eq_bind, Option.bind_eq_some_iff] at hp
    obtain ⟨children, hc, child, hi, hp⟩ := hp
    rw [Node.containsMarkup_of_children? hc, List.any_eq_false] at h
    obtain ⟨before, after, rfl, rfl, hreplace⟩ := exists_of_replace hc hi place new
    have beside : ∀ c ∈ before ++ after, c.containsMarkup = false := fun c hm => by
      simpa using h c (by rcases List.mem_append.1 hm with hm | hm <;> simp [hm])
    obtain ⟨r', hr'⟩ := ih (by simpa using h child (by simp)) hp
    have settles : List.Forall₂ (Settles policy) (before ++ child.replace place new :: after)
        (before ++ r' :: after) := by
      refine List.rel_append ?_ (.cons hr' ?_)
      · exact forall₂_settles_of fun c hm => settles_of_containsMarkup (beside c (by simp [hm]))
      · exact forall₂_settles_of fun c hm => settles_of_containsMarkup (beside c (by simp [hm]))
    have noMarkup : ∀ c ∈ before ++ child.replace place new :: after, c.isMarkup = false := by
      intro c hm
      rcases List.mem_append.1 hm with hm | hm
      · exact Node.isMarkup_of_containsMarkup (beside c (by simp [hm]))
      · rcases List.mem_cons.1 hm with rfl | hm
        · have clean : child.containsMarkup = false := by simpa using h child (by simp)
          exact isMarkup_replace (Node.isMarkup_of_containsMarkup clean) hnew
        · exact Node.isMarkup_of_containsMarkup (beside c (by simp [hm]))
    rw [hreplace]
    exact ⟨_, settles_of_noMarkup (Node.children?_withChildren hc) settles noMarkup⟩

/-- If the pass fails at the node put in a place, then it fails so in the tree around it. -/
theorem exists_failsAt_replace (h : tree.containsMarkup = false) (hp : tree.at? place = some node)
    {q : List Nat} {left : Node} (hf : FailsAt policy e new q left) :
    ∃ left', FailsAt policy e (tree.replace place new) (place ++ q) left' := by
  induction place generalizing tree with
  | nil => exact ⟨left, hf⟩
  | cons i place ih =>
    simp only [Node.at?, Option.bind_eq_bind, Option.bind_eq_some_iff] at hp
    obtain ⟨children, hc, child, hi, hp⟩ := hp
    rw [Node.containsMarkup_of_children? hc, List.any_eq_false] at h
    obtain ⟨before, after, rfl, rfl, hreplace⟩ := exists_of_replace hc hi place new
    obtain ⟨left', hf⟩ := ih (by simpa using h child (by simp)) hp
    have settled : List.Forall₂ (Settles policy) before before :=
      forall₂_settles_of fun c hm => settles_of_containsMarkup (by simpa using h c (by simp [hm]))
    rw [hreplace]
    exact ⟨_, .under (Node.children?_withChildren hc) settled hf⟩

/-- A tree without markup, with another node in a place, fails as that node does by itself. -/
theorem failure_replace (h : tree.containsMarkup = false) (hp : tree.at? place = some node)
    (hnew : new.isMarkup = false) :
    (restructure policy (tree.replace place new)).failure = (restructure policy new).failure := by
  cases hf : (restructure policy new).failure with
  | none =>
    obtain ⟨r, hr⟩ := exists_settles_replace h hp hnew (settles_iff_restructure.2 ⟨hf, rfl⟩)
    exact (settles_iff_restructure.1 hr).1
  | some failure =>
    obtain ⟨q, fails⟩ := failsAt_of_visit hf
    obtain ⟨left, fails⟩ := exists_failsAt_replace h hp fails
    exact failure_eq_some_iff.2 ⟨_, fails.failsFirst⟩

end Replacing

/-! ### Markup after the last child -/

/-- The name of the first attribute of a list of nodes. -/
def firstAttribute? : List Node → Option String
  | [] => none
  | .attr name _ :: _ => some name
  | _ :: ns => firstAttribute? ns

/-- Nodes without markup among them open no element. So the first attribute of them is met where no
element is open, and if there is none, the walk goes on after them as it would without them. -/
theorem check_append (h : ∀ c ∈ children, c.isMarkup = false) (more : List Node) :
    check (children ++ more) =
      match firstAttribute? children with
      | some name => .error (.attributeOutsideElement name)
      | none => check more := by
  induction children with
  | nil => rfl
  | cons child children ih =>
    obtain ⟨hchild, hchildren⟩ := List.forall_mem_cons.1 h
    cases child with
    | markup pieces => cases hchild
    | attr name parts => rfl
    | _ => exact ih hchildren

/-- A pass that succeeds leaves no markup, if there is any element in what it leaves. -/
theorem containsMarkup_restructure {tree : Node} {place : List Nat} {name : String}
    (h : (restructure policy tree).failure = none)
    (hp : (restructure policy tree).result.at? place = some (.element name children)) :
    (restructure policy tree).result.containsMarkup = false := by
  have settles : Settles policy tree (restructure policy tree).result :=
    settles_iff_restructure.2 ⟨h, rfl⟩
  refine settles.containsMarkup ?_
  cases tree with
  | markup pieces => cases place <;> cases hp
  | _ => rfl

/-- Of a tree without markup, let an element get a run of markup after its last child, a run that
has structure by itself. The pass fails exactly if the element has an attribute, and then because of
its first one. -/
theorem failure_of_appended {tree : Node} {place : List Nat} {name : String} {pieces : List String}
    (h : tree.containsMarkup = false) (hp : tree.at? place = some (.element name children))
    (hr : check [.markup pieces] = .ok ()) :
    (restructure policy
        (tree.replace place (.element name (children ++ [.markup pieces])))).failure =
      (firstAttribute? children).map .attributeOutsideElement := by
  have inside : ∀ c ∈ children, c.containsMarkup = false := by
    have := Node.containsMarkup_at? h hp
    rw [Node.containsMarkup_of_children? rfl, List.any_eq_false] at this
    exact fun c hc => by simpa using this c hc
  have settled : ∀ c ∈ children ++ [.markup pieces], Settles policy c c := by
    intro c hc
    rcases List.mem_append.1 hc with hc | hc
    · exact settles_of_containsMarkup (inside c hc)
    · rw [List.mem_singleton.1 hc]
      exact settles_of_none rfl
  rw [failure_replace h hp rfl]
  refine Option.ext fun failure => ?_
  rw [failure_of_settled rfl settled (by simp [Node.hasMarkupChild, Node.children?, Node.isMarkup]),
    check_append (fun c hc => Node.isMarkup_of_containsMarkup (inside c hc))]
  cases firstAttribute? children <;> simp [hr]

/-- Rebuilding the children of an element fails because of an attribute exactly if the attribute is
met where no element is open. The element that is rebuilt does not count as open: of a tree that a
pass has left, let an element get a run of markup after its last child, a run that has structure by
itself. Then the next pass, by whichever rules, fails exactly if the element has an attribute, and
because of its first one. -/
theorem attributes_of_rebuilt_element (policy other : Policy) (name : String)
    (children : List Node) :
    (∀ (p : Progress) (a : String),
      ((Node.element name children).rebuild policy p).failure =
          some (.attributeOutsideElement a) ↔
        MeetsAttribute {} children a) ∧
    ∀ (tree : Node) (place : List Nat) (pieces : List String),
      (restructure policy tree).failure = none →
      (restructure policy tree).result.at? place = some (.element name children) →
      check [.markup pieces] = .ok () →
      (restructure other ((restructure policy tree).result.replace place
          (.element name (children ++ [.markup pieces])))).failure =
        (firstAttribute? children).map .attributeOutsideElement := by
  constructor
  · intro p a
    exact (failure_rebuild rfl p).trans check_eq_error_iff
  · intro tree place pieces h hp hr
    exact failure_of_appended (containsMarkup_restructure h hp) hp hr

/-- A paragraph with a title. -/
def titledParagraph : Node := .method "show" [.markup ["<p title=\"a\">x</p>"]]

/-- The paragraph cannot take any more markup, since it has a title. -/
theorem attributes_of_rebuilt_element_titledParagraph :
    (restructure {} titledParagraph).failure = none ∧
      (restructure {} titledParagraph).result.at? [0] =
        some (.element "p" [.attr "title" [.text "a"], .text "x"]) ∧
      check [.markup ["<b>y</b>"]] = .ok () ∧
      (restructure {} ((restructure {} titledParagraph).result.replace [0]
          (.element "p" [.attr "title" [.text "a"], .text "x", .markup ["<b>y</b>"]]))).failure =
        some (.attributeOutsideElement "title") := by
  have finished : (restructure {} titledParagraph).failure = none := by decide +kernel
  have paragraph : (restructure {} titledParagraph).result.at? [0] =
      some (.element "p" [.attr "title" [.text "a"], .text "x"]) := by decide +kernel
  have balanced : check [.markup ["<b>y</b>"]] = .ok () := by decide +kernel
  exact ⟨finished, paragraph, balanced,
    (attributes_of_rebuilt_element {} {} _ _).2 _ _ _ finished paragraph balanced⟩

/-- So an element may have an attribute right under it, and markup that is balanced, and still its
children cannot be rebuilt. -/
theorem attribute_under_rebuilt_element :
    ((Node.element "p" [.attr "title" [.text "a"], .markup ["<b>y</b>"]]).rebuild {} {}).failure =
      some (.attributeOutsideElement "title") := by
  decide +kernel

end MarkupTree
