import MarkupTree.Proofs.Pass.Confluence
import MarkupTree.Proofs.Pass.Places

/-!
# Passes that fail

A pass that fails does so at one node: the first, leaves first, whose children settle but cannot be
rebuilt. This is also the failure that the pass reports. The tree that it leaves has three parts.
What lies to the left of the failing node is finished, as if the pass had been run over it alone.
The failing node has lost its children. The nodes above it and everything to its right are as they
were (`restructure_failure`).

To the left of the failing node, a node below a list of children that was rebuilt may have moved.
It is then found further down, and in the same order: what the nodes settle to are among the nodes
of what the tree settles to (`Settles.finished_sublist`). Markup is the exception, since it is what
the lists are rebuilt from.

The induction is along the way down to the failing node. `FailsAt` says what happens on this way,
one level at a time, and all statements about places of the tree are read off it.

## Main definitions

* `Node.finished` : the nodes of a tree, each as the pass over it alone leaves it.
* `Node.FailsWith` : a node whose children settle but cannot be rebuilt.
* `FailsAt` : how a pass fails, and what it leaves.
* `FailsFirst` : the first node that fails stands at a place.
* `LeftBehind` : what is left of a tree, place by place.

## Main results

* `Settles.finished_sublist` : what becomes of the nodes of a tree that settles.
* `failsAt_of_visit` : a visit that fails does so at a place.
* `failure_eq_some_iff` : the pass fails if some node does, and with the failure of the first.
* `restructure_failure` : which node a failed pass failed at, and the tree that it left.
-/

namespace MarkupTree

variable {policy : Policy} {n r : Node} {children settled : List Node} {e : Failure}

/-! ### Inside a tree that settles -/

/-- The nodes of a tree that are not markup, each as the pass over it alone leaves it. -/
def Node.finished (policy : Policy) (n : Node) : List Node :=
  (n.postorder.filter fun m => !m.isMarkup).map fun m => (restructure policy m).result

namespace Node

theorem isMarkup_of_children? (h : n.children? = some children) : n.isMarkup = false := by
  cases n <;> first | rfl | cases h

theorem finished_of_isMarkup (h : n.isMarkup = true) : n.finished policy = [] := by
  cases n <;> first | rfl | cases h

theorem finished_of_children? (h : n.children? = some children) :
    n.finished policy = children.flatMap (finished policy) ++ [(restructure policy n).result] := by
  simp [finished, postorder_of_children? h, isMarkup_of_children? h, List.filter_flatMap,
    List.map_flatMap]
  rfl

end Node

theorem flatMap_finished_sublist (h : List.Forall₂ (Settles policy) children settled)
    (ih : ∀ c ∈ children, ∀ d, Settles policy c d → (c.finished policy).Sublist d.postorder) :
    (children.flatMap (Node.finished policy)).Sublist
      ((settled.filter fun d => !d.isMarkup).flatMap Node.postorder) := by
  induction h with
  | nil => exact .slnil
  | @cons c d cs ds hd _ ihs =>
    have rest := ihs fun c hc => ih c (List.mem_cons_of_mem _ hc)
    rw [List.flatMap_cons, List.filter_cons]
    cases hm : d.isMarkup with
    | true =>
      rw [Node.finished_of_isMarkup (hd.isMarkup ▸ hm)]
      exact rest
    | false => exact (ih c List.mem_cons_self d hd).append rest

/-- What the nodes of a tree settle to, markup left out, are among the nodes of what the tree
settles to, in the same order. -/
theorem Settles.finished_sublist (h : Settles policy n r) :
    (n.finished policy).Sublist r.postorder := by
  induction n using Node.induction generalizing r with
  | step n ih =>
    cases hn : n.children? with
    | none =>
      rw [h.unique (settles_of_none hn)]
      cases n with
      | markup _ => exact List.nil_sublist _
      | text _ => exact List.Sublist.refl _
      | _ => cases hn
    | some children =>
      obtain ⟨settled, hs, hg⟩ := (settles_iff hn).1 h
      have below := flatMap_finished_sublist hs fun c hc d hd => ih children hn c hc hd
      obtain ⟨after, hr, carried⟩ : ∃ after, r = n.withChildren after ∧
          ((settled.filter fun d => !d.isMarkup).flatMap Node.postorder).Sublist
            (after.flatMap Node.postorder) := by
        rw [Regrows] at hg
        split at hg
        · obtain ⟨built, hb, hr⟩ := hg
          exact ⟨built.children, hr, carried_sublist_of_build hb⟩
        · next none =>
          have all : (settled.filter fun d => !d.isMarkup) = settled :=
            List.filter_eq_self.2 fun d hd => by
              simpa using List.any_eq_false.1 (by simpa using none) d hd
          exact ⟨settled, hg, by rw [all]⟩
      have last : (restructure policy n).result = r := (settles_iff_restructure.1 h).2
      rw [Node.finished_of_children? hn, last, hr,
        Node.postorder_of_children? (Node.children?_withChildren hn)]
      exact (below.trans carried).append (List.Sublist.refl _)

/-! ### Nodes that fail -/

/-- The children of a node settle, with markup among them, but cannot be rebuilt. What was counted
before plays no part in it (`build_same`). -/
def Node.FailsWith (policy : Policy) (e : Failure) (n : Node) : Prop :=
  n.hasMarkupChild = true ∧ ∃ children settled halt, n.children? = some children ∧
    List.Forall₂ (Settles policy) children settled ∧
    build (policy.rules n) {} settled = .error halt ∧ halt.failure = e

theorem forall₂_settles_unique {ms ns : List Node} (h : List.Forall₂ (Settles policy) children ms)
    (h' : List.Forall₂ (Settles policy) children ns) : ms = ns :=
  (visitAll_of_settles h {}).2.symm.trans (visitAll_of_settles h' {}).2

theorem Node.FailsWith.unique {e' : Failure} (h : n.FailsWith policy e)
    (h' : n.FailsWith policy e') : e = e' := by
  obtain ⟨-, children, settled, halt, hc, hs, hb, rfl⟩ := h
  obtain ⟨-, children', settled', halt', hc', hs', hb', rfl⟩ := h'
  cases hc.symm.trans hc'
  cases forall₂_settles_unique hs hs'
  cases hb.symm.trans hb'
  rfl

/-- A node that fails does not settle. -/
theorem Node.FailsWith.not_settles (h : n.FailsWith policy e) : ¬Settles policy n r := by
  obtain ⟨hm, children, settled, halt, hc, hs, hb, -⟩ := h
  intro hr
  obtain ⟨settled', hs', hg⟩ := (settles_iff hc).1 hr
  cases forall₂_settles_unique hs hs'
  rw [Node.hasMarkupChild, hc, Option.getD_some, ← any_isMarkup_of_settles hs] at hm
  rw [Regrows, if_pos hm] at hg
  obtain ⟨built, hb', -⟩ := hg
  cases hb.symm.trans hb'

/-- If finishing a node fails whose children have settled, then the node fails, and it is left
without children. -/
theorem failsWith_of_finishNode {p : Progress} (hc : n.children? = some children)
    (hs : List.Forall₂ (Settles policy) children settled)
    (hf : (finishNode policy n.withChildren ⟨settled, p, none⟩).failure = some e) :
    n.FailsWith policy e ∧
      (finishNode policy n.withChildren ⟨settled, p, none⟩).result = n.withChildren [] := by
  simp only [finishNode] at hf ⊢
  split at hf
  · next hm =>
    rw [if_pos hm]
    have same := build_same (policy.rules n) p.stats {} settled
    simp only [Node.rebuild, Node.children?_withChildren hc, Policy.rules_withChildren] at hf ⊢
    generalize build (policy.rules n) p.stats settled = x at hf same ⊢
    generalize hy : build (policy.rules n) {} settled = y at same
    cases same with
    | ok _ => cases hf
    | error he =>
      cases hf
      refine ⟨⟨?_, children, settled, _, hc, hs, hy, he.symm⟩, ?_⟩
      · rw [Node.hasMarkupChild, hc, Option.getD_some, ← any_isMarkup_of_settles hs, hm]
      · exact Node.withChildren_withChildren n settled []
  · cases hf

/-! ### Visits that fail -/

/-- The pass over a node fails with `e` at a place, and leaves a node. On the way down to the place,
the children to the left settle, and those to the right are not reached. -/
inductive FailsAt (policy : Policy) (e : Failure) : Node → List Nat → Node → Prop
  | here {n : Node} (h : n.FailsWith policy e) : FailsAt policy e n [] (n.withChildren [])
  | under {n child left : Node} {before after settled : List Node} {place : List Nat}
      (hc : n.children? = some (before ++ child :: after))
      (hs : List.Forall₂ (Settles policy) before settled)
      (h : FailsAt policy e child place left) :
      FailsAt policy e n (before.length :: place) (n.withChildren (settled ++ left :: after))

/-- Where the visits of a list of trees end early. -/
theorem exists_of_visitAll {p : Progress} (h : (visitAll policy p children).failure = some e) :
    ∃ before child after settled q, children = before ++ child :: after ∧
      List.Forall₂ (Settles policy) before settled ∧ (visit policy q child).failure = some e ∧
      (visitAll policy p children).result = settled ++ (visit policy q child).result :: after := by
  induction children generalizing p with
  | nil => cases h
  | cons n ns ih =>
    simp only [visitAll] at h ⊢
    cases hf : (visit policy p n).failure with
    | some failure =>
      simp only [hf] at h ⊢
      exact ⟨[], n, ns, [], p, rfl, .nil, hf.trans h, rfl⟩
    | none =>
      simp only [hf] at h ⊢
      obtain ⟨before, child, after, settled, q, rfl, hs, hq, hr⟩ := ih h
      exact ⟨n :: before, child, after, _ :: settled, q, rfl, .cons (settles_of_visit hf) hs, hq,
        congrArg _ hr⟩

/-- A visit that fails does so at a place. -/
theorem failsAt_of_visit {p : Progress} (h : (visit policy p n).failure = some e) :
    ∃ place, FailsAt policy e n place (visit policy p n).result := by
  induction n using Node.induction generalizing p with
  | step n ih =>
    cases hn : n.children? with
    | none =>
      have settles : Settles policy n n := settles_of_none hn
      rw [(settles.visit p).1] at h
      cases h
    | some children =>
      rw [visit_eq_finishNode hn] at h ⊢
      cases hf : (visitAll policy p.visit children).failure with
      | none =>
        have settles := settles_of_visitAll hf
        generalize visitAll policy p.visit children = visited at h hf settles ⊢
        obtain ⟨settled, q, _⟩ := visited
        cases hf
        obtain ⟨fails, hr⟩ := failsWith_of_finishNode hn settles h
        exact ⟨[], hr ▸ .here fails⟩
      | some failure =>
        have same : (finishNode policy n.withChildren (visitAll policy p.visit children)) =
            ⟨n.withChildren (visitAll policy p.visit children).result,
              (visitAll policy p.visit children).progress, some failure⟩ := by
          simp only [finishNode, hf]
        rw [same] at h ⊢
        cases h
        obtain ⟨before, child, after, settled, q, rfl, hs, hq, hr⟩ := exists_of_visitAll hf
        obtain ⟨place, fails⟩ := ih _ hn child (by simp) hq
        rw [hr]
        exact ⟨_, .under hn hs fails⟩

/-! ### Failures by their places -/

section Place

variable {tree left : Node} {place : List Nat}

/-- To the right of a child that has changed, no child has. -/
theorem getElem?_right {before after settled : List Node} {child : Node} {j : Nat}
    (hl : before.length = settled.length) (h : before.length < j) :
    (settled ++ left :: after)[j]? = (before ++ child :: after)[j]? := by
  obtain ⟨k, hk⟩ : ∃ k, j - before.length = k + 1 := ⟨j - before.length - 1, by omega⟩
  rw [List.getElem?_append_right (by omega), List.getElem?_append_right (by omega), ← hl, hk]
  rfl

/-- The pass fails at a node that fails, and leaves it without children. -/
theorem FailsAt.at_place (h : FailsAt policy e tree place left) :
    ∃ n, tree.at? place = some n ∧ n.FailsWith policy e ∧
      left.at? place = some (n.withChildren []) := by
  induction h with
  | here h => exact ⟨_, rfl, h, rfl⟩
  | under hc hs _ ih =>
    obtain ⟨m, hm, fails, hl⟩ := ih
    refine ⟨m, ?_, fails, ?_⟩
    · rw [Node.at?_cons hc]
      simpa using hm
    · rw [Node.at?_cons (Node.children?_withChildren hc), hs.length_eq]
      simpa using hl

/-- What comes before the place where the pass fails settles. -/
theorem FailsAt.settles_before (h : FailsAt policy e tree place left) {q : List Nat}
    (hq : Before q place) (hn : tree.at? q = some n) : ∃ r, Settles policy n r := by
  induction h generalizing q with
  | here fails =>
    obtain ⟨-, children, settled, -, hc, hs, -⟩ := fails
    cases hq with
    | inside i q =>
      rw [Node.at?_cons hc, Option.bind_eq_some_iff] at hn
      obtain ⟨c, hi, hn⟩ := hn
      obtain ⟨d, -, hd⟩ := forall₂_getElem? hs hi
      exact hd.at? hn
  | under hc hs _ ih =>
    cases hq with
    | parts hij q =>
      rw [Node.at?_cons hc, List.getElem?_append_left hij, Option.bind_eq_some_iff] at hn
      obtain ⟨c, hi, hn⟩ := hn
      obtain ⟨d, -, hd⟩ := forall₂_getElem? hs hi
      exact hd.at? hn
    | deeper _ hq =>
      rw [Node.at?_cons hc] at hn
      exact ih hq (by simpa using hn)

/-- What is right beside the way to the place, on its left, is what it settles to. -/
theorem FailsAt.at_beside (h : FailsAt policy e tree place left) {q : List Nat}
    (hq : Beside q place) (hn : tree.at? q = some n) :
    ∃ r, Settles policy n r ∧ left.at? q = some r := by
  induction h generalizing q with
  | here => cases hq
  | under hc hs _ ih =>
    cases hq with
    | parts hij q =>
      rw [Node.at?_cons hc, List.getElem?_append_left hij, Option.bind_eq_some_iff] at hn
      obtain ⟨c, hi, hn⟩ := hn
      cases hn
      obtain ⟨d, hd, settles⟩ := forall₂_getElem? hs hi
      refine ⟨d, settles, ?_⟩
      rw [Node.at?_cons (Node.children?_withChildren hc),
        List.getElem?_append_left (hs.length_eq ▸ hij), hd]
      rfl
    | deeper _ hq =>
      rw [Node.at?_cons hc] at hn
      rw [Node.at?_cons (Node.children?_withChildren hc), hs.length_eq]
      simpa using ih hq (by simpa using hn)

/-- A node above the place keeps its kind, its fields and the number of its children. -/
theorem FailsAt.at_above (h : FailsAt policy e tree place left) {q : List Nat}
    (hq : q <+: place) (hne : q ≠ place) (hn : tree.at? q = some n) :
    ∃ children kept, n.children? = some children ∧ kept.length = children.length ∧
      left.at? q = some (n.withChildren kept) := by
  induction h generalizing q with
  | here => exact absurd (List.prefix_nil.1 hq) hne
  | under hc hs _ ih =>
    cases q with
    | nil =>
      cases hn
      exact ⟨_, _, hc, by simp [hs.length_eq], rfl⟩
    | cons i q =>
      obtain ⟨rfl, hp⟩ := List.cons_prefix_cons.1 hq
      rw [Node.at?_cons hc] at hn
      rw [Node.at?_cons (Node.children?_withChildren hc), hs.length_eq]
      simpa using ih hp (fun he => hne (congrArg _ he)) (by simpa using hn)

/-- What is to the right of the place is as it was. -/
theorem FailsAt.at_right (h : FailsAt policy e tree place left) {q : List Nat}
    (hq : LeftOf place q) : left.at? q = tree.at? q := by
  induction h generalizing q with
  | here => cases hq
  | under hc hs _ ih =>
    cases hq with
    | parts hij _ q =>
      rw [Node.at?_cons (Node.children?_withChildren hc), Node.at?_cons hc,
        getElem?_right hs.length_eq hij]
    | deeper _ hq =>
      rw [Node.at?_cons (Node.children?_withChildren hc), Node.at?_cons hc]
      simpa [hs.length_eq] using ih hq

/-- The first node that fails, leaves first, stands at a place and fails with `e`. -/
structure FailsFirst (policy : Policy) (e : Failure) (tree : Node) (place : List Nat) : Prop where
  fails : ∃ n, tree.at? place = some n ∧ n.FailsWith policy e
  first : ∀ q n e', Before q place → tree.at? q = some n → ¬n.FailsWith policy e'

/-- What is left of a tree when the pass over it fails at a place. -/
structure LeftBehind (policy : Policy) (tree : Node) (place : List Nat) (left : Node) : Prop where
  /-- The failing node has lost its children. -/
  emptied : ∀ n, tree.at? place = some n → left.at? place = some (n.withChildren [])
  /-- The trees right beside the way to it, on its left, are finished, each in its place. The nodes
  in them are finished and have kept their order. -/
  beside : ∀ q n, Beside q place → tree.at? q = some n →
    left.at? q = some (restructure policy n).result ∧
      (n.finished policy).Sublist (restructure policy n).result.postorder
  /-- Every node to the left that is not markup is finished, and is found to the left. -/
  finished : ∀ q n, LeftOf q place → tree.at? q = some n → n.isMarkup = false →
    (restructure policy n).failure = none ∧
      ∃ q', LeftOf q' place ∧ left.at? q' = some (restructure policy n).result
  /-- The nodes above keep their kind, their fields and the number of their children. -/
  above : ∀ q n, q <+: place → q ≠ place → tree.at? q = some n →
    ∃ children kept, n.children? = some children ∧ kept.length = children.length ∧
      left.at? q = some (n.withChildren kept)
  /-- What is to the right is as it was. -/
  untouched : ∀ q, LeftOf place q → left.at? q = tree.at? q

theorem FailsAt.failsFirst (h : FailsAt policy e tree place left) :
    FailsFirst policy e tree place where
  fails := by
    obtain ⟨n, hn, fails, -⟩ := h.at_place
    exact ⟨n, hn, fails⟩
  first q n e' hq hn fails := by
    obtain ⟨r, hr⟩ := h.settles_before hq hn
    exact fails.not_settles hr

theorem FailsAt.leftBehind (h : FailsAt policy e tree place left) :
    LeftBehind policy tree place left where
  emptied n hn := by
    obtain ⟨m, hm, -, hl⟩ := h.at_place
    cases hn.symm.trans hm
    exact hl
  beside q n hq hn := by
    obtain ⟨r, hr, hl⟩ := h.at_beside hq hn
    rw [(settles_iff_restructure.1 hr).2]
    exact ⟨hl, hr.finished_sublist⟩
  finished q n hq hn hm := by
    obtain ⟨p, more, rfl, beside⟩ := hq.exists_beside
    obtain ⟨root, hp, inside⟩ := Option.bind_eq_some_iff.1 (Node.at?_append tree p more ▸ hn)
    obtain ⟨r, hr, hl⟩ := h.at_beside beside hp
    obtain ⟨s, hs⟩ := h.settles_before (before_iff.2 (.inl hq)) hn
    have found : (restructure policy n).result ∈ r.postorder := by
      refine hr.finished_sublist.subset (List.mem_map.2 ⟨n, ?_, rfl⟩)
      exact List.mem_filter.2 ⟨Node.mem_postorder_iff.2 ⟨more, inside⟩, by simp [hm]⟩
    obtain ⟨more', hf⟩ := Node.mem_postorder_iff.1 found
    refine ⟨(settles_iff_restructure.1 hs).1, p ++ more', beside.leftOf more', ?_⟩
    rw [Node.at?_append, hl, Option.bind_some, hf]
  above _ _ hq hne hn := h.at_above hq hne hn
  untouched _ hq := h.at_right hq

/-- There is only one first node that fails. -/
theorem FailsFirst.unique {e' : Failure} {q : List Nat} (h : FailsFirst policy e tree place)
    (h' : FailsFirst policy e' tree q) : q = place ∧ e' = e := by
  obtain ⟨n, hn, fails⟩ := h.fails
  obtain ⟨m, hm, fails'⟩ := h'.fails
  rcases before_total q place with rfl | before | after
  · cases hn.symm.trans hm
    exact ⟨rfl, fails'.unique fails⟩
  · exact absurd fails' (h.first q m e' before hm)
  · exact absurd fails (h'.first place n e after hn)

/-- The pass over a tree fails if some node of it does, and with the failure of the first. -/
theorem failure_eq_some_iff :
    (restructure policy tree).failure = some e ↔ ∃ place, FailsFirst policy e tree place := by
  constructor
  · intro h
    obtain ⟨place, fails⟩ := failsAt_of_visit h
    exact ⟨place, fails.failsFirst⟩
  · rintro ⟨place, first⟩
    cases h : (restructure policy tree).failure with
    | none =>
      obtain ⟨n, hn, fails⟩ := first.fails
      obtain ⟨r, hr⟩ := (settles_iff_restructure.2 ⟨h, rfl⟩).at? hn
      exact absurd hr fails.not_settles
    | some failure =>
      obtain ⟨q, fails⟩ := failsAt_of_visit h
      rw [(first.unique fails.failsFirst).2]

/-- The pass over a node whose children settle, but cannot be rebuilt, fails at that node. -/
theorem restructure_of_failsWith (h : n.FailsWith policy e) :
    (restructure policy n).failure = some e ∧
      (restructure policy n).result = n.withChildren [] := by
  have first : FailsFirst policy e n [] := (FailsAt.here h).failsFirst
  have failure := failure_eq_some_iff.2 ⟨[], first⟩
  refine ⟨failure, ?_⟩
  obtain ⟨place, fails⟩ : ∃ place, FailsAt policy e n place (restructure policy n).result :=
    failsAt_of_visit failure
  obtain ⟨rfl, -⟩ := first.unique fails.failsFirst
  have emptied := fails.leftBehind.emptied n rfl
  exact Option.some.inj emptied

/-- If the pass over a tree fails with `e`, then there is a first node that fails, leaves first, and
`e` is its failure. All nodes before it settle, and the tree that the pass leaves is finished up to
the failing node, which has lost its children, and otherwise as it was. -/
theorem restructure_failure (h : (restructure policy tree).failure = some e) :
    ∃ place, FailsFirst policy e tree place ∧
      (∀ q e', FailsFirst policy e' tree q → q = place ∧ e' = e) ∧
      (∀ q n, Before q place → tree.at? q = some n → (restructure policy n).failure = none) ∧
      LeftBehind policy tree place (restructure policy tree).result := by
  obtain ⟨place, fails⟩ : ∃ place, FailsAt policy e tree place (restructure policy tree).result :=
    failsAt_of_visit h
  refine ⟨place, fails.failsFirst, ?_, ?_, fails.leftBehind⟩
  · exact fun q e' hq => fails.failsFirst.unique hq
  · intro q n hq hn
    obtain ⟨r, hr⟩ := fails.settles_before hq hn
    exact (settles_iff_restructure.1 hr).1

end Place

/-- A method with three branches. The first has an element around an expression, the second an
element that does not end, and the third an end of an element that did not begin. -/
def openBranch : Node :=
  .method "show"
    [.foreign "if" "a" [.markup ["<b>"], .foreign "expr" "x" [], .markup ["</b>"]],
      .foreign "if" "b" [.text "y", .markup ["<p>"]],
      .foreign "else" "" [.markup ["</i>"]]]

/-- The first branch is finished, the second has lost its children, and the third is not reached. -/
theorem restructure_failure_openBranch :
    (restructure {} openBranch).failure = some (.unbalancedTree ["p"]) ∧
      (restructure {} openBranch).result =
        .method "show"
          [.foreign "if" "a" [.element "b" [.foreign "expr" "x" []]], .foreign "if" "b" [],
            .foreign "else" "" [.markup ["</i>"]]] ∧
      ∃ place, FailsFirst {} (.unbalancedTree ["p"]) openBranch place ∧
        (∀ q e', FailsFirst {} e' openBranch q → q = place ∧ e' = .unbalancedTree ["p"]) ∧
        (∀ q n, Before q place → openBranch.at? q = some n →
          (restructure {} n).failure = none) ∧
        LeftBehind {} openBranch place (restructure {} openBranch).result := by
  have fails : (restructure {} openBranch).failure = some (.unbalancedTree ["p"]) := by
    decide +kernel
  exact ⟨fails, by decide +kernel, restructure_failure fails⟩

end MarkupTree
