import MarkupTree.Proofs.Replay.Correspondence
import MarkupTree.Tree.Pass

/-!
# What a tree settles to

A tree *settles* to another if the pass over it succeeds and leaves that other tree. What was
counted before plays no part (`visit_same`), so settling is a relation between trees alone, and it
is made up from below: the children settle, and if there is markup among them, they are rebuilt
(`settles_iff`).

Two facts about it are used again and again. What has no markup is settled, and so is what a tree
has settled to. And rebuilding does not look into the nodes that it puts in place, so it makes no
difference whether they settle before it or after it (`Settles.rebuilt`).

## Main definitions

* `Settles` : the pass over a tree succeeds and leaves another.
* `Regrows` : the children of a node are rebuilt if there is markup among them.

## Main results

* `visit_same` : the pass does not depend on what was counted before it.
* `settles_iff` : a node settles if its children settle and are then rebuilt.
* `settles_of_containsMarkup`, `Settles.containsMarkup` : what has no markup is settled, and what
  a tree settles to has none.
* `Settles.rebuilt` : a node whose children were rebuilt before they settled settles to the same.
-/

namespace MarkupTree

/-! ### Nodes and their children -/

namespace Node

private theorem sizeOf_lt_of_mem {n child : Node} {children : List Node}
    (h : n.children? = some children) (hc : child ∈ children) : sizeOf child < sizeOf n := by
  have := List.sizeOf_lt_of_mem hc
  cases n <;> simp_all [children?] <;> omega

/-- Induction on trees: a property holds of a node if it holds of all its children. -/
theorem induction {P : Node → Prop}
    (step : ∀ n, (∀ children, n.children? = some children → ∀ c ∈ children, P c) → P n)
    (n : Node) : P n :=
  step n fun _ h c hc =>
    have := sizeOf_lt_of_mem h hc
    induction step c
termination_by sizeOf n

theorem withChildren_of_none {n : Node} (h : n.children? = none) (children : List Node) :
    n.withChildren children = n := by
  cases n <;> simp_all [children?, withChildren]

theorem containsMarkup_of_children? {n : Node} {children : List Node}
    (h : n.children? = some children) : n.containsMarkup = children.any containsMarkup := by
  cases n <;> simp_all [children?, containsMarkup, anyContainsMarkup_eq_any]

theorem containsMarkup_of_none {n : Node} (h : n.children? = none) :
    n.containsMarkup = n.isMarkup := by
  cases n <;> first | rfl | cases h

theorem isMarkup_of_containsMarkup {n : Node} (h : n.containsMarkup = false) :
    n.isMarkup = false := by
  cases n <;> first | rfl | cases h

end Node

theorem Policy.rules_withChildren (policy : Policy) (n : Node) (children : List Node) :
    policy.rules (n.withChildren children) = policy.rules n := by
  cases n <;> rfl

/-! ### Counts play no part -/

/-- Two outcomes with the same result and the same failure. -/
def Outcome.Same {α : Type} (x y : Outcome α) : Prop :=
  x.result = y.result ∧ x.failure = y.failure

/-- Equality of nodes is kept by building, whatever is counted. -/
theorem keeps_eq : Builder.Keeps Eq fun _ _ => True where
  text _ := rfl
  ofAttribute _ := rfl
  element name _ _ h := by rw [List.forall₂_eq_eq_eq] at h; rw [h]
  countRun _ := trivial
  countToken _ := trivial
  countDropped _ := trivial
  countElement _ _ := trivial

/-- What is built does not depend on what was counted before. -/
theorem build_same (rules : TextRules) (s u : Stats) (children : List Node) :
    Parallel (fun h k => h.failure = k.failure) (fun x y => x.children = y.children)
      (build rules s children) (build rules u children) := by
  have same : List.Forall₂ (Corresponds Eq) children children :=
    List.forall₂_same.2 fun _ _ => Corresponds.refl fun _ => rfl
  refine (parallel_build keeps_eq rules (s := s) (u := u) trivial same).imp ?_ ?_
  · exact fun _ _ h => h.failure
  · exact fun _ _ h => List.forall₂_eq_eq_eq ▸ h.1

namespace Node

theorem rebuild_same (policy : Policy) (p q : Progress) (n : Node) :
    (n.rebuild policy p).Same (n.rebuild policy q) := by
  unfold rebuild
  cases n.children? with
  | none => exact ⟨rfl, rfl⟩
  | some children =>
    have same := build_same (policy.rules n) p.stats q.stats children
    simp only
    generalize build (policy.rules n) p.stats children = x at same
    generalize build (policy.rules n) q.stats children = y at same
    cases same with
    | error h => exact ⟨rfl, congrArg some h⟩
    | ok h => exact ⟨congrArg n.withChildren h, rfl⟩

end Node

theorem finishNode_same (policy : Policy) (make : List Node → Node) {x y : Outcome (List Node)}
    (h : x.Same y) : (finishNode policy make x).Same (finishNode policy make y) := by
  obtain ⟨children, p, failure⟩ := x
  obtain ⟨_, q, _⟩ := y
  obtain ⟨rfl, rfl⟩ := h
  cases failure with
  | some failure => exact ⟨rfl, rfl⟩
  | none =>
    simp only [finishNode]
    split
    · obtain ⟨hr, hf⟩ := (make children).rebuild_same policy p q
      rw [← hf]
      cases hm : ((make children).rebuild policy p).failure with
      | some failure => exact ⟨hr, rfl⟩
      | none => exact ⟨hr, rfl⟩
    · exact ⟨rfl, rfl⟩

mutual

/-- The pass over a tree does not depend on what was counted before it. -/
theorem visit_same (policy : Policy) : (n : Node) → (p q : Progress) →
    (visit policy p n).Same (visit policy q n)
  | .document children, _, _ => finishNode_same policy _ (visitAll_same policy children _ _)
  | .method _ children, _, _ => finishNode_same policy _ (visitAll_same policy children _ _)
  | .element _ children, _, _ => finishNode_same policy _ (visitAll_same policy children _ _)
  | .attr _ parts, _, _ => finishNode_same policy _ (visitAll_same policy parts _ _)
  | .foreign _ _ children, _, _ => finishNode_same policy _ (visitAll_same policy children _ _)
  | .markup _, _, _ => ⟨rfl, rfl⟩
  | .text _, _, _ => ⟨rfl, rfl⟩

theorem visitAll_same (policy : Policy) : (ns : List Node) → (p q : Progress) →
    (visitAll policy p ns).Same (visitAll policy q ns)
  | [], _, _ => ⟨rfl, rfl⟩
  | n :: ns, p, q => by
    obtain ⟨hr, hf⟩ := visit_same policy n p q
    simp only [visitAll]
    rw [← hf]
    cases (visit policy p n).failure with
    | some failure => exact ⟨congrArg (· :: ns) hr, rfl⟩
    | none =>
      obtain ⟨hrs, hfs⟩ := visitAll_same policy ns (visit policy p n).progress
        (visit policy q n).progress
      exact ⟨congrArg₂ List.cons hr hrs, hfs⟩

end

/-! ### Settling -/

private theorem exists_of_mem_right {R : Node → Node → Prop} {ms ns : List Node}
    (h : List.Forall₂ R ms ns) {n : Node} (hn : n ∈ ns) : ∃ m ∈ ms, R m n := by
  induction h with
  | nil => cases hn
  | cons hr _ ih =>
    cases hn with
    | head => exact ⟨_, List.mem_cons_self, hr⟩
    | tail _ hn =>
      obtain ⟨m, hm, hmn⟩ := ih hn
      exact ⟨m, List.mem_cons_of_mem _ hm, hmn⟩

/-- The pass over `n` succeeds and leaves `r`. -/
def Settles (policy : Policy) (n r : Node) : Prop :=
  (visit policy {} n).failure = none ∧ (visit policy {} n).result = r

/-- The children `settled` of `n` are rebuilt if there is markup among them, which leaves `r`. -/
def Regrows (policy : Policy) (n : Node) (settled : List Node) (r : Node) : Prop :=
  if settled.any Node.isMarkup then
    ∃ built, build (policy.rules n) {} settled = .ok built ∧ r = n.withChildren built.children
  else r = n.withChildren settled

variable {policy : Policy} {n r : Node} {children settled : List Node}

theorem Settles.visit (h : Settles policy n r) (p : Progress) :
    (visit policy p n).failure = none ∧ (MarkupTree.visit policy p n).result = r := by
  obtain ⟨hr, hf⟩ := visit_same policy n p {}
  exact ⟨hf.trans h.1, hr.trans h.2⟩

theorem settles_of_visit {p : Progress} (h : (visit policy p n).failure = none) :
    Settles policy n (visit policy p n).result := by
  obtain ⟨hr, hf⟩ := visit_same policy n {} p
  exact ⟨hf.trans h, hr⟩

theorem Settles.unique {r' : Node} (h : Settles policy n r) (h' : Settles policy n r') : r = r' :=
  h.2.symm.trans h'.2

/-- The pass over a list of trees that all settle. -/
theorem visitAll_of_settles (h : List.Forall₂ (Settles policy) children settled) (p : Progress) :
    (visitAll policy p children).failure = none ∧
      (visitAll policy p children).result = settled := by
  induction h generalizing p with
  | nil => exact ⟨rfl, rfl⟩
  | cons hn _ ih =>
    obtain ⟨hf, hr⟩ := hn.visit p
    simp only [visitAll, hf, hr]
    obtain ⟨hfs, hrs⟩ := ih (MarkupTree.visit policy p _).progress
    exact ⟨hfs, congrArg _ hrs⟩

theorem settles_of_visitAll {p : Progress} (h : (visitAll policy p children).failure = none) :
    List.Forall₂ (Settles policy) children (visitAll policy p children).result := by
  induction children generalizing p with
  | nil => exact .nil
  | cons n ns ih =>
    simp only [visitAll] at h ⊢
    cases hf : (visit policy p n).failure with
    | some failure => simp [hf] at h
    | none =>
      rw [hf] at h
      exact .cons (settles_of_visit hf) (ih h)

/-- Finishing a node whose children have settled. -/
theorem finishNode_iff (h : n.children? = some children) (p : Progress) :
    ((finishNode policy n.withChildren ⟨settled, p, none⟩).failure = none ∧
      (finishNode policy n.withChildren ⟨settled, p, none⟩).result = r) ↔
      Regrows policy n settled r := by
  rw [Regrows]
  simp only [finishNode]
  split
  · have same := build_same (policy.rules n) p.stats {} settled
    simp only [Node.rebuild, Node.children?_withChildren h, Policy.rules_withChildren]
    generalize build (policy.rules n) p.stats settled = x at same
    generalize build (policy.rules n) {} settled = y at same
    cases same with
    | error _ => simp
    | ok hc => simp [hc, Node.withChildren_withChildren, eq_comm]
  · simp [eq_comm]

theorem visit_eq_finishNode (h : n.children? = some children) (p : Progress) :
    visit policy p n = finishNode policy n.withChildren (visitAll policy p.visit children) := by
  cases n with
  | markup _ | text _ => cases h
  | _ => cases h; rfl

/-- A node settles if its children settle and are then rebuilt. -/
theorem settles_iff (h : n.children? = some children) :
    Settles policy n r ↔
      ∃ settled, List.Forall₂ (Settles policy) children settled ∧ Regrows policy n settled r := by
  rw [Settles]
  rw [visit_eq_finishNode h]
  constructor
  · rintro ⟨hf, hr⟩
    have settles := @settles_of_visitAll policy children (Progress.visit {})
    generalize visitAll policy (Progress.visit {}) children = x at hf hr settles
    obtain ⟨settled, p, failure⟩ := x
    cases failure with
    | some failure => simp [finishNode] at hf
    | none => exact ⟨settled, settles rfl, (finishNode_iff h p).1 ⟨hf, hr⟩⟩
  · rintro ⟨settled, hs, hg⟩
    obtain ⟨hf, hr⟩ := visitAll_of_settles hs (Progress.visit {})
    generalize visitAll policy (Progress.visit {}) children = x at hf hr
    obtain ⟨_, p, _⟩ := x
    obtain rfl := hf
    obtain rfl := hr
    exact (finishNode_iff h p).2 hg

theorem settles_of_none (h : n.children? = none) : Settles policy n n := by
  cases n <;> first | exact ⟨rfl, rfl⟩ | cases h

/-- A node keeps its kind and its own fields when it settles. -/
theorem Settles.exists_withChildren (h : Settles policy n r) :
    ∃ children, r = n.withChildren children := by
  cases hn : n.children? with
  | none =>
    refine ⟨[], ?_⟩
    rw [Node.withChildren_of_none hn]
    exact h.unique (settles_of_none hn)
  | some children =>
    obtain ⟨settled, -, hg⟩ := (settles_iff hn).1 h
    rw [Regrows] at hg
    split at hg
    · obtain ⟨built, -, hr⟩ := hg
      exact ⟨_, hr⟩
    · exact ⟨_, hg⟩

theorem Settles.isMarkup (h : Settles policy n r) : r.isMarkup = n.isMarkup := by
  obtain ⟨children, rfl⟩ := h.exists_withChildren
  exact Node.isMarkup_withChildren n children

theorem any_isMarkup_of_settles (h : List.Forall₂ (Settles policy) children settled) :
    settled.any Node.isMarkup = children.any Node.isMarkup := by
  induction h with
  | nil => rfl
  | cons hn _ ih => rw [List.any_cons, List.any_cons, hn.isMarkup, ih]

/-! ### What has no markup is settled -/

theorem forall₂_settles_of (h : ∀ c ∈ children, Settles policy c c) :
    List.Forall₂ (Settles policy) children children :=
  List.forall₂_same.2 h

/-- A tree without markup is settled. -/
theorem settles_of_containsMarkup (h : n.containsMarkup = false) : Settles policy n n := by
  induction n using Node.induction with
  | step n ih =>
    cases hn : n.children? with
    | none => exact settles_of_none hn
    | some children =>
      rw [Node.containsMarkup_of_children? hn, List.any_eq_false] at h
      refine (settles_iff hn).2 ⟨children, ?_, ?_⟩
      · exact forall₂_settles_of fun c hc => ih children hn c hc (by simpa using h c hc)
      · have none : children.any Node.isMarkup = false :=
          List.any_eq_false.2 fun c hc => by
            simpa using Node.isMarkup_of_containsMarkup (by simpa using h c hc)
        simp [Regrows, none, Node.withChildren_of_children? hn]

/-- Being without markup is kept by building. -/
theorem keeps_containsMarkup :
    Builder.Keeps (fun m n => m = n ∧ n.containsMarkup = false) fun _ _ => True where
  text _ := ⟨rfl, rfl⟩
  ofAttribute _ := ⟨rfl, rfl⟩
  element name ms ns h := by
    have same : ms = ns := List.forall₂_eq_eq_eq ▸ h.imp fun _ _ h => h.1
    subst same
    refine ⟨rfl, ?_⟩
    rw [Node.containsMarkup, Node.anyContainsMarkup_eq_any, List.any_eq_false]
    exact fun n hn => by simpa using (List.forall₂_same.1 h n hn).2
  countRun _ := trivial
  countToken _ := trivial
  countDropped _ := trivial
  countElement _ _ := trivial

/-- Rebuilding leaves no markup, if there is none inside the nodes that it puts in place. -/
theorem containsMarkup_of_build {rules : TextRules} {stats : Stats} {built : Built}
    (h : ∀ c ∈ children, c.isMarkup = false → c.containsMarkup = false)
    (hb : build rules stats children = .ok built) :
    built.children.any Node.containsMarkup = false := by
  have same : List.Forall₂ (Corresponds fun m n => m = n ∧ n.containsMarkup = false) children
      children :=
    List.forall₂_same.2 fun c hc => Corresponds.refl fun hm => ⟨rfl, h c hc hm⟩
  obtain ⟨built', hb', hc, -⟩ :=
    (parallel_build keeps_containsMarkup rules (s := stats) trivial same).exists_of_ok_left hb
  cases hb.symm.trans hb'
  refine List.any_eq_false.2 fun n hn => ?_
  simpa using (List.forall₂_same.1 hc n hn).2

/-- What a tree settles to has no markup, unless the tree is markup as a whole. -/
theorem Settles.containsMarkup (h : Settles policy n r) (hm : n.isMarkup = false) :
    r.containsMarkup = false := by
  induction n using Node.induction generalizing r with
  | step n ih =>
    cases hn : n.children? with
    | none =>
      rw [h.unique (settles_of_none hn), Node.containsMarkup_of_none hn, hm]
    | some children =>
      obtain ⟨settled, hs, hg⟩ := (settles_iff hn).1 h
      have inside : ∀ d ∈ settled, d.isMarkup = false → d.containsMarkup = false := by
        intro d hd hdm
        obtain ⟨c, hc, hcd⟩ := exists_of_mem_right hs hd
        exact ih children hn c hc hcd (hcd.isMarkup ▸ hdm)
      rw [Regrows] at hg
      split at hg
      · obtain ⟨built, hb, rfl⟩ := hg
        rw [Node.containsMarkup_of_children? (Node.children?_withChildren hn)]
        exact containsMarkup_of_build inside hb
      · next hany =>
        subst hg
        rw [Node.containsMarkup_of_children? (Node.children?_withChildren hn), List.any_eq_false]
        intro d hd
        simpa using inside d hd (by simpa using List.any_eq_false.1 (by simpa using hany) d hd)

/-- What a tree has settled to is settled. -/
theorem Settles.again (h : Settles policy n r) : Settles policy r r := by
  cases hm : n.isMarkup with
  | false => exact settles_of_containsMarkup (h.containsMarkup hm)
  | true =>
    have leaf : n.children? = none := by cases n <;> first | rfl | cases hm
    rw [h.unique (settles_of_none leaf)]
    exact settles_of_none leaf

/-! ### Rebuilding before settling -/

/-- A replay treats a child and what it settles to alike. -/
theorem Settles.corresponds (h : Settles policy n r) :
    Corresponds (fun m n => Settles policy m n ∧ m.isMarkup = false) n r := by
  obtain ⟨children, rfl⟩ := h.exists_withChildren
  cases n with
  | markup _ => exact .markup rfl
  | attr _ _ => exact .attr ⟨h, rfl⟩
  | _ => exact .carried ⟨h, rfl⟩ rfl rfl rfl rfl

private theorem any_isMarkup_of_corresponding
    (h : List.Forall₂ (fun m n => Settles policy m n ∧ m.isMarkup = false) children settled) :
    settled.any Node.isMarkup = false := by
  rw [any_isMarkup_of_settles (h.imp fun _ _ h => h.1), List.any_eq_false]
  induction h with
  | nil => exact fun _ hn => absurd hn List.not_mem_nil
  | cons hn _ ih =>
    rintro m hm
    rcases List.mem_cons.1 hm with rfl | hm
    · simpa using hn.2
    · exact ih m hm

/-- Settling is kept by building: the nodes that a replay puts in place may settle inside the
elements that it builds. -/
theorem keeps_settles (policy : Policy) :
    Builder.Keeps (fun m n => Settles policy m n ∧ m.isMarkup = false) fun _ _ => True where
  text _ := ⟨settles_of_none rfl, rfl⟩
  ofAttribute _ := ⟨settles_of_containsMarkup rfl, rfl⟩
  element name ms ns h := by
    refine ⟨(settles_iff rfl).2 ⟨ns, h.imp fun _ _ h => h.1, ?_⟩, rfl⟩
    simp [Regrows, any_isMarkup_of_corresponding h, Node.withChildren]
  countRun _ := trivial
  countToken _ := trivial
  countDropped _ := trivial
  countElement _ _ := trivial

/-- If a node with markup among its children settles, then its children can be rebuilt before they
settle, and the node settles to the same afterwards. -/
theorem Settles.rebuilt (h : Settles policy n r) (hn : n.children? = some children)
    (hm : children.any Node.isMarkup = true) (stats : Stats) :
    ∃ built, build (policy.rules n) stats children = .ok built ∧
      Settles policy (n.withChildren built.children) r := by
  obtain ⟨settled, hs, hg⟩ := (settles_iff hn).1 h
  rw [Regrows, any_isMarkup_of_settles hs, hm, if_pos rfl] at hg
  obtain ⟨later, hl, rfl⟩ := hg
  have replays := parallel_build (keeps_settles policy) (policy.rules n) (s := stats) (u := {})
    trivial (hs.imp fun _ _ h => h.corresponds)
  obtain ⟨built, hb, hc, -⟩ := replays.exists_of_ok_right hl
  refine ⟨built, hb, (settles_iff (Node.children?_withChildren hn)).2 ?_⟩
  refine ⟨later.children, hc.imp fun _ _ h => h.1, ?_⟩
  simp [Regrows, any_isMarkup_of_corresponding hc, Node.withChildren_withChildren]

end MarkupTree
