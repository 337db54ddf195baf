import MarkupTree.Proofs.Pass.Confluence

/-!
# Finished trees

A pass that succeeds leaves no markup at any place of the tree, the values of attributes and the
children of foreign nodes included. Such a tree is finished: a further pass, under whatever policy,
visits its nodes and does nothing else (`restructure_again`).

That the tree is finished is known from what it settles to. That a pass over a finished tree only
visits it is an induction over the tree: no list of children has markup in it, so none is rebuilt.

## Main definitions

* `Node.size` : the number of nodes of a tree.
* `OnlyVisited` : a visit that counts the nodes of a tree and does nothing else.

## Main results

* `Node.isMarkup_at?` : no node of a tree without markup is markup.
* `onlyVisited_of_containsMarkup` : a tree without markup is only visited.
* `restructure_again` : the pass over a tree that the pass has left.
-/

namespace MarkupTree

variable {policy other : Policy} {tree node : Node} {place : List Nat}

namespace Node

mutual

/-- The number of nodes of a tree. The parts of an attribute's value count. -/
def size : Node → Nat
  | document children => 1 + sizeAll children
  | method _ children => 1 + sizeAll children
  | markup _ => 1
  | element _ children => 1 + sizeAll children
  | attr _ parts => 1 + sizeAll parts
  | text _ => 1
  | foreign _ _ children => 1 + sizeAll children

/-- The number of nodes of a list of trees. -/
def sizeAll : List Node → Nat
  | [] => 0
  | n :: ns => n.size + sizeAll ns

end

theorem size_of_children? {n : Node} {children : List Node} (h : n.children? = some children) :
    n.size = 1 + sizeAll children := by
  cases n <;> simp_all [children?, size]

/-- What is in a place of a tree without markup has no markup either. -/
theorem containsMarkup_at? (h : tree.containsMarkup = false) (hp : tree.at? place = some node) :
    node.containsMarkup = false := by
  induction place generalizing tree with
  | nil =>
    cases hp
    exact h
  | cons i place ih =>
    simp only [at?, Option.bind_eq_bind, Option.bind_eq_some_iff] at hp
    obtain ⟨children, hc, child, hi, hp⟩ := hp
    rw [containsMarkup_of_children? hc, List.any_eq_false] at h
    have inside : child.containsMarkup = false := by
      simpa using h child (List.mem_of_getElem? hi)
    exact ih inside hp

/-- No node of a tree without markup is markup. -/
theorem isMarkup_at? (h : tree.containsMarkup = false) (hp : tree.at? place = some node) :
    node.isMarkup = false :=
  isMarkup_of_containsMarkup (containsMarkup_at? h hp)

end Node

/-! ### Visits that change nothing -/

/-- What has been counted and told, with a number of visits more. -/
def Progress.visits (count : Nat) (p : Progress) : Progress :=
  { p with stats := { p.stats with visited := p.stats.visited + count } }

theorem Progress.visits_visits (j k : Nat) (p : Progress) :
    (p.visits j).visits k = p.visits (j + k) := by
  simp only [visits, Nat.add_assoc]

/-- The visit of `n` counts the nodes of `n` and does nothing else. -/
def OnlyVisited (policy : Policy) (n : Node) : Prop :=
  ∀ p, visit policy p n = ⟨n, p.visits n.size, none⟩

variable {children : List Node}

theorem visitAll_of_onlyVisited (h : ∀ c ∈ children, OnlyVisited policy c) (p : Progress) :
    visitAll policy p children = ⟨children, p.visits (Node.sizeAll children), none⟩ := by
  induction children generalizing p with
  | nil => rfl
  | cons c cs ih =>
    obtain ⟨hc, hcs⟩ := List.forall_mem_cons.1 h
    simp only [visitAll, hc p]
    rw [ih hcs, Progress.visits_visits]
    rfl

/-- A node without markup among its children is not rebuilt. -/
theorem onlyVisited_of_children? (hn : node.children? = some children)
    (hm : children.any Node.isMarkup = false) (h : ∀ c ∈ children, OnlyVisited policy c) :
    OnlyVisited policy node := by
  intro p
  have counted : p.visit.visits (Node.sizeAll children) = p.visits node.size := by
    rw [Node.size_of_children? hn, ← Progress.visits_visits]
    rfl
  rw [visit_eq_finishNode hn, visitAll_of_onlyVisited h, counted]
  simp only [finishNode, hm, Node.withChildren_of_children? hn]
  rfl

theorem onlyVisited_of_containsMarkup (h : tree.containsMarkup = false) :
    OnlyVisited policy tree := by
  induction tree using Node.induction with
  | step n ih =>
    cases hn : n.children? with
    | none =>
      cases n with
      | markup _ | text _ => exact fun _ => rfl
      | _ => cases hn
    | some children =>
      rw [Node.containsMarkup_of_children? hn, List.any_eq_false] at h
      have inside : ∀ c ∈ children, c.containsMarkup = false := fun c hc => by simpa using h c hc
      refine onlyVisited_of_children? hn ?_ fun c hc => ih children hn c hc (inside c hc)
      refine List.any_eq_false.2 fun c hc => ?_
      simpa using Node.isMarkup_of_containsMarkup (inside c hc)

/-! ### The pass again -/

/-- If the pass over a tree succeeds, then there is no markup anywhere in the tree that it leaves.
A further pass, under the same policy or another, succeeds, leaves that tree as it is, and counts
its nodes as visited and nothing else: no node is rebuilt, no markup read, no element built. -/
theorem restructure_again (hm : tree.isMarkup = false)
    (h : (restructure policy tree).failure = none) :
    let done := (restructure policy tree).result
    (∀ place node, done.at? place = some node → node.isMarkup = false) ∧
      (restructure other done).failure = none ∧ (restructure other done).result = done ∧
      (restructure other done).progress.stats = { visited := done.size } := by
  intro done
  have settles : Settles policy tree done := settles_iff_restructure.2 ⟨h, rfl⟩
  have finished : done.containsMarkup = false := settles.containsMarkup hm
  have visited : visit other {} done = ⟨done, Progress.visits done.size {}, none⟩ :=
    onlyVisited_of_containsMarkup finished {}
  refine ⟨fun place node hp => Node.isMarkup_at? finished hp, ?_⟩
  simp only [restructure, visited]
  refine ⟨trivial, trivial, ?_⟩
  simp [Progress.tell, Progress.visits]

/-- A branch inside a paragraph, with markup in the value of an attribute that is carried. -/
def branchInParagraph : Node :=
  .method "show"
    [.markup ["<p "], .attr "title" [.foreign "expr" "t" [.markup ["<br>"]]],
      .markup [">one "], .foreign "branch" "c" [.markup ["<b>x</b>"]], .markup ["</p> "]]

theorem restructure_again_branchInParagraph :
    let done := (restructure {} branchInParagraph).result
    (∀ place node, done.at? place = some node → node.isMarkup = false) ∧
      (restructure { rootWhitespace := .preserve } done).failure = none ∧
      (restructure { rootWhitespace := .preserve } done).result = done ∧
      (restructure { rootWhitespace := .preserve } done).progress.stats =
        { visited := done.size } :=
  restructure_again rfl (by decide +kernel)

end MarkupTree
