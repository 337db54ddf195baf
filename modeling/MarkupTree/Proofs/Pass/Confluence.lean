import MarkupTree.Proofs.Pass.Settling
import MarkupTree.Tree.Session

/-!
# The order of work does not matter

A tree under work may be given structure in any order: the pass may be run on any node, and the
children of any node with a markup child may be rebuilt, before or after those of the nodes above
and below it. If the pass over the whole tree succeeds, then none of these steps can fail, and the
pass over what they leave ends in the same tree (`restructure_after_work`).

A step keeps what the tree settles to. It replaces the node at one place by a node that settles to
the same (`Settles.replace`), and the places of the next step are those of the changed tree.

## Main definitions

* `Edit` : a step of work, at a place of the tree.
* `Session.perform` : the step, where it applies.
* `Session.performAll` : a row of steps, each at a place that the tree has when its turn comes.

## Main results

* `Settles.at?` : in a tree that settles, every node does.
* `Settles.replace` : a node may be replaced by one that settles to the same.
* `Settles.perform` : a step succeeds and keeps what the tree settles to.
* `restructure_after_work` : after any row of steps, the pass leaves the same tree.
-/

namespace MarkupTree

variable {policy : Policy} {tree node result : Node} {place : List Nat}

/-! ### Settling below a node -/

theorem forall₂_getElem? {R : Node → Node → Prop} {ms ns : List Node}
    (h : List.Forall₂ R ms ns) {i : Nat} {m : Node} (hm : ms[i]? = some m) :
    ∃ n, ns[i]? = some n ∧ R m n := by
  induction h generalizing i with
  | nil => simp at hm
  | cons hr _ ih =>
    cases i with
    | zero =>
      cases hm
      exact ⟨_, rfl, hr⟩
    | succ i => exact ih (by simpa using hm)

private theorem forall₂_modify {R : Node → Node → Prop} {ms ns : List Node} {f : Node → Node}
    {i : Nat} (h : List.Forall₂ R ms ns)
    (hf : ∀ m, ms[i]? = some m → ∀ n, R m n → R (f m) n) :
    List.Forall₂ R (ms.modify i f) ns := by
  induction h generalizing i with
  | nil =>
    rw [List.modify_nil]
    exact .nil
  | cons hr hrs ih =>
    cases i with
    | zero =>
      rw [List.modify_zero_cons]
      exact .cons (hf _ rfl _ hr) hrs
    | succ i =>
      rw [List.modify_succ_cons]
      exact .cons hr (ih fun m hm => hf m (by simpa using hm))

/-- In a tree that settles, the node at any place does. -/
theorem Settles.at? (h : Settles policy tree result) (hp : tree.at? place = some node) :
    ∃ r, Settles policy node r := by
  induction place generalizing tree result with
  | nil =>
    cases hp
    exact ⟨result, h⟩
  | cons i place ih =>
    simp only [Node.at?, Option.bind_eq_bind, Option.bind_eq_some_iff] at hp
    obtain ⟨children, hc, child, hi, hp⟩ := hp
    obtain ⟨settled, hs, -⟩ := (settles_iff hc).1 h
    obtain ⟨r, -, hr⟩ := forall₂_getElem? hs hi
    exact ih hr hp

/-- A node may be replaced by one that settles to the same: the tree still settles to the same. -/
theorem Settles.replace {new : Node} (h : Settles policy tree result)
    (hp : tree.at? place = some node) (hn : ∀ r, Settles policy node r → Settles policy new r) :
    Settles policy (tree.replace place new) result := by
  induction place generalizing tree result with
  | nil =>
    cases hp
    exact hn result h
  | cons i place ih =>
    simp only [Node.at?, Option.bind_eq_bind, Option.bind_eq_some_iff] at hp
    obtain ⟨children, hc, child, hi, hp⟩ := hp
    obtain ⟨settled, hs, hg⟩ := (settles_iff hc).1 h
    simp only [Node.replace, hc]
    refine (settles_iff (Node.children?_withChildren hc)).2 ⟨settled, ?_, ?_⟩
    · refine forall₂_modify hs fun c hci r hr => ?_
      cases hi.symm.trans hci
      exact ih hr hp
    · simpa only [Regrows, Policy.rules_withChildren, Node.withChildren_withChildren] using hg

/-! ### Steps of work -/

/-- A step of work on a tree, at a place. -/
inductive Edit
  /-- The pass over the node at the place. -/
  | run (place : List Nat)
  /-- Rebuilding the children of the node at the place. -/
  | rebuild (place : List Nat)

/-- Whether a node has markup right below it. -/
def Node.hasMarkupChild (n : Node) : Bool := (n.children?.getD []).any isMarkup

/-- Does a step of work where it applies. The tree has to have the place, and children are rebuilt
only if there is markup among them. -/
def Session.perform (policy : Policy) (session : Session) : Edit → Option (Outcome Session)
  | .run place => (session.tree.at? place).map (session.run policy place)
  | .rebuild place =>
    ((session.tree.at? place).filter Node.hasMarkupChild).map (session.rebuild policy place)

/-- Does a row of steps, each at a place that the tree has when its turn comes. A step that fails is
followed by the others all the same. What is left comes with the failure of each step, if it has
one. -/
def Session.performAll (policy : Policy) : (session : Session) → List Edit →
    Option (List (Option Failure) × Session)
  | session, [] => some ([], session)
  | session, edit :: edits => do
    let outcome ← session.perform policy edit
    let (failures, last) ← outcome.result.performAll policy edits
    return (outcome.failure :: failures, last)

/-- The pass succeeds and leaves what the tree settles to. -/
theorem settles_iff_restructure :
    Settles policy tree result ↔
      (restructure policy tree).failure = none ∧ (restructure policy tree).result = result :=
  Iff.rfl

/-- If a node settles, rebuilding its markup children succeeds and keeps what it settles to. -/
theorem Settles.rebuild (h : Settles policy node result) (hm : node.hasMarkupChild = true)
    (p : Progress) :
    (node.rebuild policy p).failure = none ∧
      Settles policy (node.rebuild policy p).result result := by
  cases hc : node.children? with
  | none => simp [Node.hasMarkupChild, hc] at hm
  | some children =>
    rw [Node.hasMarkupChild, hc] at hm
    obtain ⟨built, hb, hs⟩ := h.rebuilt hc hm p.stats
    have rebuilt : node.rebuild policy p =
        ⟨node.withChildren built.children, { p with stats := built.stats }, none⟩ := by
      simp only [Node.rebuild, hc, hb]
    rw [rebuilt]
    exact ⟨rfl, hs⟩

/-- If a tree settles, a step of work on it succeeds, and the tree that it leaves settles to the
same. -/
theorem Settles.perform {session : Session} {edit : Edit} {outcome : Outcome Session}
    (h : Settles policy session.tree result) (ho : session.perform policy edit = some outcome) :
    outcome.failure = none ∧ Settles policy outcome.result.tree result := by
  cases edit with
  | run place =>
    obtain ⟨node, hp, rfl⟩ := Option.map_eq_some_iff.1 ho
    obtain ⟨r, hr⟩ := h.at? hp
    obtain ⟨hf, rfl⟩ := settles_iff_restructure.1 hr
    refine ⟨hf, h.replace hp fun q hq => ?_⟩
    rw [← hr.unique hq]
    exact hr.again
  | rebuild place =>
    obtain ⟨node, hp, rfl⟩ := Option.map_eq_some_iff.1 ho
    obtain ⟨hp, hm⟩ := Option.filter_eq_some_iff.1 hp
    obtain ⟨r, hr⟩ := h.at? hp
    obtain ⟨hf, hs⟩ := hr.rebuild hm { stats := session.stats }
    refine ⟨hf, h.replace hp fun q hq => ?_⟩
    rw [← hr.unique hq]
    exact hs

/-- A row of steps on a tree that settles: no step fails, and the tree that they leave settles to
the same. -/
theorem Settles.performAll {session last : Session} {edits : List Edit}
    {failures : List (Option Failure)} (h : Settles policy session.tree result)
    (hw : session.performAll policy edits = some (failures, last)) :
    (∀ f ∈ failures, f = none) ∧ Settles policy last.tree result := by
  induction edits generalizing session failures with
  | nil =>
    cases hw
    exact ⟨nofun, h⟩
  | cons edit edits ih =>
    simp only [Session.performAll, Option.bind_eq_bind, Option.bind_eq_some_iff] at hw
    obtain ⟨outcome, ho, ⟨others, final⟩, hw, heq⟩ := hw
    cases heq
    obtain ⟨hf, hs⟩ := h.perform ho
    obtain ⟨hfs, hl⟩ := ih hs hw
    refine ⟨?_, hl⟩
    intro f hm
    rcases List.mem_cons.1 hm with rfl | hm
    · exact hf
    · exact hfs f hm

/-- If the pass over a tree succeeds, then so does every step of work on it, in any order and at
any places, and the pass over the tree that they leave ends in the same tree. -/
theorem restructure_after_work {stats : Stats} {edits : List Edit}
    {failures : List (Option Failure)} {last : Session}
    (h : (restructure policy tree).failure = none)
    (hw : Session.performAll policy { tree, stats } edits = some (failures, last)) :
    (∀ f ∈ failures, f = none) ∧ (restructure policy last.tree).failure = none ∧
      (restructure policy last.tree).result = (restructure policy tree).result := by
  have settles : Settles policy tree (restructure policy tree).result :=
    settles_iff_restructure.2 ⟨h, rfl⟩
  obtain ⟨hf, hl⟩ := settles.performAll hw
  exact ⟨hf, settles_iff_restructure.1 hl⟩

/-- A paragraph that is split around a branch, which has markup of its own. -/
def splitParagraph : Node :=
  .method "show"
    [.markup ["<p>"], .foreign "branch" "c" [.markup ["<b>x", "</b>"]], .markup ["</p>"]]

/-- The paragraph first, then the branch inside it, which has moved, then the paragraph again. -/
theorem restructure_after_work_splitParagraph :
    ∃ failures last,
      Session.performAll {} { tree := splitParagraph }
          [.rebuild [], .rebuild [0, 0], .run [0]] = some (failures, last) ∧
        (∀ f ∈ failures, f = none) ∧ (restructure {} last.tree).failure = none ∧
        (restructure {} last.tree).result = (restructure {} splitParagraph).result := by
  have paragraph : (restructure {} splitParagraph).failure = none := by decide +kernel
  have work :
      Session.performAll {} { tree := splitParagraph } [.rebuild [], .rebuild [0, 0], .run [0]] =
        some ([none, none, none],
          { tree := .method "show"
              [.element "p" [.foreign "branch" "c" [.element "b" [.text "x"]]]]
            stats := { runs := 3, tokens := 8, elements := 2, maxDepth := 2 } }) := by
    decide +kernel
  exact ⟨_, _, work, restructure_after_work paragraph work⟩

end MarkupTree
