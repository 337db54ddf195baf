import MarkupTree.Proofs.Pass.Completion
import MarkupTree.Proofs.Pass.RoundTrip
import MarkupTree.Proofs.Replay.Counting

/-!
# What a pass counts

When a pass succeeds, its counts can be told from the tree and from what it leaves. Each node is
visited once. The nodes with a markup child are rebuilt, so all markup below the root is read, each
piece in one place, and each element that was built is in the tree that is left
(`stats_restructure`).

The counts are a sum over the nodes of the tree. A node adds itself, what is read when its children
are rebuilt, and the forest that is then built of them (`tally`). Its children have settled by then,
but the texts that are read are those of the tree from before: markup is settled as it is.

The depth is counted in 32 bits. It is one more than the longest row of nested elements as long as
that fits, and the greatest number of 32 bits from then on: for such a tree see `tower`.

## Main definitions

* `RebuiltAs` : the forest that the pass makes of the children of a node.
* `textsOf` : the texts that are tokenized for the children of some nodes.
* `tally` : what some nodes count for.
* `Accounted` : a pass over some nodes counts what they count for.
* `tower` : markup that nests elements as deep as one likes.

## Main results

* `Settles.accounted` : the pass over a tree that settles.
* `stats_restructure` : all counts of a pass that succeeds.
* `accounted_tower` : the counts of a tower.
-/

namespace MarkupTree

variable {policy : Policy} {n r tree : Node} {children settled : List Node}

namespace Node

/-! ### Trees -/

/-- The children of a node. Markup and texts have none. -/
def childList (n : Node) : List Node := n.children?.getD []

theorem childList_of_children? (h : n.children? = some children) : n.childList = children := by
  rw [childList, h, Option.getD_some]

theorem childList_of_none (h : n.children? = none) : n.childList = [] := by
  rw [childList, h, Option.getD_none]

theorem hasMarkupChild_eq (n : Node) : n.hasMarkupChild = n.childList.any isMarkup := rfl

/-- A node comes after all that is below it. -/
theorem postorder_eq (n : Node) : n.postorder = postorderAll n.childList ++ [n] := by
  cases h : n.children? with
  | none => rw [postorder_of_none h, childList_of_none h, postorderAll, List.nil_append]
  | some children =>
    rw [postorder_of_children? h, childList_of_children? h, postorderAll_eq_flatMap]

theorem isElement_withChildren (n : Node) (new : List Node) :
    (n.withChildren new).isElement = n.isElement := by
  cases n <;> rfl

mutual

theorem length_postorder : (n : Node) → n.postorder.length = n.size
  | document children | method _ children | element _ children | attr _ children
  | foreign _ _ children => by
    rw [postorder, List.length_append, length_postorderAll children, size, Nat.add_comm]
    rfl
  | markup _ | text _ => rfl

theorem length_postorderAll : (ns : List Node) → (postorderAll ns).length = sizeAll ns
  | [] => rfl
  | n :: ns => by
    rw [postorderAll, List.length_append, length_postorder n, length_postorderAll ns, sizeAll]

end

end Node

/-! ### What nodes count for -/

/-- The texts that are tokenized for the children of some nodes. -/
def textsOf (nodes : List Node) : List String :=
  nodes.flatMap fun n => Trail.textsRead {} n.childList

/-- A pass that succeeds makes `forest` of the children of `n`, when they have settled. -/
def RebuiltAs (policy : Policy) (n : Node) (forest : List Traced) : Prop :=
  ∃ settled built, List.Forall₂ (Settles policy) n.childList settled ∧
    build (policy.rules n) {} settled = .ok built ∧ Traces forest settled ∧
      built.children = Traced.nodes ((policy.rules n).shown forest)

/-- What some nodes count for when they are visited, and rebuilt if they have a markup child. -/
def visitCost (nodes : List Node) : Stats where
  visited := nodes.length
  rebuilt := nodes.countP Node.hasMarkupChild

/-- What some nodes count for in a pass that makes these forests of their children. -/
def tally (nodes : List Node) (forests : List (List Traced)) : Stats :=
  visitCost nodes + readCost (textsOf nodes) + Traced.cost 0 forests.flatten

theorem visitCost_append (ms ns : List Node) :
    visitCost (ms ++ ns) = visitCost ms + visitCost ns := by
  simp [visitCost, Stats.add_def]

theorem tally_append (ms ns : List Node) (fs gs : List (List Traced)) :
    tally (ms ++ ns) (fs ++ gs) = tally ms fs + tally ns gs := by
  rw [tally, visitCost_append, textsOf, List.flatMap_append, readCost_append, List.flatten_append,
    Traced.cost_append, tally, tally, textsOf, textsOf]
  abel

/-- The pass over some nodes counts what they count for, and of `old` elements it makes `new`. -/
def Accounted (policy : Policy) (nodes : List Node) (pass : Progress → Progress) (old new : Nat) :
    Prop :=
  ∃ forests, List.Forall₂ (RebuiltAs policy) (nodes.filter Node.hasMarkupChild) forests ∧
    (∀ p, (pass p).stats.exceptDropped = p.stats.exceptDropped + tally nodes forests) ∧
      new = old + (Traced.elementsAll forests.flatten).length

/-- Passes one after the other. -/
theorem Accounted.append {ms ns : List Node} {first later : Progress → Progress}
    {old new old' new' : Nat} (h : Accounted policy ms first old new)
    (h' : Accounted policy ns later old' new') :
    Accounted policy (ms ++ ns) (fun p => later (first p)) (old + old') (new + new') := by
  obtain ⟨fs, hfs, hstats, hnew⟩ := h
  obtain ⟨gs, hgs, hstats', hnew'⟩ := h'
  refine ⟨fs ++ gs, ?_, fun p => ?_, ?_⟩
  · rw [List.filter_append]
    exact List.rel_append hfs hgs
  · rw [hstats', hstats, tally_append, add_assoc]
  · rw [List.flatten_append, Traced.length_elementsAll_append]
    omega

/-! ### The pass -/

/-- The texts that are tokenized are the same after the children have settled. -/
theorem textsRead_of_settles (h : List.Forall₂ (Settles policy) children settled) (t : Trail) :
    t.textsRead settled = t.textsRead children := by
  induction h generalizing t with
  | nil => rfl
  | @cons c d cs ds hc _ ih =>
    cases hn : c.children? with
    | none =>
      obtain rfl := hc.unique (settles_of_none hn)
      rw [Trail.textsRead, ih, Trail.textsRead]
    | some inside =>
      obtain ⟨others, rfl⟩ := hc.exists_withChildren
      cases c with
      | markup _ | text _ => cases hn
      | _ => exact ih t

theorem accounted_visitAll (h : List.Forall₂ (Settles policy) children settled)
    (hc : ∀ c ∈ children, ∀ d, Settles policy c d →
      Accounted policy c.postorder (fun p => (visit policy p c).progress) c.elementCount
        d.elementCount) :
    Accounted policy (Node.postorderAll children)
      (fun p => (visitAll policy p children).progress) (Node.elementCountAll children)
      (Node.elementCountAll settled) := by
  induction h with
  | nil => exact ⟨[], .nil, fun p => (add_zero _).symm, rfl⟩
  | @cons c d cs ds hd _ ih =>
    obtain ⟨first, others⟩ := List.forall_mem_cons.1 hc
    have both := (first d hd).append (ih others)
    have pass (p : Progress) : (visitAll policy p (c :: cs)).progress =
        (visitAll policy (visit policy p c).progress cs).progress := by
      simp only [visitAll, (hd.visit p).1]
    simp only [← pass] at both
    exact both

/-- A node that is not rebuilt counts for one visit. -/
theorem tally_of_not_rebuilt (hm : n.hasMarkupChild = false) :
    tally [n] [] = { visited := 1 } + 0 := by
  have none : Trail.textsRead {} n.childList = [] := by
    rw [← List.length_eq_zero_iff, Trail.length_textsRead, List.countP_eq_zero]
    intro c hc
    simpa using List.any_eq_false.1 hm c hc
  simp [tally, visitCost, hm, textsOf, none, readCost, Traced.cost, Traced.heightAll,
    Traced.nestDepth, Traced.elementsAll, Stats.add_def]

/-- A node that is rebuilt counts for more than its visit. -/
theorem tally_of_rebuilt (hm : n.hasMarkupChild = true) (forest : List Traced) :
    tally [n] [forest] =
      { visited := 1 } +
        (readCost (Trail.textsRead {} n.childList) + Traced.cost 0 forest + { rebuilt := 1 }) := by
  have visited : visitCost [n] = { visited := 1 } + { rebuilt := 1 } := by
    simp [visitCost, hm, Stats.add_def]
  rw [tally, visited, textsOf, List.flatMap_singleton, List.flatten_singleton]
  abel

theorem elementCount_withChildren (hn : n.children? = some children) (new : List Node) :
    (n.withChildren new).elementCount =
      Node.elementCountAll new + if n.isElement then 1 else 0 := by
  rw [Node.elementCount_of_children? (Node.children?_withChildren hn),
    Node.isElement_withChildren]

/-- How a node is finished when its children have settled: a forest is made of them and counted, or
there is no markup among them. -/
structure Finishes (policy : Policy) (n : Node) (settled : List Node) (r : Node)
    (forests : List (List Traced)) (rest : Stats) : Prop where
  rebuilt : List.Forall₂ (RebuiltAs policy) ([n].filter Node.hasMarkupChild) forests
  tally : tally [n] forests = { visited := 1 } + rest
  stats : ∀ q, (finishNode policy n.withChildren ⟨settled, q, none⟩).progress.stats.exceptDropped =
    q.stats.exceptDropped + rest
  elements : r.elementCount =
    Node.elementCountAll settled + (Traced.elementsAll forests.flatten).length +
      if n.isElement then 1 else 0

theorem finishes_of_rebuilt (hn : n.children? = some children)
    (hs : List.Forall₂ (Settles policy) children settled)
    (hm : settled.any Node.isMarkup = true) {built : Built}
    (hb : build (policy.rules n) {} settled = .ok built) :
    ∃ forests rest, Finishes policy n settled (n.withChildren built.children) forests rest := by
  have list : n.childList = children := Node.childList_of_children? hn
  have marked : n.hasMarkupChild = true := by
    rw [Node.hasMarkupChild_eq, list, ← any_isMarkup_of_settles hs, hm]
  obtain ⟨forest, hforest, hchildren, -⟩ := traces_build hb
  refine ⟨[forest], _, ?_, tally_of_rebuilt marked forest, fun q => ?_, ?_⟩
  · rw [List.filter_singleton, marked]
    exact .cons ⟨settled, built, list.symm ▸ hs, hb, hforest, hchildren⟩ .nil
  · obtain ⟨later, hl, -⟩ :=
      (build_same (policy.rules n) {} q.stats settled).exists_of_ok_left hb
    have counted : later.stats.countRebuilt.exceptDropped =
        later.stats.exceptDropped + { rebuilt := 1 } :=
      congrArg Stats.exceptDropped (Stats.countRebuilt_eq later.stats)
    have finished : (finishNode policy n.withChildren ⟨settled, q, none⟩).progress.stats =
        later.stats.countRebuilt := by
      simp only [finishNode, hm, if_true, Node.rebuild, Node.children?_withChildren hn,
        Policy.rules_withChildren, hl]
      rfl
    rw [finished, counted, stats_build hl hforest, textsRead_of_settles hs, list, add_assoc]
  · rw [elementCount_withChildren hn, hchildren, hforest.elementCountAll_shown,
      List.flatten_singleton]

theorem finishes_of_kept (hn : n.children? = some children)
    (hs : List.Forall₂ (Settles policy) children settled)
    (hm : settled.any Node.isMarkup = false) :
    Finishes policy n settled (n.withChildren settled) [] 0 := by
  have unmarked : n.hasMarkupChild = false := by
    rw [Node.hasMarkupChild_eq, Node.childList_of_children? hn, ← any_isMarkup_of_settles hs, hm]
  refine ⟨?_, tally_of_not_rebuilt unmarked, fun q => ?_, elementCount_withChildren hn settled⟩
  · rw [List.filter_singleton, unmarked]
    exact .nil
  · simp only [finishNode, hm, add_zero]
    rfl

theorem stats_visit (p : Progress) :
    p.visit.stats.exceptDropped = p.stats.exceptDropped + { visited := 1 } :=
  congrArg Stats.exceptDropped (Stats.countVisit_eq p.stats)

/-- A node with what is below it: the node is visited first, and at last it is finished. -/
theorem Finishes.accounted {forests : List (List Traced)} {rest : Stats}
    (h : Finishes policy n settled r forests rest) {below : List Node} {pass : Progress → Progress}
    {old : Nat} (hb : Accounted policy below pass old (Node.elementCountAll settled)) :
    Accounted policy (below ++ [n])
      (fun p => (finishNode policy n.withChildren ⟨settled, pass p.visit, none⟩).progress)
      (old + if n.isElement then 1 else 0) r.elementCount := by
  obtain ⟨fs, hfs, hstats, hnew⟩ := hb
  refine ⟨fs ++ forests, ?_, fun p => ?_, ?_⟩
  · rw [List.filter_append]
    exact List.rel_append hfs h.rebuilt
  · rw [h.stats, hstats, stats_visit, tally_append, h.tally]
    abel
  · rw [h.elements, hnew, List.flatten_append, Traced.length_elementsAll_append]
    omega

/-- The pass over a tree that settles counts what the nodes of the tree count for. -/
theorem Settles.accounted (h : Settles policy n r) :
    Accounted policy n.postorder (fun p => (MarkupTree.visit policy p n).progress) n.elementCount
      r.elementCount := by
  induction n using Node.induction generalizing r with
  | step n ih =>
    cases hn : n.children? with
    | none =>
      obtain rfl := h.unique (settles_of_none hn)
      have unmarked : r.hasMarkupChild = false := by
        rw [Node.hasMarkupChild_eq, Node.childList_of_none hn, List.any_nil]
      have pass (p : Progress) : (MarkupTree.visit policy p r).progress = p.visit := by
        cases r <;> first | rfl | cases hn
      simp only [pass]
      rw [Node.postorder_of_none hn]
      refine ⟨[], ?_, fun p => ?_, rfl⟩
      · rw [List.filter_singleton, unmarked]
        exact .nil
      · rw [stats_visit, tally_of_not_rebuilt unmarked, add_zero]
    | some children =>
      obtain ⟨settled, hs, hg⟩ := (settles_iff hn).1 h
      have inside := accounted_visitAll hs fun c hc d hd => ih children hn c hc hd
      have pass (p : Progress) : (MarkupTree.visit policy p n).progress =
          (finishNode policy n.withChildren
            ⟨settled, (visitAll policy p.visit children).progress, none⟩).progress := by
        obtain ⟨hf, hr⟩ := visitAll_of_settles hs p.visit
        rw [visit_eq_finishNode hn, ← hf, ← hr]
      obtain ⟨forests, rest, finishes⟩ :
          ∃ forests rest, Finishes policy n settled r forests rest := by
        rw [Regrows] at hg
        split at hg
        · next hm =>
          obtain ⟨built, hb, rfl⟩ := hg
          exact finishes_of_rebuilt hn hs hm hb
        · next hm =>
          subst hg
          exact ⟨[], 0, finishes_of_kept hn hs (Bool.not_eq_true _ ▸ hm)⟩
      simp only [pass]
      rw [Node.postorder_eq, Node.childList_of_children? hn, Node.elementCount_of_children? hn]
      exact finishes.accounted inside

/-! ### All counts -/

theorem length_textsOf_of_forall
    (h : ∀ c ∈ children,
      (textsOf c.postorder).length = (Node.postorderAll c.childList).countP Node.isMarkup) :
    (textsOf (Node.postorderAll children)).length + children.countP Node.isMarkup =
      (Node.postorderAll children).countP Node.isMarkup := by
  induction children with
  | nil => rfl
  | cons c cs ih =>
    obtain ⟨first, others⟩ := List.forall_mem_cons.1 h
    have later := ih others
    have apart : textsOf (Node.postorderAll (c :: cs)) =
        textsOf c.postorder ++ textsOf (Node.postorderAll cs) := List.flatMap_append
    rw [apart, List.length_append, first, List.countP_cons, Node.postorderAll, List.countP_append,
      c.postorder_eq, List.countP_append, List.countP_singleton, ← later]
    omega

/-- All markup below the root of a tree is read, each markup node once. -/
theorem length_textsOf (n : Node) :
    (textsOf n.postorder).length = (Node.postorderAll n.childList).countP Node.isMarkup := by
  induction n using Node.induction with
  | step n ih =>
    have inside : ∀ c ∈ n.childList, (textsOf c.postorder).length =
        (Node.postorderAll c.childList).countP Node.isMarkup := by
      intro c hc
      cases hn : n.children? with
      | none => simp [Node.childList_of_none hn] at hc
      | some children => exact ih children hn c (Node.childList_of_children? hn ▸ hc)
    rw [Node.postorder_eq, textsOf, List.flatMap_append, List.flatMap_singleton, List.length_append,
      Trail.length_textsRead]
    exact length_textsOf_of_forall inside

theorem tally_eq (nodes : List Node) (forests : List (List Traced)) :
    tally nodes forests =
      { visited := nodes.length
        rebuilt := nodes.countP Node.hasMarkupChild
        runs := (textsOf nodes).length
        tokens := ((textsOf nodes).map fun text => (tokens text).length).sum
        elements := (Traced.elementsAll forests.flatten).length
        maxDepth := Traced.nestDepth 0 (Traced.heightAll forests.flatten) } := by
  simp [tally, visitCost, readCost, Traced.cost, Stats.add_def]

/-- If the pass over a tree succeeds, its counts account for the tree.

The nodes visited are those of the tree, and the nodes rebuilt are those with a markup child. The
markup that is read is all markup below the root, and the tokens are those of the texts that are
tokenized. The elements built are in the tree that is left, besides those that were there before.
If there are any, the depth is one more than the longest row of elements, each directly inside the
one before it, that were built of one list of children, but no more than 32 bits can count. -/
theorem stats_restructure (h : (restructure policy tree).failure = none) :
    let done := (restructure policy tree).result
    let stats := (restructure policy tree).progress.stats
    stats.visited = tree.size ∧
      stats.rebuilt = tree.postorder.countP Node.hasMarkupChild ∧
      stats.runs = (Node.postorderAll tree.childList).countP Node.isMarkup ∧
      stats.tokens = ((textsOf tree.postorder).map fun text => (tokens text).length).sum ∧
      done.elementCount = tree.elementCount + stats.elements ∧
      ∃ forests,
        List.Forall₂ (RebuiltAs policy) (tree.postorder.filter Node.hasMarkupChild) forests ∧
        stats.elements = (Traced.elementsAll forests.flatten).length ∧
        if stats.elements = 0 then stats.maxDepth = 0
        else ∃ longest,
          IsGreatest
            {k | ∃ forest ∈ forests, ∃ chain, Traced.IsNest forest chain ∧ chain.length = k}
            longest ∧
          stats.maxDepth.toNat = min (1 + longest) (UInt32.size - 1) := by
  intro done stats
  have settles : Settles policy tree done := settles_iff_restructure.2 ⟨h, rfl⟩
  obtain ⟨forests, hforests, counted, hdone⟩ := settles.accounted
  have all : stats.exceptDropped = tally tree.postorder forests :=
    (counted {}).trans (zero_add _)
  rw [tally_eq] at all
  have elements : stats.elements = (Traced.elementsAll forests.flatten).length :=
    congrArg Stats.elements all
  have depth : stats.maxDepth = Traced.nestDepth 0 (Traced.heightAll forests.flatten) :=
    congrArg Stats.maxDepth all
  have none : stats.elements = 0 ↔ Traced.heightAll forests.flatten = 0 := by
    rw [elements, List.length_eq_zero_iff, Traced.heightAll_eq_zero_iff]
  refine ⟨?_, congrArg Stats.rebuilt all, ?_, congrArg Stats.tokens all, ?_, forests, hforests,
    elements, ?_⟩
  · exact (congrArg Stats.visited all).trans tree.length_postorder
  · exact (congrArg Stats.runs all).trans (length_textsOf tree)
  · rw [hdone, elements]
  · split
    · next hzero => rw [depth, none.1 hzero, Traced.nestDepth]
    · next hsome =>
      have high : Traced.heightAll forests.flatten ≠ 0 := fun hzero => hsome (none.2 hzero)
      exact ⟨_, Traced.isGreatest_heightAll_flatten high, depth ▸ Traced.toNat_nestDepth high⟩

/-- A list item whose start tag is split around an attribute, with an image whose tag is split too
and a branch. The image is the third element of its row, and the branch has a row of its own. -/
def branchInListItem : Node :=
  .method "show"
    [.markup ["<ul><li "], .attr "id" [.markup ["x<b", "r>"]], .markup [">a<img src"],
      .markup ["=b>"], .foreign "branch" "c" [.markup ["<b><i>y</i></b>"], .element "hr" []],
      .markup ["</li></ul>"]]

theorem stats_restructure_branchInListItem :
    let done := (restructure {} branchInListItem).result
    let stats := (restructure {} branchInListItem).progress.stats
    stats =
        { visited := 10, rebuilt := 3, runs := 6, tokens := 21, elements := 6, maxDepth := 4 } ∧
      textsOf branchInListItem.postorder =
        ["x<br>", "<b><i>y</i></b>", "<ul><li ", "<li >a<img src", "<img =b>", "</li></ul>"] ∧
      stats.visited = branchInListItem.size ∧
      stats.tokens =
        ((textsOf branchInListItem.postorder).map fun text => (tokens text).length).sum ∧
      done.elementCount = branchInListItem.elementCount + stats.elements ∧
      ∃ forests longest,
        List.Forall₂ (RebuiltAs {}) (branchInListItem.postorder.filter Node.hasMarkupChild)
            forests ∧
          IsGreatest
            {k | ∃ forest ∈ forests, ∃ chain, Traced.IsNest forest chain ∧ chain.length = k}
            longest ∧
          stats.maxDepth.toNat = min (1 + longest) (UInt32.size - 1) := by
  intro done stats
  have counts : stats =
      { visited := 10, rebuilt := 3, runs := 6, tokens := 21, elements := 6, maxDepth := 4 } := by
    decide +kernel
  obtain ⟨visited, -, -, read, elements, forests, hforests, -, depth⟩ :=
    @stats_restructure {} branchInListItem (by decide +kernel)
  have some : stats.elements ≠ 0 := by
    rw [counts]
    decide
  obtain ⟨longest, greatest, hlongest⟩ := if_neg some ▸ depth
  exact ⟨counts, by decide +kernel, visited, read, elements, forests, longest, hforests, greatest,
    hlongest⟩

/-! ### Deep nesting -/

/-- Elements nested in each other. -/
def nested : (depth : Nat) → List Node
  | 0 => []
  | depth + 1 => [.element "b" (nested depth)]

/-- The start tags of these elements, and then their end tags. -/
def towerTags (depth : Nat) : List String :=
  List.replicate depth "<b>" ++ List.replicate depth "</b>"

/-- A method with the elements as markup. -/
def tower (depth : Nat) : Node := .method "show" [.markup (towerTags depth)]

theorem towerTags_succ (depth : Nat) :
    towerTags (depth + 1) = "<b>" :: (towerTags depth ++ ["</b>"]) := by
  rw [towerTags, List.replicate_succ, List.replicate_succ', List.cons_append, ← List.append_assoc,
    towerTags]

theorem not_isAttr_of_mem_nested {depth : Nat} : ∀ c ∈ nested depth, c.isAttr = false := by
  cases depth with
  | zero => exact nofun
  | succ depth => exact List.forall_mem_singleton.2 rfl

theorem standUnder_nested (rules : TextRules) (depth : Nat) :
    standUnder rules (nested depth) = true := by
  cases depth <;> rfl

theorem allFit_nested (policy : Policy) (depth : Nat) :
    allFit policy .here (nested depth) = true := by
  induction depth with
  | zero => rfl
  | succ depth ih =>
    have inside : standInside "b" (nested depth) = true := by cases depth <;> rfl
    have name : isElementName "b" = true := by decide
    simp [nested, allFit, fits, inside, name, ih]

/-- Nested elements are written as these tags. -/
theorem spellAll_nested (depth : Nat) (f : Flat) :
    spellAll .here (nested depth) f = f.write (String.join (towerTags depth)).toList := by
  induction depth generalizing f with
  | zero => rfl
  | succ depth ih =>
    have notVoid : isVoid "b" = false := by decide
    have around : spellAll .here (nested (depth + 1)) f =
        ((spellAll .here (nested depth) (f.write "</b>".toList)).write ['>']).write ['<', 'b'] := by
      simp only [nested, spellAll, spell, notVoid,
        spellAttributes_of_not_isAttr not_isAttr_of_mem_nested]
      rfl
    rw [around, ih, towerTags_succ]
    simp [Flat.write]

/-- A tower is built into the elements. -/
theorem build_towerTags (rules : TextRules) {depth : Nat} (h : depth ≠ 0) :
    ∃ built, build rules {} [.markup (towerTags depth)] = .ok built ∧
      built.children = nested depth := by
  have filled : (String.join (towerTags depth)).toList.isEmpty = false := by
    obtain ⟨depth, rfl⟩ := Nat.exists_eq_add_one_of_ne_zero h
    rw [List.isEmpty_eq_false_iff, towerTags_succ]
    simp
  have written : flatten .here (nested depth) = [.markup [String.join (towerTags depth)]] := by
    rw [flatten, spellAll_nested, Flat.write, List.append_nil, Flat.nodes, filled,
      String.ofList_toList]
    rfl
  have whole : String.join [String.join (towerTags depth)] = String.join (towerTags depth) := by
    simp [String.join]
  obtain ⟨built, hb, hchildren⟩ :=
    build_flatten {} (standUnder_nested rules depth) (allFit_nested {} depth)
  rw [written] at hb
  refine ⟨built, ?_, hchildren⟩
  rw [← hb, build, build]
  simp only [List.foldlM_cons, Builder.addChild, whole]

theorem settles_tower (policy : Policy) {depth : Nat} (h : depth ≠ 0) :
    Settles policy (tower depth) (.method "show" (nested depth)) := by
  obtain ⟨built, hb, hchildren⟩ := build_towerTags (policy.rules (tower depth)) h
  have marked : [Node.markup (towerTags depth)].any Node.isMarkup = true := rfl
  refine (settles_iff rfl).2 ⟨_, .cons (settles_of_none rfl) .nil, ?_⟩
  rw [Regrows, if_pos marked]
  exact ⟨built, hb, by rw [hchildren]; rfl⟩

/-- A forest in which nothing is carried and that shows nested elements is as high as these. -/
theorem heightAll_of_nested {depth : Nat} {forest : List Traced}
    (hnodes : Traced.nodes forest = nested depth) (hcarried : Traced.carried forest = []) :
    Traced.heightAll forest = depth := by
  induction depth generalizing forest with
  | zero =>
    rw [Traced.nodes_eq_map, nested, List.map_eq_nil_iff] at hnodes
    rw [hnodes, Traced.heightAll]
  | succ depth ih =>
    rw [Traced.nodes_eq_map, nested, List.map_eq_singleton_iff] at hnodes
    obtain ⟨g, rfl, hnode⟩ := hnodes
    cases g with
    | element first last name children =>
      obtain ⟨-, hchildren⟩ := Node.element.inj hnode
      rw [Traced.carried_element] at hcarried
      rw [Traced.heightAll, Traced.heightAll, Nat.max_zero, Traced.height, ih hchildren hcarried]
    | leaf part =>
      cases part with
      | carried child n => cases hcarried
      | _ => cases hnode

/-- The policy under which all white space is kept. -/
def preserving : Policy := { rootWhitespace := .preserve }

/-- The forest that a pass makes of a tower is as high as the tower. -/
theorem heightAll_of_rebuiltAs_tower {depth : Nat} (h : depth ≠ 0) {forest : List Traced}
    (hforest : RebuiltAs preserving (tower depth) forest) : Traced.heightAll forest = depth := by
  obtain ⟨settled, built, hs, hb, hf, hchildren⟩ := hforest
  obtain ⟨_, hbuilt, hnested⟩ := build_towerTags (preserving.rules (tower depth)) h
  obtain ⟨c, cs, hc, hcs, rfl⟩ := List.forall₂_cons_left_iff.1 hs
  obtain rfl := List.forall₂_nil_left_iff.1 hcs
  obtain rfl := hc.unique (settles_of_none rfl)
  cases hbuilt.symm.trans hb
  have none : Traced.carried forest = [] := by
    rw [Traced.carried, hf, carried_traced]
    rfl
  exact heightAll_of_nested (hchildren.symm.trans hnested) none

/-- The pass over a tower succeeds, and the longest row of elements that it builds is the tower.
The depth is counted as far as 32 bits go. -/
theorem accounted_tower {depth : Nat} (h : depth ≠ 0) :
    let pass := restructure preserving (tower depth)
    pass.failure = none ∧ pass.progress.stats.elements ≠ 0 ∧
      (∀ forests,
        List.Forall₂ (RebuiltAs preserving) ((tower depth).postorder.filter Node.hasMarkupChild)
          forests →
        IsGreatest
          {k | ∃ forest ∈ forests, ∃ chain, Traced.IsNest forest chain ∧ chain.length = k} depth) ∧
      pass.progress.stats.maxDepth.toNat = min (1 + depth) (UInt32.size - 1) := by
  intro pass
  have settles := settles_tower preserving h
  have high (forests : List (List Traced))
      (hforests : List.Forall₂ (RebuiltAs preserving)
        ((tower depth).postorder.filter Node.hasMarkupChild) forests) :
      Traced.heightAll forests.flatten = depth := by
    obtain ⟨forest, fs, hforest, hfs, rfl⟩ := List.forall₂_cons_left_iff.1 hforests
    obtain rfl := List.forall₂_nil_left_iff.1 hfs
    rw [List.flatten_singleton, heightAll_of_rebuiltAs_tower h hforest]
  obtain ⟨forests, hforests, counted, -⟩ := settles.accounted
  have all : pass.progress.stats.exceptDropped = tally (tower depth).postorder forests :=
    (counted {}).trans (zero_add _)
  rw [tally_eq] at all
  have elements : pass.progress.stats.elements = (Traced.elementsAll forests.flatten).length :=
    congrArg Stats.elements all
  have counts : pass.progress.stats.maxDepth =
      Traced.nestDepth 0 (Traced.heightAll forests.flatten) := congrArg Stats.maxDepth all
  have some : Traced.heightAll forests.flatten ≠ 0 := high forests hforests ▸ h
  refine ⟨(settles_iff_restructure.1 settles).1, ?_, fun forests hforests => ?_, ?_⟩
  · rwa [elements, Ne, List.length_eq_zero_iff, ← Traced.heightAll_eq_zero_iff]
  · have greatest := high forests hforests
    exact greatest ▸ Traced.isGreatest_heightAll_flatten (greatest ▸ h)
  · rw [counts, Traced.toNat_nestDepth some, high forests hforests]

/-- If 32 bits are full, the depth of a tower is not one more than the longest row of elements. -/
theorem maxDepth_of_full {depth : Nat} (h : depth ≠ 0) (hfull : UInt32.size - 1 ≤ depth) :
    let pass := restructure preserving (tower depth)
    pass.progress.stats.maxDepth.toNat = UInt32.size - 1 ∧
      ¬∃ forests longest,
        List.Forall₂ (RebuiltAs preserving) ((tower depth).postorder.filter Node.hasMarkupChild)
            forests ∧
          IsGreatest
            {k | ∃ forest ∈ forests, ∃ chain, Traced.IsNest forest chain ∧ chain.length = k}
            longest ∧
          pass.progress.stats.maxDepth.toNat = 1 + longest := by
  intro pass
  obtain ⟨-, -, greatest, counted⟩ := accounted_tower h
  have full : pass.progress.stats.maxDepth.toNat = UInt32.size - 1 :=
    counted.trans (Nat.min_eq_right (hfull.trans (Nat.le_add_left _ _)))
  refine ⟨full, ?_⟩
  rintro ⟨forests, longest, hforests, hlongest, exact⟩
  obtain rfl := hlongest.unique (greatest forests hforests)
  have low : 1 + longest ≤ longest := (exact.symm.trans full).trans_le hfull
  omega

/-- A tower so deep that 32 bits cannot count it. -/
theorem maxDepth_restructure_tower :
    let pass := restructure preserving (tower (UInt32.size - 1))
    pass.failure = none ∧ pass.progress.stats.elements ≠ 0 ∧
      pass.progress.stats.maxDepth.toNat = UInt32.size - 1 ∧
      ¬∃ forests longest,
        List.Forall₂ (RebuiltAs preserving)
            ((tower (UInt32.size - 1)).postorder.filter Node.hasMarkupChild) forests ∧
          IsGreatest
            {k | ∃ forest ∈ forests, ∃ chain, Traced.IsNest forest chain ∧ chain.length = k}
            longest ∧
          pass.progress.stats.maxDepth.toNat = 1 + longest := by
  have deep : UInt32.size - 1 ≠ 0 := by decide
  have made := accounted_tower deep
  exact ⟨made.1, made.2.1, maxDepth_of_full deep le_rfl⟩

end MarkupTree
