import MarkupTree.Proofs.Replay.Origins
import Mathlib.Order.Bounds.Basic

/-!
# Nested elements

The elements of a traced forest stand in each other, and the *height* of the forest says how deep:
it is the length of the longest row of elements each of which is directly inside the one before it.
Carried nodes are leaves, so the elements inside them do not make a forest higher.

## Main definitions

* `Traced.height`, `Traced.heightAll` : the height of a tree and of a forest.
* `Traced.IsNest` : a row of elements each directly inside the one before it.

## Main results

* `Traced.isGreatest_heightAll` : the height is the length of the longest such row.
* `Traced.isGreatest_heightAll_flatten` : the same for several forests.
-/

namespace MarkupTree

namespace Traced

/-! ### Heights -/

mutual

/-- How many elements are nested in a tree, at most. -/
def height : Traced → Nat
  | element _ _ _ children => heightAll children + 1
  | leaf _ => 0

/-- How many elements are nested in a forest, at most. -/
def heightAll : List Traced → Nat
  | [] => 0
  | g :: gs => max g.height (heightAll gs)

end

theorem heightAll_append (gs hs : List Traced) :
    heightAll (gs ++ hs) = max (heightAll gs) (heightAll hs) := by
  induction gs with
  | nil => exact (Nat.zero_max _).symm
  | cons g gs ih => rw [List.cons_append, heightAll, ih, heightAll, Nat.max_assoc]

/-! ### Rows of elements -/

/-- What stands directly inside a tree. -/
def inside : Traced → List Traced
  | element _ _ _ children => children
  | leaf _ => []

/-- A row of elements of a forest, each directly inside the one before it. -/
structure IsNest (gs chain : List Traced) : Prop where
  elements : ∀ e ∈ chain, e ∈ elementsAll gs
  nested : chain.IsChain fun outer inner => inner ∈ outer.inside

theorem height_le_heightAll {g : Traced} {gs : List Traced} (h : g ∈ gs) :
    g.height ≤ heightAll gs := by
  induction gs with
  | nil => cases h
  | cons first others ih =>
    rw [heightAll]
    rcases List.mem_cons.1 h with rfl | h
    · exact Nat.le_max_left _ _
    · exact (ih h).trans (Nat.le_max_right _ _)

/-- What is directly inside a tree is not as high. -/
theorem height_lt_of_mem_inside {e g : Traced} (h : g ∈ e.inside) : g.height < e.height := by
  cases e with
  | element first last name children => exact Nat.lt_succ_of_le (height_le_heightAll h)
  | leaf part => cases h

/-- An element of a tree has some height, and it is no higher than the tree. -/
theorem height_of_mem_elements (g : Traced) :
    ∀ e ∈ g.elements, 0 < e.height ∧ e.height ≤ g.height := by
  induction g using Traced.induction with
  | leaf part => exact nofun
  | element first last name children ih =>
    intro e he
    rcases List.mem_cons.1 he with rfl | he
    · exact ⟨Nat.succ_pos _, le_rfl⟩
    · obtain ⟨g, hg, he⟩ := mem_elementsAll_iff.1 he
      obtain ⟨positive, low⟩ := ih g hg e he
      have inside : g.height < (element first last name children).height :=
        height_lt_of_mem_inside hg
      exact ⟨positive, low.trans inside.le⟩

theorem height_of_mem_elementsAll {gs : List Traced} {e : Traced} (h : e ∈ elementsAll gs) :
    0 < e.height ∧ e.height ≤ heightAll gs := by
  obtain ⟨g, hg, he⟩ := mem_elementsAll_iff.1 h
  obtain ⟨positive, low⟩ := height_of_mem_elements g e he
  exact ⟨positive, low.trans (height_le_heightAll hg)⟩

/-- A row of elements, each inside the one before it, is no longer than the first is high. -/
theorem length_le_height {e : Traced} {es : List Traced} (hp : ∀ f ∈ e :: es, 0 < f.height)
    (h : (e :: es).IsChain fun outer inner => inner ∈ outer.inside) :
    (e :: es).length ≤ e.height := by
  induction es generalizing e with
  | nil => exact hp e List.mem_cons_self
  | cons f fs ih =>
    obtain ⟨hf, hfs⟩ := List.isChain_cons_cons.1 h
    have later := ih (List.forall_mem_cons.1 hp).2 hfs
    exact Nat.lt_of_le_of_lt later (height_lt_of_mem_inside hf)

theorem IsNest.length_le {gs chain : List Traced} (h : IsNest gs chain) :
    chain.length ≤ heightAll gs := by
  cases chain with
  | nil => exact Nat.zero_le _
  | cons e es =>
    have positive : ∀ f ∈ e :: es, 0 < f.height :=
      fun f hf => (height_of_mem_elementsAll (h.elements f hf)).1
    calc (e :: es).length ≤ e.height := length_le_height positive h.nested
      _ ≤ heightAll gs := (height_of_mem_elementsAll (h.elements e List.mem_cons_self)).2

/-- One of the trees of a forest is as high as the forest, if that has any height. -/
theorem exists_height_eq {gs : List Traced} (h : 0 < heightAll gs) :
    ∃ g ∈ gs, g.height = heightAll gs := by
  induction gs with
  | nil => cases h
  | cons g gs ih =>
    rw [heightAll] at h ⊢
    rcases Nat.le_total (heightAll gs) g.height with hle | hle
    · exact ⟨g, List.mem_cons_self, (Nat.max_eq_left hle).symm⟩
    · rw [Nat.max_eq_right hle] at h ⊢
      obtain ⟨k, hk, heq⟩ := ih h
      exact ⟨k, List.mem_cons_of_mem _ hk, heq⟩

/-- A tree with some height is an element and starts a row that is as long as it is high. -/
theorem exists_nest (g : Traced) (h : 0 < g.height) :
    ∃ es, IsNest [g] (g :: es) ∧ (g :: es).length = g.height := by
  induction g using Traced.induction with
  | leaf part => cases h
  | element first last name children ih =>
    have self : element first last name children ∈
        elementsAll [element first last name children] := List.mem_cons_self
    rcases Nat.eq_zero_or_pos (heightAll children) with hzero | hpos
    · refine ⟨[], ⟨List.forall_mem_cons.2 ⟨self, nofun⟩, .singleton _⟩, ?_⟩
      rw [height, hzero]
      rfl
    · obtain ⟨g, hg, heq⟩ := exists_height_eq hpos
      obtain ⟨es, nest, hlength⟩ := ih g hg (heq ▸ hpos)
      refine ⟨g :: es, ⟨List.forall_mem_cons.2 ⟨self, fun e he => ?_⟩, ?_⟩, ?_⟩
      · have element := nest.elements e he
        rw [elementsAll, elementsAll, List.append_nil] at element ⊢
        exact List.mem_cons_of_mem _ (mem_elementsAll_iff.2 ⟨g, hg, element⟩)
      · exact List.isChain_cons_cons.2 ⟨hg, nest.nested⟩
      · rw [List.length_cons, hlength, heq, height]

/-- The height of a forest is the length of the longest row of elements that are nested directly in
each other. -/
theorem isGreatest_heightAll (gs : List Traced) :
    IsGreatest {k | ∃ chain, IsNest gs chain ∧ chain.length = k} (heightAll gs) := by
  constructor
  · rcases Nat.eq_zero_or_pos (heightAll gs) with hzero | hpos
    · exact ⟨[], ⟨nofun, .nil⟩, hzero.symm⟩
    · obtain ⟨g, hg, heq⟩ := exists_height_eq hpos
      obtain ⟨es, nest, hlength⟩ := exists_nest g (heq ▸ hpos)
      refine ⟨g :: es, ⟨fun e he => ?_, nest.nested⟩, hlength.trans heq⟩
      have element := nest.elements e he
      rw [elementsAll, elementsAll, List.append_nil] at element
      exact mem_elementsAll_iff.2 ⟨g, hg, element⟩
  · rintro _ ⟨chain, nest, rfl⟩
    exact nest.length_le

/-- A part of a forest is not higher than the forest. -/
theorem heightAll_mono {gs hs : List Traced} (h : gs ⊆ hs) : heightAll gs ≤ heightAll hs := by
  rcases Nat.eq_zero_or_pos (heightAll gs) with hzero | hpos
  · exact hzero ▸ Nat.zero_le _
  · obtain ⟨g, hg, heq⟩ := exists_height_eq hpos
    exact heq ▸ height_le_heightAll (h hg)

/-- A forest has no height exactly if it has no elements. -/
theorem heightAll_eq_zero_iff {gs : List Traced} : heightAll gs = 0 ↔ elementsAll gs = [] := by
  constructor
  · intro h
    refine List.eq_nil_iff_forall_not_mem.2 fun e he => ?_
    have height := height_of_mem_elementsAll he
    omega
  · intro h
    obtain ⟨chain, nest, hlength⟩ := (isGreatest_heightAll gs).1
    rw [← hlength, List.length_eq_zero_iff, List.eq_nil_iff_forall_not_mem]
    intro e he
    have element := nest.elements e he
    rw [h] at element
    cases element

/-- The longest row of elements in any of several forests. -/
theorem isGreatest_heightAll_flatten {forests : List (List Traced)}
    (h : heightAll forests.flatten ≠ 0) :
    IsGreatest {k | ∃ forest ∈ forests, ∃ chain, IsNest forest chain ∧ chain.length = k}
      (heightAll forests.flatten) := by
  have part {forest : List Traced} (hf : forest ∈ forests) :
      heightAll forest ≤ heightAll forests.flatten :=
    heightAll_mono fun _ hg => List.mem_flatten.2 ⟨forest, hf, hg⟩
  constructor
  · obtain ⟨g, hg, heq⟩ := exists_height_eq (Nat.pos_of_ne_zero h)
    obtain ⟨forest, hf, hg⟩ := List.mem_flatten.1 hg
    have same : heightAll forest = heightAll forests.flatten :=
      (part hf).antisymm (heq ▸ height_le_heightAll hg)
    obtain ⟨chain, nest, hlength⟩ := (isGreatest_heightAll forest).1
    exact ⟨forest, hf, chain, nest, hlength.trans same⟩
  · rintro _ ⟨forest, hf, chain, nest, rfl⟩
    exact nest.length_le.trans (part hf)

end Traced

end MarkupTree
