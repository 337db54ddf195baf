import MarkupTree.Proofs.Files.Walking

/-!
# Stores that refuse

A file tree refuses an operation only for what is in the tree. A system has other reasons, which no
tree tells of: a file may be protected, or there may be no room for another. So a store that shows a
file tree may refuse any operation. What it does, it does as the tree; what it refuses changes no
file, though directories that were made before the refusal stay (`Store.Shows`).

## Main definitions

* `Store.Does` : an action that makes a change of trees, or is refused.
* `Store.Shows` : a store whose states show file trees.
* `Guarded` : a sandbox that refuses what it is told to refuse.

## Main results

* `Sandbox.shows_tree` : a sandbox shows its tree.
* `Guarded.shows_tree` : so does a guarded one, whatever it refuses.
-/

namespace MarkupTree

open FileTree (OnlyAddsDirectories)

namespace Store

variable {σ : Type}

/-- An action on states that show trees makes a change of trees, or it is refused and changes
nothing. It may be refused where the tree would allow the change. -/
structure Does (view : σ → FileTree) (action : StateM σ (Except Cause Unit))
    (change : FileTree → Except Cause FileTree) : Prop where
  done : ∀ {s}, (action s).1 = .ok () → change (view s) = .ok (view (action s).2)
  refused : ∀ {s cause}, (action s).1 = .error cause → view (action s).2 = view s

/-- The states of a store show file trees: what the store does, it does as the tree, and whatever
it refuses, for any reason, it changes no file. -/
structure Shows [Store (StateM σ)] (view : σ → FileTree) : Prop where
  read : ∀ path s, view ((Store.read path : StateM σ _) s).2 = view s
  contents : ∀ {path contents s}, ((Store.read path : StateM σ _) s).1 = .ok contents →
    (view s).read path = .ok contents
  write : ∀ path contents, Does view (Store.write path contents) fun tree =>
    tree.write path contents
  copy : ∀ source target, Does view (Store.copy source target) fun tree => tree.copy source target
  /-- Some of the directories may have been made before the next is refused. -/
  makeDirectories : ∀ path s,
    OnlyAddsDirectories (view s) (view ((Store.makeDirectories path : StateM σ _) s).2)
  tell : ∀ entry s, view ((Store.tell entry : StateM σ _) s).2 = view s

end Store

/-! ### Sandboxes -/

namespace Sandbox

theorem does_accept (change : FileTree → Except Cause FileTree) :
    Store.Does tree (accept change) change where
  done {box} h := by
    unfold accept at h ⊢
    cases hchange : change box.tree with
    | error cause => simp [hchange] at h
    | ok tree => rfl
  refused {box cause} h := by
    unfold accept at h ⊢
    cases hchange : change box.tree with
    | error cause => rfl
    | ok tree => simp [hchange] at h

/-- A sandbox shows its tree. -/
theorem shows_tree : Store.Shows tree where
  read _ _ := rfl
  contents h := h
  write _ _ := does_accept _
  copy _ _ := does_accept _
  makeDirectories path box := FileTree.onlyAddsDirectories_makeDirectories box.tree path
  tell _ _ := rfl

end Sandbox

/-! ### Guarded sandboxes -/

/-- A sandbox that refuses some of the operations to come. -/
structure Guarded where
  box : Sandbox
  /-- For each of the next operations why it is refused, if it is. Later ones are not refused. -/
  refusals : List (Option Cause) := []

namespace Guarded

variable {α : Type}

/-- The tree of the sandbox. -/
def tree (g : Guarded) : FileTree := g.box.tree

/-- Does something in the sandbox, unless that is to be refused. -/
def unlessRefused (action : StateM Sandbox (Except Cause α)) : StateM Guarded (Except Cause α) :=
  fun g =>
    match g.refusals with
    | some cause :: later => (.error cause, { g with refusals := later })
    | none :: later => ((action g.box).1, ⟨(action g.box).2, later⟩)
    | [] => ((action g.box).1, ⟨(action g.box).2, []⟩)

instance : Store (StateM Guarded) where
  read path := unlessRefused (Store.read path)
  write path contents := unlessRefused (Store.write path contents)
  makeDirectories path := unlessRefused (Store.makeDirectories path)
  copy source target := unlessRefused (Store.copy source target)
  tell entry g := ((), { g with box := ((Store.tell entry : StateM Sandbox Unit) g.box).2 })

/-- What is guarded is done in the sandbox, or it is refused and changes nothing. -/
theorem unlessRefused_cases (action : StateM Sandbox (Except Cause α)) (g : Guarded) :
    (∃ cause, (unlessRefused action g).1 = .error cause) ∧
        (unlessRefused action g).2.tree = g.tree ∨
      (unlessRefused action g).1 = (action g.box).1 ∧
        (unlessRefused action g).2.tree = (action g.box).2.tree := by
  unfold unlessRefused
  split
  · exact .inl ⟨⟨_, rfl⟩, rfl⟩
  · exact .inr ⟨rfl, rfl⟩
  · exact .inr ⟨rfl, rfl⟩

theorem does_unlessRefused {action : StateM Sandbox (Except Cause Unit)}
    {change : FileTree → Except Cause FileTree} (h : Store.Does Sandbox.tree action change) :
    Store.Does tree (unlessRefused action) change where
  done {g} hok := by
    rcases unlessRefused_cases action g with ⟨⟨cause, herror⟩, -⟩ | ⟨hresult, htree⟩
    · cases herror.symm.trans hok
    · rw [htree]
      exact h.done (hresult ▸ hok)
  refused {g cause} herror := by
    rcases unlessRefused_cases action g with ⟨-, htree⟩ | ⟨hresult, htree⟩
    · exact htree
    · rw [htree]
      exact h.refused (hresult ▸ herror)

/-- A guarded sandbox shows its tree, whatever it refuses. -/
theorem shows_tree : Store.Shows tree where
  read path g := by
    rcases unlessRefused_cases (Store.read path) g with ⟨-, htree⟩ | ⟨-, htree⟩ <;> exact htree
  contents {path _ g} h := by
    rcases unlessRefused_cases (Store.read path) g with ⟨⟨cause, herror⟩, -⟩ | ⟨hresult, -⟩
    · cases herror.symm.trans h
    · exact hresult.symm.trans h
  write path contents := does_unlessRefused (Sandbox.shows_tree.write path contents)
  copy source target := does_unlessRefused (Sandbox.shows_tree.copy source target)
  makeDirectories path g := by
    rcases unlessRefused_cases (Store.makeDirectories path) g with ⟨-, htree⟩ | ⟨-, htree⟩
    · exact htree ▸ .refl g.tree
    · exact htree ▸ Sandbox.shows_tree.makeDirectories path g.box
  tell _ _ := rfl

end Guarded

end MarkupTree
