import MarkupTree.Tree.Builder
import Mathlib.Data.List.Forall2

/-!
# Computations side by side

Two computations that can fail are *parallel* when they end alike: they fail together, with
failures that correspond, or they succeed together, with values that correspond. A replay keeps
this up from child to child, so it is enough to compare two replays on one token and on one child.

## Main definitions

* `Parallel` : two computations that end alike.

## Main results

* `Parallel.bind`, `Parallel.foldlM` : parallel steps make parallel computations.
* `Parallel.of_right` : two computations that each end like a third end alike.
* `Parallel.exists_of_ok_left`, `Parallel.exists_of_ok_right` : if one succeeds, so does the other.
* `bind_eq_ok_iff` : a sequence succeeds exactly if both of its parts do.
-/

namespace MarkupTree

variable {ε δ α β γ ζ ξ υ : Type}

/-- A sequence succeeds exactly if both of its parts do. -/
theorem bind_eq_ok_iff {x : Except ε α} {f : α → Except ε β} {b : β} :
    x >>= f = .ok b ↔ ∃ a, x = .ok a ∧ f a = .ok b := by
  constructor
  · intro h
    cases x with
    | error e => cases h
    | ok a => exact ⟨a, rfl, h⟩
  · rintro ⟨a, rfl, h⟩
    exact h

/-- A computation of which a part of the value is known has succeeded. -/
theorem exists_of_toOption_map {x : Except ε α} {f : α → β} {b : β}
    (h : x.toOption.map f = some b) : ∃ a, x = .ok a ∧ f a = b := by
  cases x with
  | error e => cases h
  | ok a => exact ⟨a, rfl, Option.some.inj h⟩

/-- Two computations end alike: both fail, with failures that correspond, or both succeed, with
values that correspond. -/
inductive Parallel (E : ε → δ → Prop) (V : α → β → Prop) : Except ε α → Except δ β → Prop
  | error {e : ε} {d : δ} (h : E e d) : Parallel E V (.error e) (.error d)
  | ok {a : α} {b : β} (h : V a b) : Parallel E V (.ok a) (.ok b)

namespace Parallel

variable {E : ε → δ → Prop} {V : α → β → Prop} {x : Except ε α} {y : Except δ β}

/-- If the first computation succeeds, so does the second. -/
theorem exists_of_ok_left (h : Parallel E V x y) {a : α} (hx : x = .ok a) :
    ∃ b, y = .ok b ∧ V a b := by
  cases h with
  | error _ => cases hx
  | ok hv =>
    cases hx
    exact ⟨_, rfl, hv⟩

/-- If the second computation succeeds, so does the first. -/
theorem exists_of_ok_right (h : Parallel E V x y) {b : β} (hy : y = .ok b) :
    ∃ a, x = .ok a ∧ V a b := by
  cases h with
  | error _ => cases hy
  | ok hv =>
    cases hy
    exact ⟨_, rfl, hv⟩

/-- If the first computation fails, so does the second. -/
theorem exists_of_error_left (h : Parallel E V x y) {e : ε} (hx : x = .error e) :
    ∃ d, y = .error d ∧ E e d := by
  cases h with
  | ok _ => cases hx
  | error he =>
    cases hx
    exact ⟨_, rfl, he⟩

/-- Computations that end alike do so for every weaker notion of correspondence. -/
theorem imp {F : ε → δ → Prop} {W : α → β → Prop} (h : Parallel E V x y)
    (hE : ∀ e d, E e d → F e d) (hV : ∀ a b, V a b → W a b) : Parallel F W x y := by
  cases h with
  | error he => exact .error (hE _ _ he)
  | ok hv => exact .ok (hV _ _ hv)

/-- Of the values that correspond it is also known that the computations return them. -/
theorem with_eq (h : Parallel E V x y) :
    Parallel E (fun a b => V a b ∧ x = .ok a ∧ y = .ok b) x y := by
  cases h with
  | error he => exact .error he
  | ok hv => exact .ok ⟨hv, rfl, rfl⟩

/-- Two computations that each end like a third end alike. -/
theorem of_right {F : ζ → δ → Prop} {W : γ → β → Prop} {z : Except ζ γ} (h : Parallel E V x y)
    (k : Parallel F W z y) :
    Parallel (fun e f => ∃ d, E e d ∧ F f d) (fun a c => ∃ b, V a b ∧ W c b) x z := by
  cases h with
  | error he =>
    cases k with
    | error hf => exact .error ⟨_, he, hf⟩
  | ok hv =>
    cases k with
    | ok hw => exact .ok ⟨_, hv, hw⟩

/-- Computations have the same outcome after a last step on each side, if they end alike and the
last steps agree. -/
theorem map_eq_map_iff {f : α → γ} {g : β → γ} {y : Except ε β} :
    f <$> x = g <$> y ↔ Parallel Eq (fun a b => f a = g b) x y := by
  constructor
  · intro h
    cases x with
    | error e =>
      cases y with
      | error d => exact .error (Except.error.inj h)
      | ok b => cases h
    | ok a =>
      cases y with
      | error d => cases h
      | ok b => exact .ok (Except.ok.inj h)
  · intro h
    cases h with
    | error h => exact congrArg Except.error h
    | ok h => exact congrArg Except.ok h

/-- A computation that ends like another, with failures that are made from those of the other. -/
theorem eq_mapError {f : δ → ε} {x : Except ε β} (h : Parallel (fun e d => e = f d) Eq x y) :
    x = y.mapError f := by
  cases h with
  | error h => exact congrArg Except.error h
  | ok h => exact congrArg Except.ok h

/-- Parallel computations followed by parallel ones are parallel. -/
theorem bind {W : γ → ζ → Prop} {f : α → Except ε γ} {g : β → Except δ ζ}
    (h : Parallel E V x y) (hfg : ∀ a b, V a b → Parallel E W (f a) (g b)) :
    Parallel E W (x >>= f) (y >>= g) := by
  cases h with
  | error he => exact .error he
  | ok hv => exact hfg _ _ hv

/-- A last step that cannot fail, taken on one side only. -/
theorem map_left {W : γ → β → Prop} {f : α → γ} (h : Parallel E V x y)
    (hf : ∀ a b, V a b → W (f a) b) : Parallel E W (x >>= fun a => pure (f a)) y := by
  cases h with
  | error he => exact .error he
  | ok hv => exact .ok (hf _ _ hv)

/-- Parallel steps over corresponding lists make parallel computations. -/
theorem foldlM {X : ξ → υ → Prop} {f : α → ξ → Except ε α} {g : β → υ → Except δ β}
    (step : ∀ a b p q, V a b → X p q → Parallel E V (f a p) (g b q)) {ps : List ξ} {qs : List υ}
    (hpq : List.Forall₂ X ps qs) {a : α} {b : β} (h : V a b) :
    Parallel E V (ps.foldlM f a) (qs.foldlM g b) := by
  induction hpq generalizing a b with
  | nil => exact .ok h
  | cons hx _ ih =>
    rw [List.foldlM_cons, List.foldlM_cons]
    exact (step _ _ _ _ h hx).bind fun _ _ hv => ih hv

/-- Parallel steps over one list make parallel computations. -/
theorem foldlM_same {f : α → ξ → Except ε α} {g : β → ξ → Except δ β}
    (step : ∀ a b p, V a b → Parallel E V (f a p) (g b p)) (ps : List ξ) {a : α} {b : β}
    (h : V a b) : Parallel E V (ps.foldlM f a) (ps.foldlM g b) := by
  refine foldlM (X := Eq) ?_ (List.forall₂_refl ps) h
  rintro a b p _ hv rfl
  exact step a b p hv

end Parallel

end MarkupTree
