import MarkupTree.Proofs.Pass.Settling
import MarkupTree.Proofs.Replay.Carrying
import MarkupTree.Tree.Session

/-!
# Places of a tree

The places of a tree are ordered in two ways. One place may lie to the left of another, which says
nothing of places that lie on one way down from the root. A walk that comes to a node after its
children brings all places into one row.

## Main definitions

* `LeftOf` : one place lies to the left of another.
* `Beside` : the same, where the place is the first that is off the way to the other.
* `Before` : one place comes before another in a walk, leaves first.

## Main results

* `before_iff` : what comes before a place is inside it or to the left of it.
* `before_total` : of two places, one comes before the other.
* `Node.mem_postorder_iff` : the nodes of a tree are those at its places.
-/

namespace MarkupTree

/-! ### The order of places -/

/-- A place lies to the left of another: where the ways to them part, it goes to an earlier
child. -/
inductive LeftOf : List Nat → List Nat → Prop
  | parts {i j : Nat} (h : i < j) (p q : List Nat) : LeftOf (i :: p) (j :: q)
  | deeper (i : Nat) {p q : List Nat} (h : LeftOf p q) : LeftOf (i :: p) (i :: q)

/-- A place comes before another in a walk that comes to a node after its children. -/
inductive Before : List Nat → List Nat → Prop
  | inside (i : Nat) (p : List Nat) : Before (i :: p) []
  | parts {i j : Nat} (h : i < j) (p q : List Nat) : Before (i :: p) (j :: q)
  | deeper (i : Nat) {p q : List Nat} (h : Before p q) : Before (i :: p) (i :: q)

/-- A place lies right beside the way to another, to its left. -/
inductive Beside : List Nat → List Nat → Prop
  | parts {i j : Nat} (h : i < j) (q : List Nat) : Beside [i] (j :: q)
  | deeper (i : Nat) {p q : List Nat} (h : Beside p q) : Beside (i :: p) (i :: q)

/-- What comes before a place is inside it or to the left of it. -/
theorem before_iff {p q : List Nat} : Before p q ↔ LeftOf p q ∨ q <+: p ∧ q ≠ p := by
  constructor
  · intro h
    induction h with
    | inside i p => exact .inr ⟨List.nil_prefix, nofun⟩
    | parts h p q => exact .inl (.parts h p q)
    | deeper i _ ih =>
      rcases ih with h | ⟨h, hne⟩
      · exact .inl (.deeper i h)
      · exact .inr ⟨List.cons_prefix_cons.2 ⟨rfl, h⟩, fun he => hne (List.cons.inj he).2⟩
  · rintro (h | ⟨⟨more, rfl⟩, hne⟩)
    · induction h with
      | parts h p q => exact .parts h p q
      | deeper i _ ih => exact .deeper i ih
    · induction q with
      | nil =>
        cases more with
        | nil => exact absurd rfl hne
        | cons i p => exact .inside i p
      | cons i q ih => exact .deeper i (ih fun he => hne (congrArg _ he))

/-- Of two places, one comes before the other. -/
theorem before_total : (p q : List Nat) → p = q ∨ Before p q ∨ Before q p
  | [], [] => .inl rfl
  | [], j :: q => .inr (.inr (.inside j q))
  | i :: p, [] => .inr (.inl (.inside i p))
  | i :: p, j :: q => by
    rcases Nat.lt_trichotomy i j with h | rfl | h
    · exact .inr (.inl (.parts h p q))
    · rcases before_total p q with rfl | h | h
      · exact .inl rfl
      · exact .inr (.inl (.deeper i h))
      · exact .inr (.inr (.deeper i h))
    · exact .inr (.inr (.parts h q p))

/-- What is to the left of a place is at or below one that is right beside the way to it. -/
theorem LeftOf.exists_beside {p q : List Nat} (h : LeftOf p q) :
    ∃ root more, p = root ++ more ∧ Beside root q := by
  induction h with
  | @parts i j h p q => exact ⟨[i], p, rfl, .parts h q⟩
  | deeper i _ ih =>
    obtain ⟨root, more, rfl, h⟩ := ih
    exact ⟨i :: root, more, rfl, .deeper i h⟩

/-- What is at or below a place right beside the way to another is to the left of that. -/
theorem Beside.leftOf {p q : List Nat} (h : Beside p q) (more : List Nat) :
    LeftOf (p ++ more) q := by
  induction h with
  | parts h q => exact .parts h more q
  | deeper i _ ih => exact .deeper i ih

/-! ### Nodes at places -/

namespace Node

variable {n m : Node} {children : List Node}

theorem at?_cons (h : n.children? = some children) (i : Nat) (place : List Nat) :
    n.at? (i :: place) = children[i]?.bind fun child => child.at? place := by
  simp [at?, h]

theorem at?_append (n : Node) (place more : List Nat) :
    n.at? (place ++ more) = (n.at? place).bind fun m => m.at? more := by
  induction place generalizing n with
  | nil => rfl
  | cons i place ih => simp [at?, ih, Option.bind_assoc]

/-- The nodes of a tree are those at its places. -/
theorem mem_postorder_iff : m ∈ n.postorder ↔ ∃ place, n.at? place = some m := by
  induction n using Node.induction with
  | step n ih =>
    cases hn : n.children? with
    | none =>
      rw [postorder_of_none hn, List.mem_singleton]
      constructor
      · rintro rfl
        exact ⟨[], rfl⟩
      · rintro ⟨place, hp⟩
        cases place with
        | nil => exact (Option.some.inj hp).symm
        | cons i place => simp [at?, hn] at hp
    | some children =>
      rw [postorder_of_children? hn, List.mem_append, List.mem_singleton]
      constructor
      · rintro (hm | rfl)
        · obtain ⟨c, hc, hm⟩ := List.mem_flatMap.1 hm
          obtain ⟨place, hp⟩ := (ih children hn c hc).1 hm
          obtain ⟨i, hi⟩ := List.getElem?_of_mem hc
          exact ⟨i :: place, by rw [at?_cons hn, hi, Option.bind_some, hp]⟩
        · exact ⟨[], rfl⟩
      · rintro ⟨place, hp⟩
        cases place with
        | nil => exact .inr (Option.some.inj hp).symm
        | cons i place =>
          rw [at?_cons hn, Option.bind_eq_some_iff] at hp
          obtain ⟨c, hi, hp⟩ := hp
          have hc := List.mem_of_getElem? hi
          exact .inl (List.mem_flatMap.2 ⟨c, hc, (ih children hn c hc).2 ⟨place, hp⟩⟩)

end Node

end MarkupTree
