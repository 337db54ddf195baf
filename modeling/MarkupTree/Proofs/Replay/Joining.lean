import Mathlib.Data.List.SplitBy
import MarkupTree.Proofs.Replay.Origins

/-!
# How the rules for texts show a forest

What a list of children is built into depends on the rules for texts. They may drop white space
right under the root, and they may make one text of neighbouring texts of one markup node. Both are
operations on a traced forest, which has every text as the markup has it: the one leaves out some of
the trees at the top, the other splits the trees of each element into groups, as large as can be, of
neighbouring texts of one markup node and puts one text in the place of each.

A replay adds one node after another, so what matters is how a forest is shown with one tree more.
Its nodes get one more, or the newest, a text, gets longer.

## Main definitions

* `TextRules.kept` : a forest without the white space that is dropped.
* `Traced.joinTexts`, `TextRules.joined` : a forest in which neighbouring texts are one.
* `TextRules.shown` : a forest as the rules show it.
* `Traced.AllJoined` : no two neighbours at any depth are texts of one markup node.
* `TextRules.newest` : the nodes of a forest as the rules show it, newest first.

## Main results

* `Traced.joinTexts_concat_apart`, `Traced.joinTexts_concat_joined` : joining with one tree more.
* `Traced.allJoined_joinTexts` : after joining nothing is left to join.
* `TextRules.newest_concat`, `TextRules.newest_concat_joined` : a forest with one tree more.
-/

namespace MarkupTree

namespace Traced

/-! ### Texts -/

/-- The number of the markup node that a tree is a text of. -/
def textRun? : Traced → Option Nat
  | leaf (.text run _) => some run
  | _ => none

/-- Whether a tree is a text of a markup node that consists of white space. -/
def isWhite : Traced → Bool
  | leaf (.text _ s) => Builder.isWhiteText s
  | _ => false

/-- The number of the markup node that the last tree of a forest is a text of. -/
def lastRun? (gs : List Traced) : Option Nat := gs.getLast?.bind textRun?

theorem exists_of_textRun? {g : Traced} {run : Nat} (h : g.textRun? = some run) :
    ∃ s, g = leaf (.text run s) := by
  unfold textRun? at h
  split at h
  · exact ⟨_, by rw [Option.some.inj h]⟩
  · cases h

theorem isWhite_eq_false {g : Traced} (hg : g.textRun? = none) : g.isWhite = false := by
  unfold isWhite
  split
  · cases hg
  · rfl

theorem lastRun?_concat (gs : List Traced) (g : Traced) :
    lastRun? (gs ++ [g]) = g.textRun? := by
  rw [lastRun?, List.getLast?_concat, Option.bind_some]

/-! ### Joining -/

/-- Two trees are texts of one markup node. -/
def Joinable (g h : Traced) : Prop := ∃ run ∈ g.textRun?, h.textRun? = some run

instance (g h : Traced) : Decidable (Joinable g h) := Option.decidableExistsMem _

/-- The text of a leaf that is one. -/
def words : Traced → String
  | leaf (.text _ s) => s
  | _ => ""

/-- A group of neighbours with its texts, if it consists of such, as one text. -/
def merged (group : List Traced) : List Traced :=
  match lastRun? group with
  | some run => [leaf (.text run (String.join (group.map words)))]
  | none => group

mutual

/-- A tree in which every group of neighbouring texts of one markup node is one text. -/
def joined : Traced → Traced
  | element first last name children =>
    element first last name (((joinedAll children).splitBy fun g h => Joinable g h).flatMap merged)
  | leaf part => leaf part

/-- Each tree of a forest for itself with its texts joined. -/
def joinedAll : List Traced → List Traced
  | [] => []
  | g :: gs => g.joined :: joinedAll gs

end

/-- A forest in which every group of neighbouring texts of one markup node is one text, at every
depth. -/
def joinTexts (gs : List Traced) : List Traced :=
  ((joinedAll gs).splitBy fun g h => Joinable g h).flatMap merged

theorem joinedAll_append (gs hs : List Traced) :
    joinedAll (gs ++ hs) = joinedAll gs ++ joinedAll hs := by
  induction gs with
  | nil => rfl
  | cons g gs ih => rw [List.cons_append, joinedAll, ih, joinedAll, List.cons_append]

@[simp] theorem textRun?_joined (g : Traced) : g.joined.textRun? = g.textRun? := by
  cases g <;> rfl

theorem lastRun?_joinedAll (gs : List Traced) : lastRun? (joinedAll gs) = lastRun? gs := by
  rcases gs.eq_nil_or_concat' with rfl | ⟨gs, g, rfl⟩
  · rfl
  · rw [joinedAll_append, joinedAll, joinedAll, lastRun?_concat, lastRun?_concat, textRun?_joined]

/-! ### One tree more -/

theorem lastRun?_append {hs : List Traced} (h : hs ≠ []) (gs : List Traced) :
    lastRun? (gs ++ hs) = lastRun? hs := by
  rw [lastRun?, lastRun?, List.getLast?_append_of_ne_nil _ h]

theorem lastRun?_merged (group : List Traced) : lastRun? (merged group) = lastRun? group := by
  rw [merged]
  split
  · next h =>
    rw [h]
    rfl
  · rfl

theorem merged_singleton (g : Traced) : merged [g] = [g] := by
  rw [merged]
  split
  · next run h =>
    obtain ⟨s, rfl⟩ := exists_of_textRun? (g := g) h
    simp [words]
  · rfl

/-- A joined forest ends with a text exactly if the forest does. -/
theorem lastRun?_joinTexts (gs : List Traced) : lastRun? (joinTexts gs) = lastRun? gs := by
  rw [← lastRun?_joinedAll gs, joinTexts]
  rcases ((joinedAll gs).splitBy fun g h => Joinable g h).eq_nil_or_concat' with
    h | ⟨groups, group, h⟩
  · rw [List.splitBy_eq_nil.1 h]
    rfl
  · have nonempty := List.ne_nil_of_mem_splitBy (h ▸ List.mem_concat_self)
    have flat := List.flatten_splitBy (fun g h => Joinable g h) (joinedAll gs)
    rw [h, List.flatten_append, List.flatten_singleton] at flat
    have last : merged group ≠ [] := by
      rw [merged]
      split
      · exact List.cons_ne_nil _ _
      · exact nonempty
    rw [h, List.flatMap_append, List.flatMap_singleton, lastRun?_append last, lastRun?_merged,
      ← flat, lastRun?_append nonempty]

/-- A tree that is no text of the markup node of the last one is one tree more. -/
theorem joinTexts_concat_apart {gs : List Traced} {g : Traced}
    (h : ∀ run, g.textRun? = some run → lastRun? gs ≠ some run) :
    joinTexts (gs ++ [g]) = joinTexts gs ++ [g.joined] := by
  have apart : ∀ x ∈ (joinedAll gs).getLast?, decide (Joinable x g.joined) = false := by
    intro x hx
    rw [decide_eq_false_iff_not]
    rintro ⟨run, hrun, hg⟩
    rw [textRun?_joined] at hg
    refine h run hg ?_
    rw [← lastRun?_joinedAll, lastRun?, hx]
    exact hrun
  rw [joinTexts, joinedAll_append, joinedAll, joinedAll, List.splitBy_append_cons [] apart,
    List.flatMap_append, List.splitBy_of_isChain (List.cons_ne_nil _ _) (.singleton _),
    List.flatMap_singleton, merged_singleton]
  rfl

/-- A list whose last group takes one element more. -/
theorem splitBy_concat {α : Type} {r : α → α → Bool} {xs group : List α} {groups : List (List α)}
    {x : α} (hs : xs.splitBy r = groups ++ [group]) (hx : ∀ y ∈ group.getLast?, r y x) :
    (xs ++ [x]).splitBy r = groups ++ [group ++ [x]] := by
  obtain ⟨flat, nonempty, chains, apart⟩ := List.splitBy_eq_iff.1 hs
  refine List.splitBy_eq_iff.2 ⟨by simp [flat], ?_, ?_, ?_⟩
  · simp only [List.mem_append, not_or] at nonempty ⊢
    exact ⟨nonempty.1, by simp⟩
  · intro m hm
    rcases List.mem_append.1 hm with hm | hm
    · exact chains m (List.mem_append_left _ hm)
    · obtain rfl := List.mem_singleton.1 hm
      have chain := chains group (List.mem_append_right _ (List.mem_singleton_self _))
      refine List.isChain_append.2 ⟨chain, .singleton _, ?_⟩
      rintro y hy _ ⟨⟩
      exact hx y hy
  · obtain ⟨others, -, last⟩ := List.isChain_append.1 apart
    refine List.isChain_append.2 ⟨others, .singleton _, ?_⟩
    rintro m hm _ ⟨⟩
    obtain ⟨hm', hgroup, hne⟩ := last m hm group rfl
    refine ⟨hm', by simp, ?_⟩
    rw [List.head_append_of_ne_nil hgroup]
    exact hne

/-- A text of the markup node of the last tree makes that longer. -/
theorem joinTexts_concat_joined {gs : List Traced} {run : Nat} (h : lastRun? gs = some run)
    (s : String) :
    ∃ hs t, joinTexts gs = hs ++ [leaf (.text run t)] ∧
      joinTexts (gs ++ [leaf (.text run s)]) = hs ++ [leaf (.text run (t ++ s))] := by
  rw [← lastRun?_joinedAll] at h
  rcases hsplit : ((joinedAll gs).splitBy fun g h => Joinable g h).eq_nil_or_concat' with
    hnil | ⟨groups, group, hgroups⟩
  · rw [List.splitBy_eq_nil.1 hnil] at h
    cases h
  have nonempty := List.ne_nil_of_mem_splitBy (hgroups ▸ List.mem_concat_self)
  have flat := List.flatten_splitBy (fun g h => Joinable g h) (joinedAll gs)
  rw [hgroups, List.flatten_append, List.flatten_singleton] at flat
  rw [← flat, lastRun?_append nonempty] at h
  -- The last group ends with a text of that markup node, so it takes the new one.
  have takes : ∀ g ∈ group.getLast?, decide (Joinable g (leaf (.text run s))) := by
    intro g hg
    rw [lastRun?, hg] at h
    exact decide_eq_true ⟨run, h, rfl⟩
  refine ⟨groups.flatMap merged, String.join (group.map words), ?_, ?_⟩
  · rw [joinTexts, hgroups, List.flatMap_append, List.flatMap_singleton, merged, h]
  · have more : lastRun? (group ++ [leaf (.text run s)]) = some run := lastRun?_concat _ _
    rw [joinTexts, joinedAll_append, joinedAll, joinedAll, joined, splitBy_concat hgroups takes,
      List.flatMap_append, List.flatMap_singleton, merged, more]
    simp [words, String.join_append]

/-- Joining one tree after the other: each is one tree more, or it makes the last one longer. -/
theorem joinTexts_induction {P : List Traced → List Traced → Prop} (nil : P [] [])
    (apart : ∀ gs g, (∀ run, g.textRun? = some run → lastRun? gs ≠ some run) →
      P gs (joinTexts gs) → P (gs ++ [g]) (joinTexts gs ++ [g.joined]))
    (joined : ∀ gs run s hs t, lastRun? gs = some run → joinTexts gs = hs ++ [leaf (.text run t)] →
      P gs (hs ++ [leaf (.text run t)]) →
      P (gs ++ [leaf (.text run s)]) (hs ++ [leaf (.text run (t ++ s))]))
    (gs : List Traced) : P gs (joinTexts gs) := by
  induction gs using List.reverseRecOn with
  | nil => exact nil
  | append_singleton gs g ih =>
    by_cases hj : ∃ run, g.textRun? = some run ∧ lastRun? gs = some run
    · obtain ⟨run, hg, hlast⟩ := hj
      obtain ⟨s, rfl⟩ := exists_of_textRun? hg
      obtain ⟨hs, t, heq, hmore⟩ := joinTexts_concat_joined hlast s
      rw [heq] at ih
      rw [hmore]
      exact joined gs run s hs t hlast heq ih
    · have hapart (run : Nat) (hg : g.textRun? = some run) : lastRun? gs ≠ some run :=
        fun hlast => hj ⟨run, hg, hlast⟩
      rw [joinTexts_concat_apart hapart]
      exact apart gs g hapart ih

/-! ### Nothing is left to join -/

mutual

/-- No two neighbours inside a tree, at any depth, are texts of one markup node. -/
def IsJoined : Traced → Prop
  | element _ _ _ children => AllJoined children
  | leaf _ => True

/-- No two neighbours in a forest, at any depth, are texts of one markup node. -/
def AllJoined : List Traced → Prop
  | [] => True
  | g :: gs => g.IsJoined ∧ (∀ h ∈ gs.head?, ¬Joinable g h) ∧ AllJoined gs

end

theorem allJoined_iff (gs : List Traced) :
    AllJoined gs ↔ (∀ g ∈ gs, g.IsJoined) ∧ gs.IsChain fun g h => ¬Joinable g h := by
  induction gs with
  | nil => exact ⟨fun _ => ⟨nofun, .nil⟩, fun _ => trivial⟩
  | cons g gs ih =>
    rw [AllJoined, ih, List.forall_mem_cons, List.isChain_cons]
    constructor
    · rintro ⟨hg, hh, hgs, hc⟩
      exact ⟨⟨hg, hgs⟩, hh, hc⟩
    · rintro ⟨⟨hg, hgs⟩, hh, hc⟩
      exact ⟨hg, hh, hgs, hc⟩

theorem allJoined_concat {gs : List Traced} {g : Traced} :
    AllJoined (gs ++ [g]) ↔
      AllJoined gs ∧ g.IsJoined ∧ ∀ run, g.textRun? = some run → lastRun? gs ≠ some run := by
  have last : (∀ h ∈ gs.getLast?, ¬Joinable h g) ↔
      ∀ run, g.textRun? = some run → lastRun? gs ≠ some run := by
    rw [lastRun?]
    cases gs.getLast? with
    | none => simp
    | some h =>
      constructor
      · exact fun apart run hg hh => apart h rfl ⟨run, hh, hg⟩
      · rintro apart _ ⟨⟩ ⟨run, hh, hg⟩
        exact apart run hg hh
  rw [allJoined_iff, allJoined_iff, List.isChain_append, List.forall_mem_append,
    List.forall_mem_singleton, ← last]
  constructor
  · rintro ⟨⟨hgs, hg⟩, chain, -, hlast⟩
    exact ⟨⟨hgs, chain⟩, hg, fun h hh => hlast h hh g rfl⟩
  · rintro ⟨⟨hgs, chain⟩, hg, hlast⟩
    refine ⟨⟨hgs, hg⟩, chain, .singleton g, ?_⟩
    rintro h hh _ ⟨⟩
    exact hlast h hh

/-- If the trees of a forest are joined each for itself, nothing is left to join after joining. -/
theorem allJoined_of_forall {gs : List Traced} (h : ∀ g ∈ gs, g.joined.IsJoined) :
    AllJoined (joinTexts gs) := by
  induction gs using joinTexts_induction with
  | nil => exact trivial
  | apart gs g hapart ih =>
    rw [List.forall_mem_append, List.forall_mem_singleton] at h
    rw [allJoined_concat, textRun?_joined, lastRun?_joinTexts]
    exact ⟨ih h.1, h.2, hapart⟩
  | joined gs run s hs t _ _ ih =>
    have before := allJoined_concat.1 (ih fun g hg => h g (List.mem_append_left _ hg))
    exact allJoined_concat.2 ⟨before.1, trivial, before.2.2⟩

theorem isJoined_joined (g : Traced) : g.joined.IsJoined := by
  induction g using Traced.induction with
  | leaf part => exact trivial
  | element first last name children ih => exact allJoined_of_forall ih

/-- After joining nothing is left to join. -/
theorem allJoined_joinTexts (gs : List Traced) : AllJoined (joinTexts gs) :=
  allJoined_of_forall fun g _ => isJoined_joined g

/-- Texts of other markup nodes, and texts that are carried, stay apart. -/
example :
    nodes (joinTexts
      [leaf (.text 0 "a"), leaf (.text 0 "b"), leaf (.text 1 "c"), leaf (.carried 2 (.text "d")),
        leaf (.text 3 "e"), leaf (.text 3 "f")]) =
      [.text "ab", .text "c", .text "d", .text "ef"] := by
  decide +kernel

end Traced

/-! ### Forests as the rules show them -/

namespace TextRules

open Traced

variable {rules : TextRules}

/-- A forest right under the root, without the white space that is dropped there. -/
def kept (rules : TextRules) (gs : List Traced) : List Traced :=
  if rules.elides then gs.filter fun g => !g.isWhite else gs

/-- A forest in which neighbouring texts are one, if the rules say so. -/
def joined (rules : TextRules) (gs : List Traced) : List Traced :=
  if rules.coalesces then joinTexts gs else gs

/-- A forest right under the root as the rules show it. -/
def shown (rules : TextRules) (gs : List Traced) : List Traced := rules.joined (rules.kept gs)

/-- How many trees of a forest right under the root are dropped. -/
def droppedCount (rules : TextRules) (gs : List Traced) : Nat :=
  if rules.elides then gs.countP isWhite else 0

/-- The nodes of a forest as the rules show it, newest first. -/
def newest (rules : TextRules) (gs : List Traced) : List Node := (nodes (rules.joined gs)).reverse

/-- The node of a tree as the rules show it. -/
def nodeOf (rules : TextRules) : Traced → Node
  | .element _ _ name children => .element name (rules.newest children).reverse
  | .leaf part => part.node

@[simp] theorem kept_nil (rules : TextRules) : rules.kept [] = [] := by
  rw [kept]
  split <;> rfl

@[simp] theorem droppedCount_nil (rules : TextRules) : rules.droppedCount [] = 0 := by
  rw [droppedCount]
  split <;> rfl

@[simp] theorem newest_nil (rules : TextRules) : rules.newest [] = [] := by
  rw [newest, joined]
  split <;> rfl

theorem kept_concat_of_not_white {g : Traced} (hg : (rules.elides && g.isWhite) = false)
    (gs : List Traced) : rules.kept (gs ++ [g]) = rules.kept gs ++ [g] := by
  rw [kept, kept]
  split
  · next he =>
    rw [he, Bool.true_and] at hg
    rw [List.filter_append, List.filter_singleton, hg]
    rfl
  · rfl

theorem kept_concat_of_white {g : Traced} (he : rules.elides = true) (hg : g.isWhite = true)
    (gs : List Traced) : rules.kept (gs ++ [g]) = rules.kept gs := by
  rw [kept, kept, if_pos he, if_pos he, List.filter_append, List.filter_singleton, hg]
  exact List.append_nil _

theorem droppedCount_concat_of_not_white {g : Traced} (hg : (rules.elides && g.isWhite) = false)
    (gs : List Traced) : rules.droppedCount (gs ++ [g]) = rules.droppedCount gs := by
  rw [droppedCount, droppedCount]
  split
  · next he =>
    rw [he, Bool.true_and] at hg
    rw [List.countP_append, List.countP_singleton, hg]
    rfl
  · rfl

theorem droppedCount_concat_of_white {g : Traced} (he : rules.elides = true)
    (hg : g.isWhite = true) (gs : List Traced) :
    rules.droppedCount (gs ++ [g]) = rules.droppedCount gs + 1 := by
  rw [droppedCount, droppedCount, if_pos he, if_pos he, List.countP_append, List.countP_singleton,
    hg]
  rfl

/-! ### The nodes of a forest with one tree more -/

theorem newest_of_joins (h : rules.coalesces = true) (gs : List Traced) :
    rules.newest gs = ((joinTexts gs).map node).reverse := by
  rw [newest, joined, if_pos h, nodes_eq_map]

theorem newest_of_apart (h : rules.coalesces = false) (gs : List Traced) :
    rules.newest gs = (gs.map node).reverse := by
  rw [newest, joined, h, if_neg Bool.false_ne_true, nodes_eq_map]

theorem nodeOf_of_joins (h : rules.coalesces = true) (g : Traced) :
    rules.nodeOf g = g.joined.node := by
  cases g with
  | leaf part => rfl
  | element first last name children =>
    rw [nodeOf, newest_of_joins h, List.reverse_reverse, ← nodes_eq_map]
    rfl

theorem nodeOf_of_apart (h : rules.coalesces = false) (g : Traced) : rules.nodeOf g = g.node := by
  cases g with
  | leaf part => rfl
  | element first last name children =>
    rw [nodeOf, newest_of_apart h, List.reverse_reverse, ← nodes_eq_map, node]

/-- A tree that does not join the newest one is one node more. -/
theorem newest_concat {g : Traced} {gs : List Traced}
    (h : rules.coalesces = true → ∀ run, g.textRun? = some run → lastRun? gs ≠ some run) :
    rules.newest (gs ++ [g]) = rules.nodeOf g :: rules.newest gs := by
  cases hc : rules.coalesces with
  | true =>
    rw [newest_of_joins hc, newest_of_joins hc, nodeOf_of_joins hc, joinTexts_concat_apart (h hc),
      List.map_append, List.reverse_append]
    rfl
  | false =>
    rw [newest_of_apart hc, newest_of_apart hc, nodeOf_of_apart hc, List.map_append,
      List.reverse_append]
    rfl

/-- A text that joins the newest node, a text of the same markup node, makes that longer. -/
theorem newest_concat_joined {run : Nat} {gs : List Traced} (hc : rules.coalesces = true)
    (h : lastRun? gs = some run) (s : String) :
    rules.newest (gs ++ [.leaf (.text run s)]) = Builder.extendText s (rules.newest gs) := by
  obtain ⟨hs, t, heq, hmore⟩ := joinTexts_concat_joined h s
  rw [newest_of_joins hc, newest_of_joins hc, heq, hmore, List.map_append, List.map_append,
    List.reverse_append, List.reverse_append]
  rfl

end TextRules

end MarkupTree
