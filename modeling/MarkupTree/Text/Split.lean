/-!
# Splitting a text at a character

## Main definitions

* `Text.splitAll` : the stretches between all occurrences of a character.
* `Text.splitFirst?`, `Text.splitLast?` : the two parts around its first and its last occurrence.

## Main results

* `Text.intercalate_splitAll` : the stretches, joined by the character, make up the text.
* `Text.splitFirst?_eq_some_iff`, `Text.splitLast?_eq_some_iff` : what the two parts are.
-/

namespace MarkupTree.Text

/-- The stretches of a text between the occurrences of a character: one more than there are
occurrences. -/
def splitAll (mark : Char) : List Char → List (List Char)
  | [] => [[]]
  | c :: cs =>
    if c = mark then [] :: splitAll mark cs
    else
      match splitAll mark cs with
      | [] => [[c]]
      | piece :: pieces => (c :: piece) :: pieces

/-- What stands before and after the first occurrence of a character. -/
def splitFirst? (mark : Char) (s : List Char) : Option (List Char × List Char) :=
  match s.dropWhile (· != mark) with
  | [] => none
  | _ :: rest => some (s.takeWhile (· != mark), rest)

/-- What stands before and after the last occurrence of a character. -/
def splitLast? (mark : Char) (s : List Char) : Option (List Char × List Char) :=
  (splitFirst? mark s.reverse).map fun parts => (parts.2.reverse, parts.1.reverse)

/-! ### Nothing is lost -/

theorem splitAll_ne_nil (mark : Char) (s : List Char) : splitAll mark s ≠ [] := by
  cases s with
  | nil => simp [splitAll]
  | cons c cs =>
    unfold splitAll
    split
    · simp
    · split <;> simp

/-- The stretches, joined by the character, make up the text. -/
theorem intercalate_splitAll (mark : Char) (s : List Char) :
    [mark].intercalate (splitAll mark s) = s := by
  induction s with
  | nil => rfl
  | cons c cs ih =>
    unfold splitAll
    have hne := splitAll_ne_nil mark cs
    cases h : splitAll mark cs with
    | nil => exact absurd h hne
    | cons piece pieces =>
      rw [h] at ih
      split
      · next hc => rw [List.intercalate_cons_cons, ih, hc]; rfl
      · cases pieces with
        | nil => simp_all
        | cons next more =>
          rw [List.intercalate_cons_cons] at ih ⊢
          rw [← ih]
          rfl

/-- No stretch holds the character. -/
theorem not_mem_of_mem_splitAll {mark : Char} {s piece : List Char}
    (h : piece ∈ splitAll mark s) : mark ∉ piece := by
  induction s generalizing piece with
  | nil => simp_all [splitAll]
  | cons c cs ih =>
    unfold splitAll at h
    split at h
    · rcases List.mem_cons.1 h with rfl | h
      · exact List.not_mem_nil
      · exact ih h
    · next hc =>
      split at h
      · next he => exact absurd he (splitAll_ne_nil mark cs)
      · next first more he =>
        rcases List.mem_cons.1 h with rfl | h
        · have := ih (he ▸ List.mem_cons_self)
          simp_all [eq_comm]
        · exact ih (he ▸ List.mem_cons_of_mem _ h)

/-! ### The two parts -/

@[simp] theorem splitFirst?_nil (mark : Char) : splitFirst? mark [] = none := rfl

theorem splitFirst?_cons (mark c : Char) (cs : List Char) :
    splitFirst? mark (c :: cs) = if c = mark then some ([], cs)
      else (splitFirst? mark cs).map fun parts => (c :: parts.1, parts.2) := by
  by_cases h : c = mark
  · simp [splitFirst?, h]
  · simp only [splitFirst?, List.dropWhile_cons, List.takeWhile_cons, bne_iff_ne, ne_eq, h,
      not_false_eq_true, if_true, if_false]
    split <;> rfl

theorem splitFirst?_eq_some_iff {mark : Char} {s before after : List Char} :
    splitFirst? mark s = some (before, after) ↔ s = before ++ mark :: after ∧ mark ∉ before := by
  induction s generalizing before with
  | nil => simp
  | cons c cs ih =>
    rw [splitFirst?_cons]
    split
    · next h =>
      subst h
      cases before with
      | nil => simp
      | cons d ds => simp_all
    · next h =>
      cases before with
      | nil => simp [h]
      | cons d ds =>
        simp only [Option.map_eq_some_iff, Prod.mk.injEq, List.cons.injEq, Prod.exists,
          List.cons_append, List.mem_cons, not_or]
        constructor
        · rintro ⟨b, a, hs, ⟨rfl, rfl⟩, rfl⟩
          obtain ⟨hcs, hm⟩ := ih.1 hs
          exact ⟨⟨rfl, hcs⟩, fun he => h he.symm, hm⟩
        · rintro ⟨⟨rfl, hcs⟩, -, hm⟩
          exact ⟨ds, after, ih.2 ⟨hcs, hm⟩, ⟨rfl, rfl⟩, rfl⟩

theorem splitFirst?_eq_none_iff {mark : Char} {s : List Char} :
    splitFirst? mark s = none ↔ mark ∉ s := by
  induction s with
  | nil => simp
  | cons c cs ih =>
    rw [splitFirst?_cons]
    split
    · next h => simp [h]
    · next h => simp [ih, Ne.symm h]

theorem splitLast?_eq_some_iff {mark : Char} {s before after : List Char} :
    splitLast? mark s = some (before, after) ↔ s = before ++ mark :: after ∧ mark ∉ after := by
  unfold splitLast?
  constructor
  · intro h
    obtain ⟨parts, hp, he⟩ := Option.map_eq_some_iff.1 h
    cases he
    obtain ⟨hs, hm⟩ := splitFirst?_eq_some_iff.1 hp
    refine ⟨?_, by simpa using hm⟩
    have := congrArg List.reverse hs
    simpa using this
  · rintro ⟨rfl, hm⟩
    have h : splitFirst? mark (before ++ mark :: after).reverse =
        some (after.reverse, before.reverse) :=
      splitFirst?_eq_some_iff.2 ⟨by simp, by simpa using hm⟩
    rw [h]
    simp

end MarkupTree.Text
