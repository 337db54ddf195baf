import MarkupTree.Text.Break
import MarkupTree.Text.Ascii

/-!
# The end of raw text

Raw text goes on to the first close tag of its element: `</`, the element's name in any letter
case, white space, and `>`. Nothing else ends it, so a name that goes on, or anything but white
space before the `>`, leaves the text raw.

## Main definitions

* `closeTag?` : the close tag of an element at the head of a text.
* `breakRawText` : raw text, cut where its close tag starts.

## Main results

* `closeTag?_append` : a close tag and what follows it make up the text.
* `closeTag?_eq_some_iff` : what a close tag is.
* `breakRawText_append` : no character is lost.
-/

namespace MarkupTree

/-- The close tag of the element `name` at the head of a text, and what follows the tag. -/
def closeTag? (name : String) (s : List Char) : Option (List Char × List Char) :=
  match Ascii.matchWord? ('<' :: '/' :: name.toList) s with
  | some (spelled, after) =>
    match after.dropWhile Ascii.isBlank with
    | '>' :: rest => some (spelled ++ after.takeWhile Ascii.isBlank ++ ['>'], rest)
    | _ => none
  | none => none

/-- The raw text of the element `name`, and what is left from its close tag on. -/
def breakRawText (name : String) (s : List Char) : List Char × List Char :=
  Text.breakWhere (fun t => (closeTag? name t).isSome) s

theorem closeTag?_append {name : String} {s source rest : List Char}
    (h : closeTag? name s = some (source, rest)) : source ++ rest = s := by
  unfold closeTag? at h
  split at h
  · next spelled after hm =>
    split at h
    · next t ht =>
      cases h
      rw [List.append_assoc, List.append_assoc, List.singleton_append, ← ht,
        List.takeWhile_append_dropWhile, Ascii.matchWord?_append hm]
    · simp at h
  · simp at h

/-- What a close tag is: a spelling of `</` and the name, white space, and `>`. -/
theorem closeTag?_eq_some_iff {name : String} {s source rest : List Char} :
    closeTag? name s = some (source, rest) ↔
      ∃ spelled blanks, Ascii.lower spelled = '<' :: '/' :: name.toList ∧
        blanks.all Ascii.isBlank ∧ source = spelled ++ blanks ++ ['>'] ∧ s = source ++ rest := by
  constructor
  · intro h
    have whole := closeTag?_append h
    unfold closeTag? at h
    split at h
    · next spelled after hm =>
      split at h
      · next t ht =>
        cases h
        exact ⟨spelled, _, Ascii.lower_of_matchWord? hm, List.all_takeWhile, rfl, whole.symm⟩
      · simp at h
    · simp at h
  · rintro ⟨spelled, blanks, hl, hb, rfl, rfl⟩
    have white : ∀ c ∈ blanks, Ascii.isBlank c = true := List.all_eq_true.1 hb
    have read := Ascii.matchWord?_spelled spelled (blanks ++ '>' :: rest)
    rw [hl] at read
    have text : spelled ++ blanks ++ ['>'] ++ rest = spelled ++ (blanks ++ '>' :: rest) := by simp
    have close : ('>' :: rest).dropWhile Ascii.isBlank = '>' :: rest := rfl
    have none : ('>' :: rest).takeWhile Ascii.isBlank = [] := rfl
    rw [closeTag?, text, read]
    simp only [List.dropWhile_append_of_pos white, List.takeWhile_append_of_pos white, close, none,
      List.append_nil]

theorem breakRawText_append (name : String) (s : List Char) :
    (breakRawText name s).1 ++ (breakRawText name s).2 = s :=
  Text.breakWhere_append s

/-- What raw text leaves starts with a close tag, unless nothing is left. -/
theorem closeTag?_breakRawText {name : String} {s : List Char} (h : (breakRawText name s).2 ≠ []) :
    (closeTag? name (breakRawText name s).2).isSome :=
  Text.stop_breakWhere s h

end MarkupTree
