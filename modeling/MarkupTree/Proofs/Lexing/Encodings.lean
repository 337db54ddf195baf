import MarkupTree.Proofs.Lexing.References
import MarkupTree.Proofs.Lexing.Spelling
import Mathlib.Data.List.Forall2

/-!
# Encoded texts

A text may be written in many ways that are decoded to it. Each of its characters is written by
itself or as a reference to it, whichever is chosen for that character alone; only an ampersand is
never written by itself (`Reference.Spells`). A reference is read whole whatever follows it, so no
character that is written by itself extends or completes a reference before it, and the choices do
not disturb one another. What is written between double quotes is one of these encodings.

## Main definitions

* `Reference.Spells` : the ways to write one character.

## Main results

* `Reference.decode_flatten_of_spells` : every encoding of a text is decoded to it.
* `Reference.spells_escapeQuotedChar` : text between double quotes is encoded.
* `Reference.decoded_of_spells` : both on strings.
-/

namespace MarkupTree.Reference

variable {word : List Char} {c : Char}

/-- The ways to write a character: by itself, unless it is an ampersand, or as any reference that
stands for it. -/
inductive Spells : (word : List Char) → (c : Char) → Prop
  | itself {c : Char} (h : c ≠ '&') : Spells [c] c
  | reference {word : List Char} {c : Char} (h : IsReference word c) : Spells word c

theorem isNumeral_of_number {base : Base} {digits : List Char} (hall : digits.all base.isDigit)
    (hvalue : number base digits = c.toNat) : IsNumeral base digits c :=
  ⟨List.all_eq_true.1 hall, hvalue.symm.trans (number_eq_ofDigits base digits)⟩

/-- A written character is read back, whatever follows it. -/
theorem Spells.decode_append (h : Spells word c) (rest : List Char) :
    decode (word ++ rest) = c :: decode rest := by
  cases h with
  | itself hc => exact decode_cons_of_ne hc rest
  | reference hr => exact decode_append_of_isReference hr rest

/-- Every encoding of a text, character by character, is decoded to the text. -/
theorem decode_flatten_of_spells {words : List (List Char)} {s : List Char}
    (h : List.Forall₂ Spells words s) : decode words.flatten = s := by
  induction h with
  | nil => exact decode_nil
  | cons hword _ ih => rw [List.flatten_cons, hword.decode_append, ih]

/-- What is written between double quotes for a character is one of its spellings. -/
theorem spells_escapeQuotedChar (c : Char) : Spells (escapeQuotedChar c) c := by
  have ampersand : ("amp;".toList, '&') ∈ named := by decide
  have quote : ("quot;".toList, '"') ∈ named := by decide
  unfold escapeQuotedChar
  split_ifs with hamp hquote
  · subst hamp
    exact .reference (.named ampersand)
  · subst hquote
    exact .reference (.named quote)
  · exact .itself hamp

theorem forall₂_spells_escapeQuoted (s : List Char) :
    List.Forall₂ Spells (s.map escapeQuotedChar) s := by
  rw [List.forall₂_map_left_iff, List.forall₂_same]
  exact fun c _ => spells_escapeQuotedChar c

/-- Decoding inverts every encoding: a string is read back from whatever spells it character by
character. In particular it is read back from what is written for it between double quotes, and
there is no double quote in that. -/
theorem decoded_of_spells :
    (∀ (words : List (List Char)) (s : String), List.Forall₂ Spells words s.toList →
      decoded words.flatten = s) ∧
    ∀ value : String, decoded (escapeQuoted value).toList = value ∧
      '"' ∉ (escapeQuoted value).toList := by
  have inverts (words : List (List Char)) (s : String) (h : List.Forall₂ Spells words s.toList) :
      decoded words.flatten = s := by
    rw [decoded, decode_flatten_of_spells h, String.ofList_toList]
  refine ⟨inverts, fun value => ⟨?_, quote_notMem_escapeQuoted value⟩⟩
  have spelled := inverts _ value (forall₂_spells_escapeQuoted value.toList)
  rwa [escapeQuoted, String.toList_ofList, List.flatMap_def]

/-- A text that looks like a reference, written so that the characters between its two references
could be taken for the digits of another. -/
theorem decoded_of_spells_lookalike :
    List.Forall₂ Spells ["&#0000038;".toList, ['#'], ['x'], "&#X4a;".toList, "&#x00003B;".toList]
        "&#xJ;".toList ∧
      decoded "&#0000038;#x&#X4a;&#x00003B;".toList = "&#xJ;" := by
  have ampersand : IsNumeral .decimal "0000038".toList '&' :=
    isNumeral_of_number rfl rfl
  have letter : IsNumeral .hexadecimal "4a".toList 'J' :=
    isNumeral_of_number rfl rfl
  have semicolon : IsNumeral .hexadecimal "00003B".toList ';' :=
    isNumeral_of_number rfl rfl
  have spelled : List.Forall₂ Spells
      ["&#0000038;".toList, ['#'], ['x'], "&#X4a;".toList, "&#x00003B;".toList]
      "&#xJ;".toList :=
    .cons (.reference (.decimal ampersand (by decide))) <|
    .cons (.itself (by decide)) <| .cons (.itself (by decide)) <|
    .cons (.reference (.hexadecimal (.inr rfl) letter (by decide))) <|
    .cons (.reference (.hexadecimal (.inl rfl) semicolon (by decide))) .nil
  exact ⟨spelled, decoded_of_spells.1 _ "&#xJ;" spelled⟩

end MarkupTree.Reference
