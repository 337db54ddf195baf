import MarkupTree.Markup.Reference
import MarkupTree.Markup.Void
import MarkupTree.Markup.Token

/-!
# The inside of a start tag

After its name a start tag is a row of parts: attributes, fillers (white space, a stray character,
a slash that closes nothing) and at last the part that closes it. This module reads that row. It
knows nothing of the name, so the rest of a tag that was begun elsewhere is read by the same rule.

## Main definitions

* `Reading` : something read off the head of a text.
* `TagPart`, `readPart` : one part of a start tag.
* `TagBody`, `readBody` : all parts up to the one that closes the tag.

## Main results

* `readPart_append`, `readBody_append` : no character of the text is lost or read twice.
-/

namespace MarkupTree

/-- Something read off the head of a text: its value, the characters that it was read from, and
the characters that follow them. -/
structure Reading (α : Type) where
  value : α
  source : List Char
  rest : List Char

/-- The characters of names: ASCII letters and digits, hyphen, underscore and colon. -/
def isNameChar (c : Char) : Bool := c.isAlphanum || c == '-' || c == '_' || c == ':'

/-! ### Attribute values -/

/-- Where an attribute value without quotes ends: at white space, at `>` and at `/>`. -/
def endsBareValue : List Char → Bool
  | [] => true
  | '/' :: '>' :: _ => true
  | c :: _ => Ascii.isBlank c || c == '>'

/-- A value between quotes, after the first of them. Without a second one it goes on to the end of
the text. -/
def readQuoted (quote : Char) (s : List Char) : Reading String :=
  let rest := s.dropWhile (· != quote)
  { value := Reference.decoded (s.takeWhile (· != quote))
    source := s.takeWhile (· != quote) ++ rest.take 1
    rest := rest.drop 1 }

/-- A value without quotes. -/
def readBare (s : List Char) : Reading String :=
  { value := Reference.decoded (Text.breakWhere endsBareValue s).1
    source := (Text.breakWhere endsBareValue s).1
    rest := (Text.breakWhere endsBareValue s).2 }

/-- The value of an attribute, after any white space that follows the equals sign. -/
def readValue : List Char → Reading String
  | '"' :: s => { readQuoted '"' s with source := '"' :: (readQuoted '"' s).source }
  | '\x27' :: s => { readQuoted '\x27' s with source := '\x27' :: (readQuoted '\x27' s).source }
  | s => readBare s

theorem readQuoted_append (quote : Char) (s : List Char) :
    (readQuoted quote s).source ++ (readQuoted quote s).rest = s := by
  simp only [readQuoted, List.append_assoc, List.take_append_drop,
    List.takeWhile_append_dropWhile]

theorem readBare_append (s : List Char) : (readBare s).source ++ (readBare s).rest = s :=
  Text.breakWhere_append s

theorem readValue_append (s : List Char) : (readValue s).source ++ (readValue s).rest = s := by
  unfold readValue
  split
  · simp [readQuoted_append]
  · simp [readQuoted_append]
  · exact readBare_append s

/-- The value that an equals sign gives to a name, with or without white space on either side of
the sign. -/
def readGiven? (s : List Char) : Option (Reading String) :=
  match s.dropWhile Ascii.isBlank with
  | '=' :: t =>
    let given := readValue (t.dropWhile Ascii.isBlank)
    some { given with
      source := s.takeWhile Ascii.isBlank ++ '=' :: (t.takeWhile Ascii.isBlank ++ given.source) }
  | _ => none

theorem readGiven?_append {s : List Char} {given : Reading String} (h : readGiven? s = some given) :
    given.source ++ given.rest = s := by
  unfold readGiven? at h
  split at h
  · next t ht =>
    cases h
    simp only [List.append_assoc, List.cons_append, readValue_append,
      List.takeWhile_append_dropWhile]
    rw [← ht, List.takeWhile_append_dropWhile]
  · simp at h

/-! ### Parts -/

/-- A part of a start tag after its name. -/
inductive TagPart
  | filler
  | attr (a : Attribute)
  | close (bySlash : Bool)

/-- The attributes that a part adds to a start tag: one or none. -/
def TagPart.attributes : TagPart → List Attribute
  | attr a => [a]
  | _ => []

/-- An attribute: a name, with a value if an equals sign gives it one. -/
def readAttribute (s : List Char) : Reading TagPart :=
  match s.takeWhile isNameChar, s.dropWhile isNameChar with
  | spelled, after =>
    match readGiven? after with
    | some given =>
      { value := .attr ⟨Ascii.lowercase (String.ofList spelled), some given.value⟩
        source := spelled ++ given.source
        rest := given.rest }
    | none => ⟨.attr ⟨Ascii.lowercase (String.ofList spelled), none⟩, spelled, after⟩

/-- The part of a start tag at the head of the text `c :: cs`. -/
def readPart (c : Char) (cs : List Char) : Reading TagPart :=
  if c = '>' then ⟨.close false, [c], cs⟩
  else if c = '/' then
    match cs with
    | '>' :: rest => ⟨.close true, [c, '>'], rest⟩
    | _ => ⟨.filler, [c], cs⟩
  else if isNameChar c then readAttribute (c :: cs)
  else ⟨.filler, [c], cs⟩

theorem readAttribute_append (s : List Char) :
    (readAttribute s).source ++ (readAttribute s).rest = s := by
  simp only [readAttribute]
  split
  · next given h =>
    rw [List.append_assoc, readGiven?_append h, List.takeWhile_append_dropWhile]
  · exact List.takeWhile_append_dropWhile

theorem readPart_append (c : Char) (cs : List Char) :
    (readPart c cs).source ++ (readPart c cs).rest = c :: cs := by
  unfold readPart
  split
  · rfl
  · split
    · split <;> rfl
    · split
      · exact readAttribute_append _
      · rfl

theorem readPart_source_ne_nil (c : Char) (cs : List Char) : (readPart c cs).source ≠ [] := by
  unfold readPart
  split
  · simp
  · split
    · split <;> simp
    · split
      · next hc =>
        simp only [readAttribute]
        split <;> simp [hc]
      · simp

theorem length_readPart_rest_lt (c : Char) (cs : List Char) :
    (readPart c cs).rest.length < (c :: cs).length := by
  have h := congrArg List.length (readPart_append c cs)
  have := List.length_pos_iff.2 (readPart_source_ne_nil c cs)
  rw [List.length_append] at h
  omega

/-! ### The whole row -/

/-- What a start tag holds after its name: its attributes in order, and how it ends. -/
structure TagBody where
  attributes : List Attribute
  ending : TagEnd
deriving DecidableEq

/-- The inside of a start tag, up to the part that closes it or to the end of the text. -/
def readBody : List Char → Reading TagBody
  | [] => ⟨⟨[], .cutOff⟩, [], []⟩
  | c :: cs =>
    match (readPart c cs).value with
    | .close bySlash =>
      { value := ⟨[], if bySlash then .selfClosing else .plain⟩
        source := (readPart c cs).source
        rest := (readPart c cs).rest }
    | .filler =>
      let body := readBody (readPart c cs).rest
      { body with source := (readPart c cs).source ++ body.source }
    | .attr a =>
      let body := readBody (readPart c cs).rest
      { value := { body.value with attributes := a :: body.value.attributes }
        source := (readPart c cs).source ++ body.source
        rest := body.rest }
termination_by s => s.length
decreasing_by all_goals exact length_readPart_rest_lt c cs

/-- The part that closes a start tag. -/
theorem readBody_of_close {c : Char} {cs : List Char} {bySlash : Bool}
    (h : (readPart c cs).value = .close bySlash) :
    readBody (c :: cs) =
      { value := ⟨[], if bySlash then .selfClosing else .plain⟩
        source := (readPart c cs).source
        rest := (readPart c cs).rest } := by
  rw [readBody]
  split
  · next heq =>
    cases h.symm.trans heq
    rfl
  · next heq => cases h.symm.trans heq
  · next heq => cases h.symm.trans heq

/-- A part that does not close the start tag. -/
theorem readBody_of_not_close {c : Char} {cs : List Char}
    (h : ∀ bySlash, (readPart c cs).value ≠ .close bySlash) :
    readBody (c :: cs) =
      let body := readBody (readPart c cs).rest
      { value :=
          { body.value with
            attributes := (readPart c cs).value.attributes ++ body.value.attributes }
        source := (readPart c cs).source ++ body.source
        rest := body.rest } := by
  rw [readBody]
  split
  · next heq => exact absurd heq (h _)
  · next heq =>
    rw [heq]
    rfl
  · next heq =>
    rw [heq]
    rfl

theorem readBody_append (s : List Char) : (readBody s).source ++ (readBody s).rest = s := by
  fun_induction readBody s with
  | case1 => rfl
  | case2 c cs => exact readPart_append c cs
  | case3 c cs _ _ ih => rw [List.append_assoc, ih, readPart_append]
  | case4 c cs _ _ _ ih => rw [List.append_assoc, ih, readPart_append]

theorem length_readBody_rest_le (s : List Char) : (readBody s).rest.length ≤ s.length := by
  have h := congrArg List.length (readBody_append s)
  rw [List.length_append] at h
  omega

theorem length_readBody_rest_lt (c : Char) (cs : List Char) :
    (readBody (c :: cs)).rest.length < (c :: cs).length := by
  have first := length_readPart_rest_lt c cs
  have others := length_readBody_rest_le (readPart c cs).rest
  by_cases h : ∃ bySlash, (readPart c cs).value = .close bySlash
  · obtain ⟨bySlash, h⟩ := h
    rwa [readBody_of_close h]
  · rw [readBody_of_not_close (not_exists.1 h)]
    exact Nat.lt_of_le_of_lt others first

/-- A tag is cut off only by the end of the text. -/
theorem readBody_rest_of_cutOff {s : List Char} (h : (readBody s).value.ending = .cutOff) :
    (readBody s).rest = [] := by
  fun_induction readBody s with
  | case1 => rfl
  | case2 c cs bySlash => cases bySlash <;> simp at h
  | case3 c cs _ _ ih => exact ih h
  | case4 c cs _ _ _ ih => exact ih h

end MarkupTree
