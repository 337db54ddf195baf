import MarkupTree.Json.Value
import MarkupTree.Markup.Reference
import MarkupTree.Text.Break

/-!
# Reading JSON

The reader takes the texts of RFC 8259 and no others, with two limits of its own: arrays and
objects may be nested 127 deep, and a number must be one that a double can hold. It says of a text
only whether it is JSON, not what is wrong with it.

## Main definitions

* `Json.readString?` : a string, after its opening quote.
* `Json.readValue?` : a value, with a limit on nesting.
* `Json.parse?` : the value of a whole text.
-/

namespace MarkupTree.Json

/-- The white space of JSON. -/
def isSpace (c : Char) : Bool := c == ' ' || c == '\t' || c == '\n' || c == '\r'

/-- A text without the white space at its head. -/
def skipSpace (s : List Char) : List Char := s.dropWhile isSpace

/-! ### Strings -/

/-- The value of a hexadecimal digit. -/
def hexDigit? (c : Char) : Option Nat :=
  if Reference.Base.hexadecimal.isDigit c then some (Reference.digitValue c) else none

/-- The number that four hexadecimal digits write. -/
def readUnit? : List Char → Option (Nat × List Char)
  | a :: b :: c :: d :: s => do
    let a ← hexDigit? a
    let b ← hexDigit? b
    let c ← hexDigit? c
    let d ← hexDigit? d
    return (((a * 16 + b) * 16 + c) * 16 + d, s)
  | _ => none

/-- The character of a pair of surrogates. -/
def ofSurrogates? (high low : Nat) : Option Char :=
  if 0xDC00 ≤ low ∧ low < 0xE000 then
    Reference.scalar? (0x10000 + (high - 0xD800) * 0x400 + (low - 0xDC00))
  else none

/-- A character written by number, after `\u`. A surrogate has to be the first of a pair. -/
def readNumbered? (s : List Char) : Option (Char × List Char) :=
  match readUnit? s with
  | none => none
  | some (unit, rest) =>
    if 0xD800 ≤ unit ∧ unit < 0xDC00 then
      match rest with
      | '\\' :: 'u' :: more =>
        (readUnit? more).bind fun r => (ofSurrogates? unit r.1).map (·, r.2)
      | _ => none
    else (Reference.scalar? unit).map (·, rest)

/-- The character that a letter stands for after a backslash. -/
def namedEscape? : Char → Option Char
  | '"' => some '"'
  | '\\' => some '\\'
  | '/' => some '/'
  | 'b' => some '\x08'
  | 'f' => some '\x0c'
  | 'n' => some '\n'
  | 'r' => some '\r'
  | 't' => some '\t'
  | _ => none

/-- One character of a string, as it is written there. -/
def readChar? : List Char → Option (Char × List Char)
  | [] => none
  | c :: s =>
    if c = '\\' then
      match s with
      | [] => none
      | e :: s => if e = 'u' then readNumbered? s else (namedEscape? e).map (·, s)
    else if c = '"' ∨ c < ' ' then none
    else some (c, s)

private theorem length_le_of_readUnit? {s rest : List Char} {unit : Nat}
    (h : readUnit? s = some (unit, rest)) : rest.length ≤ s.length := by
  unfold readUnit? at h
  split at h
  · simp only [Option.bind_eq_bind, Option.bind_eq_some_iff, Option.pure_def] at h
    obtain ⟨_, -, _, -, _, -, _, -, h⟩ := h
    cases h
    simp only [List.length_cons]
    omega
  · simp at h

private theorem length_le_of_readNumbered? {s rest : List Char} {c : Char}
    (h : readNumbered? s = some (c, rest)) : rest.length ≤ s.length := by
  unfold readNumbered? at h
  split at h
  · simp at h
  · next unit after hu =>
    have := length_le_of_readUnit? hu
    split at h
    · split at h
      · obtain ⟨r, hr, h⟩ := Option.bind_eq_some_iff.1 h
        obtain ⟨d, -, h⟩ := Option.map_eq_some_iff.1 h
        cases h
        have : r.2.length ≤ _ := length_le_of_readUnit? hr
        simp only [List.length_cons] at *
        omega
      · simp at h
    · obtain ⟨d, -, h⟩ := Option.map_eq_some_iff.1 h
      cases h
      omega

theorem length_lt_of_readChar? {s rest : List Char} {c : Char}
    (h : readChar? s = some (c, rest)) : rest.length < s.length := by
  unfold readChar? at h
  split at h
  · simp at h
  · next d t =>
    simp only [List.length_cons]
    split at h
    · split at h
      · simp at h
      · simp only [List.length_cons]
        split at h
        · have := length_le_of_readNumbered? h
          omega
        · obtain ⟨e, -, h⟩ := Option.map_eq_some_iff.1 h
          cases h
          omega
    · split at h
      · simp at h
      · cases h
        omega

/-- A string after its opening quote: its text, and what follows its closing quote. -/
def readString? (s : List Char) : Option (List Char × List Char) :=
  if s.head? = some '"' then some ([], s.tail)
  else
    match _ : readChar? s with
    | none => none
    | some (c, rest) => (readString? rest).map fun r => (c :: r.1, r.2)
termination_by s.length
decreasing_by exact length_lt_of_readChar? ‹_›

/-! ### Scalars -/

/-- The words that are values. -/
def words : List (List Char × Json) :=
  [("null".toList, null), ("true".toList, bool true), ("false".toList, bool false)]

/-- A value that is no array and no object, after any white space. -/
def readScalar? (s : List Char) : Option (Json × List Char) :=
  match skipSpace s with
  | [] => none
  | c :: cs =>
    if c = '"' then (readString? cs).map fun r => (string (String.ofList r.1), r.2)
    else if c.isDigit ∨ c = '-' then
      match Numeral.read? (c :: cs) with
      | some (n, rest) => if n.fitsDouble then some (number n, rest) else none
      | none => none
    else words.findSome? fun word => (Text.after? word.1 (c :: cs)).map (word.2, ·)

/-! ### Arrays and objects -/

variable {α : Type}

/-- One item or more with commas between them, up to and with the character `close`. There are no
more than `bound` of them. -/
def readItems? (read : List Char → Option (α × List Char)) (close : Char) :
    (bound : Nat) → List Char → Option (List α × List Char)
  | 0, _ => none
  | bound + 1, s =>
    match read s with
    | none => none
    | some (item, rest) =>
      match skipSpace rest with
      | [] => none
      | c :: cs =>
        if c = ',' then (readItems? read close bound cs).map fun r => (item :: r.1, r.2)
        else if c = close then some ([item], cs)
        else none

/-- Any number of items, after the character that opens them. -/
def readAll? (read : List Char → Option (α × List Char)) (close : Char) (s : List Char) :
    Option (List α × List Char) :=
  match skipSpace s with
  | [] => none
  | c :: cs => if c = close then some ([], cs) else readItems? read close s.length (c :: cs)

/-- A member of an object: its key, a colon and its value. -/
def readMember? (read : List Char → Option (Json × List Char)) (s : List Char) :
    Option ((String × Json) × List Char) :=
  match skipSpace s with
  | '"' :: s =>
    (readString? s).bind fun key =>
      match skipSpace key.2 with
      | ':' :: s => (read s).map fun value => ((String.ofList key.1, value.1), value.2)
      | _ => none
  | _ => none

/-- A value after any white space, in which arrays and objects are nested `depth` deep at most. -/
def readValue? : (depth : Nat) → List Char → Option (Json × List Char)
  | 0, s => readScalar? s
  | depth + 1, s =>
    match skipSpace s with
    | '[' :: cs => (readAll? (readValue? depth) ']' cs).map fun r => (array r.1, r.2)
    | '\x7b' :: cs =>
      (readAll? (readMember? (readValue? depth)) '\x7d' cs).map fun r => (object r.1, r.2)
    | cs => readScalar? cs

/-- How deep arrays and objects may be nested. -/
def maxNesting : Nat := 127

/-- The value of a whole text, unless the text is not JSON or exceeds a limit. -/
def parse? (text : String) : Option Json :=
  match readValue? maxNesting text.toList with
  | some (value, rest) => if (skipSpace rest).isEmpty then some value else none
  | none => none

end MarkupTree.Json
