import MarkupTree.Text.Break
import MarkupTree.Text.Ascii

/-!
# Character references

A reference stands for one character: six of them by name (`&amp;`), every Unicode scalar value by
number, in decimal (`&#215;`) or in hexadecimal (`&#xD7;`). A reference ends in a semicolon; text
that only looks like one stands for itself.

## Main definitions

* `Reference.read?` : the reference at the head of a text, after its ampersand.
* `Reference.decode` : a text with its references replaced by the characters they stand for.
* `Reference.escapeQuoted` : a text written so that it fits between double quotes.
-/

namespace MarkupTree.Reference

/-! ### Named references -/

/-- The named references, without their ampersand. -/
def named : List (List Char × Char) :=
  [("amp;".toList, '&'), ("lt;".toList, '<'), ("gt;".toList, '>'), ("quot;".toList, '"'),
    ("apos;".toList, '\x27'), ("nbsp;".toList, '\u00a0')]

/-- A named reference after its ampersand, and what follows it. -/
def readNamed? (s : List Char) : Option (Char × List Char) :=
  named.findSome? fun entry => (Text.after? entry.1 s).map (entry.2, ·)

/-! ### Numeric references -/

/-- The base in which a numeric reference is written. -/
inductive Base
  | decimal
  | hexadecimal
deriving DecidableEq

namespace Base

/-- How many values a digit has. -/
def radix : Base → Nat
  | decimal => 10
  | hexadecimal => 16

/-- The most digits that a reference may have: enough for the last scalar value. -/
def maxDigits : Base → Nat
  | decimal => 7
  | hexadecimal => 6

/-- The digits of the base. -/
def isDigit : Base → Char → Bool
  | decimal, c => c.isDigit
  | hexadecimal, c => c.isDigit || ('a' ≤ c && c ≤ 'f') || ('A' ≤ c && c ≤ 'F')

end Base

/-- The value of a digit in either base. -/
def digitValue (c : Char) : Nat :=
  if c.isDigit then c.toNat - '0'.toNat else c.toLower.toNat - 'a'.toNat + 10

/-- The number that digits write, the most significant first. -/
def number (base : Base) (digits : List Char) : Nat :=
  digits.foldl (fun n d => n * base.radix + digitValue d) 0

/-- The character with a given code point, unless that is a surrogate or out of range. -/
def scalar? (n : Nat) : Option Char :=
  if h : n.isValidChar then some (Char.ofNatAux n h) else none

/-- The digits of a numeric reference, its semicolon, and what follows. -/
def readDigits? (base : Base) (s : List Char) : Option (Char × List Char) :=
  match s.takeWhile base.isDigit, s.dropWhile base.isDigit with
  | digits, ';' :: rest =>
    if 1 ≤ digits.length ∧ digits.length ≤ base.maxDigits then
      (scalar? (number base digits)).map (·, rest)
    else none
  | _, _ => none

/-- A numeric reference after its ampersand, and what follows it. -/
def readNumeric? : List Char → Option (Char × List Char)
  | '#' :: 'x' :: s => readDigits? .hexadecimal s
  | '#' :: 'X' :: s => readDigits? .hexadecimal s
  | '#' :: s => readDigits? .decimal s
  | _ => none

/-! ### Decoding -/

/-- A reference after its ampersand: the character that it stands for, and what follows it. -/
def read? (s : List Char) : Option (Char × List Char) :=
  (readNamed? s).or (readNumeric? s)

private theorem length_le_of_after? {word s rest : List Char}
    (h : Text.after? word s = some rest) : rest.length ≤ s.length := by
  rw [Text.after?_eq_some_iff.1 h, List.length_append]
  omega

private theorem length_le_of_readDigits? {base : Base} {s rest : List Char} {c : Char}
    (h : readDigits? base s = some (c, rest)) : rest.length ≤ s.length := by
  unfold readDigits? at h
  split at h
  · next heq =>
    split at h
    · obtain ⟨d, -, hd⟩ := Option.map_eq_some_iff.1 h
      have hlen := (List.dropWhile_suffix base.isDigit : s.dropWhile base.isDigit <:+ s).length_le
      rw [heq] at hlen
      cases hd
      simp only [List.length_cons] at hlen
      omega
    · simp at h
  · simp at h

/-- Reading a reference takes characters and adds none. -/
theorem length_le_of_read? {s rest : List Char} {c : Char} (h : read? s = some (c, rest)) :
    rest.length ≤ s.length := by
  rw [read?, Option.or_eq_some_iff] at h
  rcases h with h | ⟨-, h⟩
  · obtain ⟨entry, -, he⟩ := List.exists_of_findSome?_eq_some h
    obtain ⟨r, hr, hrs⟩ := Option.map_eq_some_iff.1 he
    cases hrs
    exact length_le_of_after? hr
  · unfold readNumeric? at h
    split at h
    all_goals try simp at h
    all_goals
      have := length_le_of_readDigits? h
      simp only [List.length_cons]
      omega

/-- A text with its references replaced by the characters that they stand for. What a reference
stands for is not read again. -/
def decode : List Char → List Char
  | [] => []
  | c :: cs =>
    if c = '&' then
      match _ : read? cs with
      | some (d, rest) => d :: decode rest
      | none => c :: decode cs
    else c :: decode cs
termination_by s => s.length
decreasing_by
  · have := length_le_of_read? ‹_›
    simp only [List.length_cons]
    omega
  · simp
  · simp

/-- A string with its references replaced. -/
def decoded (s : List Char) : String := String.ofList (decode s)

@[simp] theorem decode_nil : decode [] = [] := by rw [decode]

theorem decode_cons_of_ne {c : Char} (h : c ≠ '&') (cs : List Char) :
    decode (c :: cs) = c :: decode cs := by rw [decode, if_neg h]

theorem decode_amp_of_read? {cs rest : List Char} {d : Char} (h : read? cs = some (d, rest)) :
    decode ('&' :: cs) = d :: decode rest := by
  rw [decode, if_pos rfl]
  split <;> simp_all

theorem decode_amp_of_none {cs : List Char} (h : read? cs = none) :
    decode ('&' :: cs) = '&' :: decode cs := by
  rw [decode, if_pos rfl]
  split <;> simp_all

/-- Decoding never uses a text up. -/
theorem decode_ne_nil (c : Char) (cs : List Char) : decode (c :: cs) ≠ [] := by
  by_cases h : c = '&'
  · subst h
    cases hr : read? cs with
    | none => simp [decode_amp_of_none hr]
    | some r => simp [decode_amp_of_read? hr]
  · simp [decode_cons_of_ne h]

/-! ### Escaping -/

/-- One character as it is written between double quotes. -/
def escapeQuotedChar (c : Char) : List Char :=
  if c = '&' then "&amp;".toList else if c = '"' then "&quot;".toList else [c]

/-- A string written so that it fits between double quotes. -/
def escapeQuoted (s : String) : String := String.ofList (s.toList.flatMap escapeQuotedChar)

end MarkupTree.Reference
