import MarkupTree.Proofs.Json.Rereading
import MarkupTree.Proofs.Lexing.References
import Mathlib.Data.List.Forall2

/-!
# The texts of JSON values

A JSON value can be written in many ways: with white space around any of its parts, and with any
character of its strings as an escape. The texts of a value are given by a grammar (`Json.IsText`),
that of RFC 8259. The reader takes each of these texts for the value, if the value is not nested too
deep and a double can hold each of its numbers (`Json.parse?_of_isWholeText`). What the grammar of
RFC 8259 has besides are escapes of lone surrogates. They stand for no character, so no value has
them, and the reader refuses them.

A value is followed by white space, by a comma, by the end of the array or object around it, or by
nothing (`Json.EndsValue`). Only a number needs that, as the other values show by themselves where
they end.

## Main definitions

* `Numeral.IsValid` : the numbers of the grammar.
* `Json.IsChar`, `Json.IsString` : the ways to write a character and a string.
* `Json.IsRow` : items with commas between them and white space anywhere.
* `Json.IsText`, `Json.IsWholeText` : the texts of a value, without and with white space around
  them.
* `Json.fitsDoubles` : whether a double can hold each number in a value.
* `Json.ReadsBack` : an item is read back from all of its texts.

## Main results

* `Numeral.read?_write` : a number is read as it was written.
* `Json.readString?_of_isChar` : strings are read back.
* `Json.readAll?_of_isRow` : arrays and objects are read back, if their items are.
* `Json.readValue?_of_isText` : values are read back, up to a limit on nesting and on numbers.
* `Json.parse?_of_isWholeText` : a value is read from all of its whole texts.
-/

namespace MarkupTree

variable {rest : List Char}

/-! ### Numbers -/

namespace Numeral

variable {n : Numeral} {digits : List Char}

/-- One digit or more. -/
def IsDigits (digits : List Char) : Prop := digits ≠ [] ∧ ∀ c ∈ digits, c.isDigit = true

/-- The exponents of the grammar. -/
structure IsExponent (e : Exponent) : Prop where
  letter : e.letter = 'e' ∨ e.letter = 'E'
  sign : e.sign = none ∨ e.sign = some '+' ∨ e.sign = some '-'
  digits : IsDigits e.digits

/-- The numbers of the grammar. Only a lone zero begins with zero. -/
structure IsValid (n : Numeral) : Prop where
  whole : IsDigits n.whole
  lone : ∀ digits, n.whole = '0' :: digits → digits = []
  fraction : ∀ digits ∈ n.fraction, IsDigits digits
  exponent : ∀ e ∈ n.exponent, IsExponent e

/-- A text that is not taken for more of a number before it. -/
def EndsNumber (rest : List Char) : Prop :=
  ∀ c ∈ rest.head?, c.isDigit = false ∧ c ≠ '.' ∧ c ≠ 'e' ∧ c ≠ 'E'

theorem readDigits?_append (h : IsDigits digits) (hr : ∀ c ∈ rest.head?, c.isDigit = false) :
    readDigits? (digits ++ rest) = some (digits, rest) := by
  have stop : rest.takeWhile Char.isDigit = [] ∧ rest.dropWhile Char.isDigit = rest := by
    cases rest with
    | nil => exact ⟨rfl, rfl⟩
    | cons c cs =>
      have hc : c.isDigit = false := hr c rfl
      exact ⟨List.takeWhile_cons_of_neg (by simp [hc]), List.dropWhile_cons_of_neg (by simp [hc])⟩
  obtain ⟨c, cs, rfl⟩ := List.exists_cons_of_ne_nil h.1
  rw [readDigits?, List.takeWhile_append_of_pos h.2, List.dropWhile_append_of_pos h.2, stop.1,
    stop.2, List.append_nil]

theorem readWhole?_append (h : IsDigits digits) (hlone : ∀ ds, digits = '0' :: ds → ds = [])
    (hr : ∀ c ∈ rest.head?, c.isDigit = false) :
    readWhole? (digits ++ rest) = some (digits, rest) := by
  rw [readWhole?, readDigits?_append h hr]
  split
  · next heq =>
    cases heq
    cases hlone _ rfl
  · rfl

theorem readSign_append {sign : Option Char} (h : sign = none ∨ sign = some '+' ∨ sign = some '-')
    (hd : IsDigits digits) :
    readSign (sign.toList ++ (digits ++ rest)) = (sign, digits ++ rest) := by
  rcases h with rfl | rfl | rfl
  · obtain ⟨c, cs, rfl⟩ := List.exists_cons_of_ne_nil hd.1
    have hc : c.isDigit = true := hd.2 c List.mem_cons_self
    have hplus : c ≠ '+' := by rintro rfl; simp at hc
    have hminus : c ≠ '-' := by rintro rfl; simp at hc
    simp [readSign, hplus, hminus]
  · rfl
  · rfl

theorem readExponent?_append {e : Option Exponent} (h : ∀ x ∈ e, IsExponent x)
    (hr : EndsNumber rest) :
    readExponent? (e.elim [] writeExponent ++ rest) = some (e, rest) := by
  cases e with
  | none =>
    cases rest with
    | nil => rfl
    | cons c cs =>
      obtain ⟨-, -, hsmall, hcapital⟩ := hr c rfl
      simp [readExponent?, hsmall, hcapital]
  | some e =>
    obtain ⟨hletter, hsign, hdigits⟩ := h e rfl
    have hsigned : readSign (e.sign.toList ++ (e.digits ++ rest)) = (e.sign, e.digits ++ rest) :=
      readSign_append hsign hdigits
    have hread := readDigits?_append hdigits fun c hc => (hr c hc).1
    simp [writeExponent, readExponent?, hletter, hsigned, hread]

/-- No digit and no point follows the digits of a number but those of its own. -/
theorem head_exponent {e : Option Exponent} (h : ∀ x ∈ e, IsExponent x) (hr : EndsNumber rest) :
    ∀ c ∈ (e.elim [] writeExponent ++ rest).head?, c.isDigit = false ∧ c ≠ '.' := by
  intro c hc
  cases e with
  | none => exact ⟨(hr c hc).1, (hr c hc).2.1⟩
  | some e =>
    obtain rfl : e.letter = c := Option.some.inj hc
    rcases (h e rfl).letter with hletter | hletter <;> rw [hletter] <;> decide

theorem readFraction?_append {f : Option (List Char)} (h : ∀ digits ∈ f, IsDigits digits)
    (hr : ∀ c ∈ rest.head?, c.isDigit = false ∧ c ≠ '.') :
    readFraction? (f.elim [] ('.' :: ·) ++ rest) = some (f, rest) := by
  cases f with
  | none =>
    cases rest with
    | nil => rfl
    | cons c cs => simp [readFraction?, (hr c rfl).2]
  | some digits =>
    have hread := readDigits?_append (h digits rfl) fun c hc => (hr c hc).1
    simp [readFraction?, hread]

theorem head_fraction {f : Option (List Char)}
    (hr : ∀ c ∈ rest.head?, c.isDigit = false ∧ c ≠ '.') :
    ∀ c ∈ (f.elim [] ('.' :: ·) ++ rest).head?, c.isDigit = false := by
  intro c hc
  cases f with
  | none => exact (hr c hc).1
  | some digits =>
    obtain rfl : '.' = c := Option.some.inj hc
    rfl

/-- A number is read as it was written, up to something that ends it. -/
theorem read?_write {n : Numeral} (h : n.IsValid) (hr : EndsNumber rest) :
    read? (n.write ++ rest) = some (n, rest) := by
  have hexponent := head_exponent h.exponent hr
  have hunsigned : readUnsigned? n.negative (n.whole ++ (n.fraction.elim [] ('.' :: ·) ++
      (n.exponent.elim [] writeExponent ++ rest))) = some (n, rest) := by
    simp [readUnsigned?, readWhole?_append h.whole h.lone (head_fraction hexponent),
      readFraction?_append h.fraction hexponent, readExponent?_append h.exponent hr]
  cases hneg : n.negative with
  | true =>
    rw [hneg] at hunsigned
    simpa [write, hneg, read?] using hunsigned
  | false =>
    rw [hneg] at hunsigned
    obtain ⟨c, cs, hwhole⟩ := List.exists_cons_of_ne_nil h.whole.1
    have hc : c.isDigit = true := h.whole.2 c (by simp [hwhole])
    have hminus : c ≠ '-' := by rintro rfl; simp at hc
    rw [hwhole] at hunsigned
    simpa [write, hneg, hwhole, read?, hminus] using hunsigned

/-- A number begins with a digit or a minus sign. -/
theorem exists_write_eq_cons {n : Numeral} (h : n.IsValid) :
    ∃ c cs, n.write = c :: cs ∧ (c.isDigit = true ∨ c = '-') := by
  obtain ⟨c, cs, hwhole⟩ := List.exists_cons_of_ne_nil h.whole.1
  cases hneg : n.negative with
  | true => exact ⟨_, _, by simp [write, hneg]; rfl, .inr rfl⟩
  | false =>
    exact ⟨_, _, by simp [write, hneg, hwhole]; rfl, .inl (h.whole.2 c (by simp [hwhole]))⟩

end Numeral

namespace Json

/-! ### Strings -/

section Strings

variable {digits : List Char} {n : Nat} {c : Char} {t : List Char}

/-- The letters that a backslash makes a character of, and that character. -/
def escapes : List (Char × Char) :=
  [('"', '"'), ('\\', '\\'), ('/', '/'), ('b', '\x08'), ('f', '\x0c'), ('n', '\n'), ('r', '\r'),
    ('t', '\t')]

/-- Four hexadecimal digits, in either letter case, that write a number. -/
structure IsUnit (digits : List Char) (n : Nat) : Prop where
  length : digits.length = 4
  all : digits.all Reference.Base.hexadecimal.isDigit = true
  value : Nat.ofDigits 16 (digits.map Reference.digitValue).reverse = n

/-- The ways to write a character in a string. Only characters beyond the first plane are written
as two surrogates. -/
inductive IsChar : Char → List Char → Prop
  | itself {c : Char} (hquote : c ≠ '"') (hback : c ≠ '\\') (hcontrol : ' ' ≤ c) : IsChar c [c]
  | named {letter c : Char} (h : (letter, c) ∈ escapes) : IsChar c ['\\', letter]
  | unit {digits : List Char} {c : Char} (h : IsUnit digits c.toNat) :
    IsChar c ('\\' :: 'u' :: digits)
  | surrogates {digits digits' : List Char} {high low : Nat} {c : Char} (h : IsUnit digits high)
    (h' : IsUnit digits' low) (hhigh : 0xD800 ≤ high ∧ high < 0xDC00)
    (hlow : 0xDC00 ≤ low ∧ low < 0xE000)
    (hc : c.toNat = 0x10000 + (high - 0xD800) * 0x400 + (low - 0xDC00)) :
    IsChar c ('\\' :: 'u' :: (digits ++ '\\' :: 'u' :: digits'))

/-- The ways to write a string, with its quotes. -/
inductive IsString : String → List Char → Prop
  | quoted {text : String} {pieces : List (List Char)}
    (h : List.Forall₂ IsChar text.toList pieces) :
    IsString text ('"' :: (pieces.flatten ++ ['"']))

theorem readUnit?_append (h : IsUnit digits n) (rest : List Char) :
    readUnit? (digits ++ rest) = some (n, rest) := by
  obtain ⟨hlength, hall, rfl⟩ := h
  match digits, hlength with
  | [d₁, d₂, d₃, d₄], _ =>
    simp only [List.all_cons, Bool.and_eq_true] at hall
    obtain ⟨h₁, h₂, h₃, h₄, -⟩ := hall
    simp only [readUnit?, hexDigit?, h₁, h₂, h₃, h₄, List.cons_append, List.nil_append, if_true,
      Option.bind_eq_bind, Option.bind_some, Option.pure_def, List.map_cons, List.map_nil,
      List.reverse_cons, List.reverse_nil, Nat.ofDigits_cons, Nat.ofDigits_nil]
    congr 2
    omega

/-- A character that is not written by two surrogates is none. -/
theorem not_isSurrogate (c : Char) : ¬(0xD800 ≤ c.toNat ∧ c.toNat < 0xDC00) := by
  have valid : c.toNat.isValidChar := c.valid
  unfold Nat.isValidChar at valid
  omega

theorem namedEscape?_of_mem_escapes :
    ∀ escape ∈ escapes, escape.1 ≠ 'u' ∧ namedEscape? escape.1 = some escape.2 := by decide

/-- A character is read from each of the ways to write it. -/
theorem readChar?_of_isChar (h : IsChar c t) (rest : List Char) :
    readChar? (t ++ rest) = some (c, rest) := by
  cases h with
  | itself hquote hback hcontrol =>
    have hnot : ¬c < ' ' := Char.not_lt.2 hcontrol
    simp [readChar?, hquote, hback, hnot]
  | named h =>
    obtain ⟨hu, hread⟩ := namedEscape?_of_mem_escapes _ h
    simp only at hu hread
    simp [readChar?, hu, hread]
  | unit h =>
    have hscalar : Reference.scalar? c.toNat = some c := Reference.scalar?_eq_some_iff.2 rfl
    simp [readChar?, readNumbered?, readUnit?_append h, not_isSurrogate c, hscalar]
  | surrogates h h' hhigh hlow hc =>
    have hscalar := Reference.scalar?_eq_some_iff.2 hc
    simp [readChar?, readNumbered?, readUnit?_append h, readUnit?_append h', hhigh, ofSurrogates?,
      hlow, hscalar]

theorem readString?_of_readChar? {s : List Char} (h : readChar? s = some (c, rest)) :
    readString? s = (readString? rest).map fun r => (c :: r.1, r.2) := by
  have hquote : s.head? ≠ some '"' := by
    intro hs
    obtain ⟨more, rfl⟩ := List.head?_eq_some_iff.1 hs
    simp [readChar?] at h
  rw [readString?, if_neg hquote]
  split <;> simp_all

/-- A string is read after its opening quote from each of the ways to write it. -/
theorem readString?_of_isChar {s : List Char} {pieces : List (List Char)}
    (h : List.Forall₂ IsChar s pieces) (rest : List Char) :
    readString? (pieces.flatten ++ '"' :: rest) = some (s, rest) := by
  induction h with
  | nil => simp [readString?]
  | cons hc _ ih =>
    have hread := readChar?_of_isChar hc
    rw [List.flatten_cons, List.append_assoc, readString?_of_readChar? (hread _), ih]
    rfl

end Strings

/-! ### White space and what ends a value -/

/-- A text of white space only. -/
def IsBlank (s : List Char) : Prop := ∀ c ∈ s, isSpace c = true

instance (s : List Char) : Decidable (IsBlank s) :=
  List.decidableBAll (fun c => isSpace c = true) s

theorem IsBlank.skipSpace_append {b : List Char} (h : IsBlank b) (s : List Char) :
    skipSpace (b ++ s) = skipSpace s :=
  List.dropWhile_append_of_pos h

/-- A text that can stand after a value. -/
def EndsValue (rest : List Char) : Prop :=
  ∀ c ∈ rest.head?, isSpace c = true ∨ c = ',' ∨ c = ']' ∨ c = '\x7d'

theorem EndsValue.endsNumber (h : EndsValue rest) : Numeral.EndsNumber rest := by
  intro c hc
  rcases h c hc with hspace | rfl | rfl | rfl
  · simp only [isSpace, Bool.or_eq_true, beq_iff_eq] at hspace
    rcases hspace with ((rfl | rfl) | rfl) | rfl <;> decide
  all_goals decide

theorem endsValue_append {b : List Char} {c : Char} (h : IsBlank b)
    (hc : c = ',' ∨ c = ']' ∨ c = '\x7d') (s : List Char) : EndsValue (b ++ c :: s) := by
  intro d hd
  cases b with
  | nil =>
    obtain rfl : c = d := Option.some.inj hd
    exact .inr hc
  | cons e b =>
    obtain rfl : e = d := Option.some.inj hd
    exact .inl (h e List.mem_cons_self)

/-! ### Rows of items -/

section Rows

variable {α : Type} {read : List Char → Option (α × List Char)} {writes : α → List Char → Prop}
  {close : Char} {items : List α} {s t : List Char}

/-- The ways to write items one after the other, with commas between them and white space around
them. -/
inductive IsRow (writes : α → List Char → Prop) : List α → List Char → Prop
  | empty {b : List Char} (h : IsBlank b) : IsRow writes [] b
  | last {b b' t : List Char} {a : α} (h : IsBlank b) (ht : writes a t) (h' : IsBlank b') :
    IsRow writes [a] (b ++ (t ++ b'))
  | more {b b' t s : List Char} {a a' : α} {items : List α} (h : IsBlank b) (ht : writes a t)
    (h' : IsBlank b') (hs : IsRow writes (a' :: items) s) :
    IsRow writes (a :: a' :: items) (b ++ (t ++ (b' ++ ',' :: s)))

/-- An item is read back after any white space, however it was written. It does not begin with
white space, nor with the character that ends the row. -/
structure ReadsBack (read : List Char → Option (α × List Char)) (writes : α → List Char → Prop)
    (close : Char) (a : α) : Prop where
  begins : ∀ {t}, writes a t → ∃ c cs, t = c :: cs ∧ isSpace c = false ∧ c ≠ close
  reads : ∀ {s t rest}, writes a t → EndsValue rest → skipSpace s = t ++ rest →
    read s = some (a, rest)

theorem ReadsBack.skipSpace_append {a : α} (h : ReadsBack read writes close a) (ht : writes a t)
    (rest : List Char) : skipSpace (t ++ rest) = t ++ rest := by
  obtain ⟨c, cs, rfl, hspace, -⟩ := h.begins ht
  exact skipSpace_of_not hspace _

/-- Behind white space a row begins with its first item, and not with the character that ends it. -/
theorem ReadsBack.exists_skipSpace_eq {a : α} {b : List Char} (h : ReadsBack read writes close a)
    (hb : IsBlank b) (ht : writes a t) (rest : List Char) :
    ∃ c cs, skipSpace (b ++ (t ++ rest)) = c :: cs ∧ c ≠ close := by
  rw [hb.skipSpace_append, h.skipSpace_append ht]
  obtain ⟨c, cs, rfl, -, hc⟩ := h.begins ht
  exact ⟨c, _, rfl, hc⟩

/-- A row has no more items than a bound that the reader takes from its length. -/
theorem IsRow.length_le (h : IsRow writes items s) : items.length ≤ s.length + 1 := by
  induction h with
  | empty => simp
  | last => simp
  | more h ht h' hs ih =>
    simp only [List.length_cons, List.length_append] at ih ⊢
    omega

/-- A row of one item or more is read back, up to and with the character that ends it. -/
theorem readItems?_of_isRow (hspace : isSpace close = false) (hclose : close = ']' ∨ close = '\x7d')
    (rest : List Char) (hrow : IsRow writes items s) (hitems : items ≠ [])
    (h : ∀ a ∈ items, ReadsBack read writes close a) :
    ∀ {bound : Nat} {text : List Char}, items.length ≤ bound →
      skipSpace text = skipSpace (s ++ close :: rest) →
      readItems? read close bound text = some (items, rest) := by
  induction hrow with
  | empty => exact absurd rfl hitems
  | @last b b' t a hb ht hb' =>
    intro bound text hbound htext
    obtain ⟨bound, rfl⟩ := Nat.exists_eq_succ_of_ne_zero (Nat.ne_zero_of_lt hbound)
    have ha := h a List.mem_cons_self
    have hends : EndsValue (b' ++ close :: rest) := endsValue_append hb' (.inr hclose) rest
    have hread : read text = some (a, b' ++ close :: rest) := by
      refine ha.reads ht hends ?_
      rw [htext, List.append_assoc, hb.skipSpace_append, List.append_assoc,
        ha.skipSpace_append ht]
    have hcomma : close ≠ ',' := by rcases hclose with rfl | rfl <;> decide
    simp [readItems?, hread, hb'.skipSpace_append, skipSpace_of_not hspace, hcomma]
  | @more b b' t s a a' items hb ht hb' hs ih =>
    intro bound text hbound htext
    obtain ⟨bound, rfl⟩ := Nat.exists_eq_succ_of_ne_zero (Nat.ne_zero_of_lt hbound)
    have ha := h a List.mem_cons_self
    have hends : EndsValue (b' ++ ',' :: (s ++ close :: rest)) :=
      endsValue_append hb' (.inl rfl) _
    have hread : read text = some (a, b' ++ ',' :: (s ++ close :: rest)) := by
      refine ha.reads ht hends ?_
      rw [htext, List.append_assoc, hb.skipSpace_append]
      simp only [List.append_assoc, List.cons_append]
      rw [ha.skipSpace_append ht]
    have hmore : readItems? read close bound (s ++ close :: rest) = some (a' :: items, rest) :=
      ih (List.cons_ne_nil _ _) (fun x hx => h x (List.mem_cons_of_mem _ hx))
        (Nat.le_of_succ_le_succ hbound) rfl
    have hcomma : isSpace ',' = false := rfl
    simp [readItems?, hread, hb'.skipSpace_append, skipSpace_of_not hcomma, hmore]

/-- A row of any length is read back after the character that opens it. -/
theorem readAll?_of_isRow (hspace : isSpace close = false) (hclose : close = ']' ∨ close = '\x7d')
    (rest : List Char) (hrow : IsRow writes items s)
    (h : ∀ a ∈ items, ReadsBack read writes close a) :
    readAll? read close (s ++ close :: rest) = some (items, rest) := by
  have nonempty : items ≠ [] →
      (∃ c cs, skipSpace (s ++ close :: rest) = c :: cs ∧ c ≠ close) →
      readAll? read close (s ++ close :: rest) = some (items, rest) := by
    rintro hitems ⟨c, cs, hskip, hc⟩
    have hbound : items.length ≤ (s ++ close :: rest).length := by
      have := hrow.length_le
      simp only [List.length_append, List.length_cons]
      omega
    have hagain : skipSpace (c :: cs) = skipSpace (s ++ close :: rest) := by
      rw [← hskip]
      exact List.dropWhile_idempotent ..
    rw [readAll?, hskip]
    simp only [hc, if_false]
    exact readItems?_of_isRow hspace hclose rest hrow hitems h hbound hagain
  cases hrow with
  | empty hb => simp [readAll?, hb.skipSpace_append, skipSpace_of_not hspace]
  | last hb ht hb' =>
    refine nonempty (List.cons_ne_nil _ _) ?_
    simpa only [List.append_assoc] using (h _ List.mem_cons_self).exists_skipSpace_eq hb ht _
  | more hb ht hb' hs =>
    refine nonempty (List.cons_ne_nil _ _) ?_
    simpa only [List.append_assoc] using (h _ List.mem_cons_self).exists_skipSpace_eq hb ht _

end Rows

/-! ### Values -/

mutual

/-- The ways to write a value. Its numbers are any of the grammar, those that no double can hold
included, and its strings are of characters, so that a surrogate is written in a pair only. -/
inductive IsText : Json → List Char → Prop
  | null : IsText null "null".toList
  | yes : IsText (bool true) "true".toList
  | no : IsText (bool false) "false".toList
  | number {n : Numeral} (h : n.IsValid) : IsText (number n) n.write
  | string {text : String} {t : List Char} (h : IsString text t) : IsText (string text) t
  | array {elements : List Json} {s : List Char} (h : IsRow IsText elements s) :
    IsText (array elements) ('[' :: (s ++ [']']))
  | object {members : List (String × Json)} {s : List Char} (h : IsRow IsMember members s) :
    IsText (object members) ('\x7b' :: (s ++ ['\x7d']))

/-- The ways to write a member of an object. -/
inductive IsMember : String × Json → List Char → Prop
  | colon {key : String} {value : Json} {k b b' t : List Char} (hkey : IsString key k)
    (h : IsBlank b) (h' : IsBlank b') (hvalue : IsText value t) :
    IsMember (key, value) (k ++ (b ++ ':' :: (b' ++ t)))

end

mutual

/-- Whether a double can hold each number in a value. -/
def fitsDoubles : Json → Bool
  | number n => n.fitsDouble
  | array elements => elementsFitDoubles elements
  | object members => membersFitDoubles members
  | null => true
  | bool _ => true
  | string _ => true

/-- Whether a double can hold each number among elements. -/
def elementsFitDoubles : List Json → Bool
  | [] => true
  | j :: js => j.fitsDoubles && elementsFitDoubles js

/-- Whether a double can hold each number among members. -/
def membersFitDoubles : List (String × Json) → Bool
  | [] => true
  | (_, j) :: ms => j.fitsDoubles && membersFitDoubles ms

end

/-- The first character of a number begins no other value, and no white space. -/
theorem numberHead {c : Char} (h : c.isDigit = true ∨ c = '-') :
    isSpace c = false ∧ c ≠ '"' ∧ c ≠ '[' ∧ c ≠ ']' ∧ c ≠ '\x7b' := by
  simp only [isSpace, Bool.or_eq_false_iff, beq_eq_false_iff_ne, and_assoc]
  refine ⟨?_, ?_, ?_, ?_, ?_, ?_, ?_, ?_⟩
  all_goals
    rintro rfl
    revert h
    decide

/-- A value begins with no white space, nor with the end of an array. -/
theorem IsText.begins {j : Json} {t : List Char} (h : IsText j t) :
    ∃ c cs, t = c :: cs ∧ isSpace c = false ∧ c ≠ ']' := by
  cases h with
  | null => exact ⟨_, _, rfl, rfl, by decide⟩
  | yes => exact ⟨_, _, rfl, rfl, by decide⟩
  | no => exact ⟨_, _, rfl, rfl, by decide⟩
  | string h => cases h; exact ⟨_, _, rfl, rfl, by decide⟩
  | array => exact ⟨_, _, rfl, rfl, by decide⟩
  | object => exact ⟨_, _, rfl, rfl, by decide⟩
  | number h =>
    obtain ⟨c, cs, hwrite, hc⟩ := Numeral.exists_write_eq_cons h
    obtain ⟨hspace, -, -, hbracket, -⟩ := numberHead hc
    exact ⟨c, cs, hwrite, hspace, hbracket⟩

/-- A number is read as a scalar. -/
theorem readScalar?_number {n : Numeral} (h : n.IsValid) (hfits : n.fitsDouble = true)
    (hr : Numeral.EndsNumber rest) :
    readScalar? (n.write ++ rest) = some (number n, rest) := by
  have hread := Numeral.read?_write h hr
  obtain ⟨c, cs, hwrite, hc⟩ := Numeral.exists_write_eq_cons h
  obtain ⟨hspace, hquote, -⟩ := numberHead hc
  rw [hwrite, List.cons_append] at hread ⊢
  simp [readScalar?, skipSpace_of_not hspace, hquote, hc, hread, hfits]

/-- A member is read back if its value is. -/
theorem readsBack_member {limit : Nat} {m : String × Json}
    (h : ∀ t rest, IsText m.2 t → EndsValue rest →
      readValue? limit (t ++ rest) = some (m.2, rest)) :
    ReadsBack (readMember? (readValue? limit)) IsMember '\x7d' m where
  begins := by
    rintro _ ⟨hkey, -, -, -⟩
    cases hkey
    exact ⟨_, _, rfl, rfl, by decide⟩
  reads := by
    rintro s _ rest ⟨hkey, hb, hb', hvalue⟩ hrest hs
    obtain ⟨hchars⟩ := hkey
    have colon : isSpace ':' = false := rfl
    rw [readMember?, hs]
    simp [readString?_of_isChar hchars, hb.skipSpace_append, skipSpace_of_not colon,
      readValue?_congr (hb'.skipSpace_append _), h _ _ hvalue hrest]

/-- A value is read back among the elements of an array if it is read back by itself. -/
theorem readsBack_element {limit : Nat} {j : Json}
    (h : ∀ t rest, IsText j t → EndsValue rest → readValue? limit (t ++ rest) = some (j, rest)) :
    ReadsBack (readValue? limit) IsText ']' j where
  begins := IsText.begins
  reads := by
    intro s t rest ht hrest hs
    obtain ⟨c, cs, rfl, hspace, -⟩ := ht.begins
    have hskip : skipSpace s = skipSpace (c :: cs ++ rest) := by
      rw [hs]
      exact (skipSpace_of_not hspace _).symm
    rw [readValue?_congr hskip, h _ _ ht hrest]

mutual

/-- A value is read back from each of its texts, if it is not nested deeper than the reader allows
and a double can hold its numbers. -/
theorem readValue?_of_isText (limit : Nat) : (j : Json) → j.nesting ≤ limit →
    j.fitsDoubles = true → ∀ t rest, IsText j t → EndsValue rest →
      readValue? limit (t ++ rest) = some (j, rest)
  | null, _, _, _, _, .null, _ => readValue?_of_scalar rfl (by decide) (by decide) rfl
  | bool true, _, _, _, _, .yes, _ => readValue?_of_scalar rfl (by decide) (by decide) rfl
  | bool false, _, _, _, _, .no, _ => readValue?_of_scalar rfl (by decide) (by decide) rfl
  | number n, _, hfits, _, rest, .number h, hrest => by
    have scalar := readScalar?_number h hfits hrest.endsNumber
    obtain ⟨c, cs, hwrite, hc⟩ := Numeral.exists_write_eq_cons h
    obtain ⟨hspace, -, hbracket, -, hbrace⟩ := numberHead hc
    rw [hwrite] at scalar ⊢
    exact readValue?_of_scalar hspace hbracket hbrace scalar
  | string text, _, _, _, rest, .string h, _ => by
    obtain ⟨hchars⟩ := h
    have quote : isSpace '"' = false := rfl
    refine readValue?_of_scalar quote (by decide) (by decide) ?_
    simp [readScalar?, skipSpace_of_not quote, readString?_of_isChar hchars]
  | array elements, hnesting, hfits, _, rest, .array h, _ => by
    obtain ⟨limit, rfl⟩ := Nat.exists_eq_succ_of_ne_zero (Nat.ne_zero_of_lt hnesting)
    have row := readAll?_of_isRow rfl (.inl rfl) rest h
      (readsBack_elements limit elements (Nat.le_of_succ_le_succ hnesting) hfits)
    have bracket : isSpace '[' = false := rfl
    simp [readValue?, skipSpace_of_not bracket, row]
  | object members, hnesting, hfits, _, rest, .object h, _ => by
    obtain ⟨limit, rfl⟩ := Nat.exists_eq_succ_of_ne_zero (Nat.ne_zero_of_lt hnesting)
    have row := readAll?_of_isRow rfl (.inr rfl) rest h
      (readsBack_members limit members (Nat.le_of_succ_le_succ hnesting) hfits)
    have brace : isSpace '\x7b' = false := rfl
    simp [readValue?, skipSpace_of_not brace, row]

theorem readsBack_elements (limit : Nat) : (js : List Json) → nestingOfElements js ≤ limit →
    elementsFitDoubles js = true → ∀ j ∈ js, ReadsBack (readValue? limit) IsText ']' j
  | [], _, _ => by simp
  | j :: js, h, hfits => by
    obtain ⟨hj, hjs⟩ := Nat.max_le.1 h
    obtain ⟨hfit, hfits⟩ := Bool.and_eq_true_iff.1 hfits
    exact List.forall_mem_cons.2 ⟨readsBack_element (readValue?_of_isText limit j hj hfit),
      readsBack_elements limit js hjs hfits⟩

theorem readsBack_members (limit : Nat) : (ms : List (String × Json)) →
    nestingOfMembers ms ≤ limit → membersFitDoubles ms = true →
    ∀ m ∈ ms, ReadsBack (readMember? (readValue? limit)) IsMember '\x7d' m
  | [], _, _ => by simp
  | (_, j) :: ms, h, hfits => by
    obtain ⟨hj, hms⟩ := Nat.max_le.1 h
    obtain ⟨hfit, hfits⟩ := Bool.and_eq_true_iff.1 hfits
    exact List.forall_mem_cons.2 ⟨readsBack_member (readValue?_of_isText limit j hj hfit),
      readsBack_members limit ms hms hfits⟩

end

end Json

end MarkupTree
