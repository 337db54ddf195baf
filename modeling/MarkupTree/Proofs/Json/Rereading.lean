import MarkupTree.Json.Pretty
import MarkupTree.Json.Reader
import Mathlib.Tactic.IntervalCases

/-!
# Reading what was written

The written form of a value is read back as the value, whatever follows it, as long as arrays and
objects are not nested deeper in it than the reader allows; else nothing is read
(`Json.readValue?_write`). This is an exact limit: the reader fails at the first array or object
that is too deep, and all that stands around it with it.

Numbers are left out. They are kept as they were written, so a number that no reader made need not
be one.

## Main definitions

* `Json.hasNumber` : whether there is a number in a value.
* `Json.Rereads` : a written item is read back, or is not read at all if it does not fit.

## Main results

* `Json.readString?_flatMap_writeChar` : strings.
* `Json.readAll?_written` : arrays and objects, from what is known of their items.
* `Json.readValue?_write` : values.
* `Json.parse?_pretty_append` : whole texts.
-/

namespace MarkupTree.Json

variable {s t rest : List Char}

/-! ### White space -/

theorem skipSpace_newline (depth : Nat) (s : List Char) :
    skipSpace (newline depth ++ s) = skipSpace s := by
  have blank : ∀ c ∈ newline depth, isSpace c = true := by
    intro c hc
    rcases List.mem_cons.1 hc with rfl | hc
    · rfl
    · rw [List.eq_of_mem_replicate hc]
      rfl
  exact List.dropWhile_append_of_pos blank

theorem skipSpace_of_not {c : Char} (h : isSpace c = false) (s : List Char) :
    skipSpace (c :: s) = c :: s :=
  List.dropWhile_cons_of_neg (by simp [h])

/-- A value is read after white space as it is without. -/
theorem readValue?_congr (h : skipSpace s = skipSpace t) (depth : Nat) :
    readValue? depth s = readValue? depth t := by
  cases depth with
  | zero => rw [readValue?, readValue?, readScalar?, readScalar?, h]
  | succ depth => rw [readValue?, readValue?, h]

/-! ### Strings -/

/-- Four digits are written for a control character, and its number is read from them. -/
theorem readUnit?_control {n : Nat} (h : n < 32) (rest : List Char) :
    readUnit? (List.replicate (4 - (Text.hexDigits n).length) '0' ++
        (Text.hexDigits n ++ rest)) = some (n, rest) := by
  interval_cases n <;> rfl

/-- Every character is read back as it is written in a string. -/
theorem readChar?_writeChar (c : Char) (rest : List Char) :
    readChar? (writeChar c ++ rest) = some (c, rest) := by
  unfold writeChar
  split_ifs with hquote hback hb hf hn hr ht hcontrol
  case pos => subst hquote; rfl
  case pos => subst hback; rfl
  case pos => subst hb; rfl
  case pos => subst hf; rfl
  case pos => subst hn; rfl
  case pos => subst hr; rfl
  case pos => subst ht; rfl
  case pos =>
    have small : c.toNat < 32 := hcontrol
    have noSurrogate : ¬(0xD800 ≤ c.toNat ∧ c.toNat < 0xDC00) := by omega
    have valid : c.toNat.isValidChar := c.valid
    have scalar : Reference.scalar? c.toNat = some c := by
      rw [Reference.scalar?, dif_pos valid]
      rfl
    simp only [readChar?, readNumbered?, List.cons_append, List.append_assoc,
      readUnit?_control small, noSurrogate, scalar, if_true, if_false, Option.map_some]
  case neg => simp [readChar?, hquote, hback, hcontrol]

/-- What is written for a character does not begin with a quote, which would end the string. -/
theorem head?_writeChar_append (c : Char) (rest : List Char) :
    (writeChar c ++ rest).head? ≠ some '"' := by
  intro h
  obtain ⟨more, hmore⟩ := List.head?_eq_some_iff.1 h
  have := readChar?_writeChar c rest
  rw [hmore] at this
  simp [readChar?] at this

/-- A string is read back after its opening quote, up to and with its closing quote. -/
theorem readString?_flatMap_writeChar (text rest : List Char) :
    readString? (text.flatMap writeChar ++ '"' :: rest) = some (text, rest) := by
  induction text with
  | nil => simp [readString?]
  | cons c text ih =>
    rw [List.flatMap_cons, List.append_assoc, readString?, if_neg (head?_writeChar_append c _)]
    split
    · next h => simp [readChar?_writeChar] at h
    · next d more h =>
      rw [readChar?_writeChar] at h
      cases h
      simp [ih]

/-! ### Rows of items -/

section Items

variable {α : Type} {read : List Char → Option (α × List Char)}
  {put : α → List Char → List Char} {fits : α → Bool} {close : Char}

/-- A written item `item` is read back after any white space if it fits, and is not read if it does
not. It does not begin with white space, nor with the character that ends the row. -/
structure Rereads (read : List Char → Option (α × List Char)) (put : α → List Char → List Char)
    (fits : α → Bool) (close : Char) (item : α) : Prop where
  begins : ∀ rest, ∃ c more, put item rest = c :: more ∧ isSpace c = false ∧ c ≠ close
  grows : ∀ rest, rest.length ≤ (put item rest).length
  reads : ∀ s rest, skipSpace s = put item rest →
    read s = if fits item then some (item, rest) else none

/-- The items of a row after its first, each on a line of its own after a comma. -/
def writeItems (put : α → List Char → List Char) (depth : Nat) (items : List α)
    (rest : List Char) : List Char :=
  items.foldr (fun item rest => ',' :: newline depth ++ put item rest) rest

theorem Rereads.skipSpace_put {item : α} (h : Rereads read put fits close item)
    (rest : List Char) : skipSpace (put item rest) = put item rest := by
  obtain ⟨c, more, hc, hspace, -⟩ := h.begins rest
  rw [hc, skipSpace_of_not hspace]

theorem length_le_writeItems {items : List α} (depth : Nat)
    (h : ∀ item ∈ items, Rereads read put fits close item) (rest : List Char) :
    items.length + rest.length ≤ (writeItems put depth items rest).length := by
  induction items with
  | nil => simp [writeItems]
  | cons item items ih =>
    have hitem := (h item List.mem_cons_self).grows (writeItems put depth items rest)
    have hitems := ih fun other hother => h other (List.mem_cons_of_mem _ hother)
    simp only [writeItems, List.foldr_cons, List.length_cons, List.length_append] at *
    omega

/-- A row is read back if all of its items fit, and is not read if one does not. -/
theorem readItems?_written (hclose : isSpace close = false) (hcomma : close ≠ ',')
    (inner outer : Nat) (rest : List Char) :
    ∀ {items : List α} {first : α} {bound : Nat} {s : List Char},
      (∀ item ∈ first :: items, Rereads read put fits close item) → items.length < bound →
      skipSpace s = put first (writeItems put inner items (newline outer ++ close :: rest)) →
      readItems? read close bound s =
        if (first :: items).all fits then some (first :: items, rest) else none
  | [], first, bound + 1, s, h, _, hs => by
    rw [readItems?, (h first List.mem_cons_self).reads s _ hs]
    by_cases hfits : fits first
    · simp [hfits, writeItems, skipSpace_newline, skipSpace_of_not hclose, hcomma]
    · simp [hfits]
  | second :: items, first, bound + 1, s, h, hbound, hs => by
    have hsecond := h second (by simp)
    have tail := readItems?_written hclose hcomma inner outer rest
      (s := newline inner ++ put second (writeItems put inner items
        (newline outer ++ close :: rest)))
      (fun item hitem => h item (List.mem_cons_of_mem _ hitem)) (Nat.lt_of_succ_lt_succ hbound)
      (by rw [skipSpace_newline, hsecond.skipSpace_put])
    rw [readItems?, (h first List.mem_cons_self).reads s _ hs]
    by_cases hfits : fits first
    · have comma : isSpace ',' = false := rfl
      simp only [hfits, if_true, writeItems, List.foldr_cons, List.cons_append,
        skipSpace_of_not comma] at tail ⊢
      rw [tail]
      by_cases hall : (second :: items).all fits <;> simp_all
    · simp [hfits]

/-- Between the characters that open and close it, a row of any length is read back if all of its
items fit, and is not read if one does not. -/
theorem readAll?_written (hclose : isSpace close = false) (hcomma : close ≠ ',')
    (inner outer : Nat) {first : α} {items : List α} (rest : List Char)
    (h : ∀ item ∈ first :: items, Rereads read put fits close item) :
    readAll? read close (newline inner ++
        put first (writeItems put inner items (newline outer ++ close :: rest))) =
      if (first :: items).all fits then some (first :: items, rest) else none := by
  have hfirst := h first List.mem_cons_self
  set text := put first (writeItems put inner items (newline outer ++ close :: rest)) with htext
  obtain ⟨c, more, hc, -, hne⟩ := hfirst.begins (writeItems put inner items
    (newline outer ++ close :: rest))
  rw [← htext] at hc
  have hskip : skipSpace (newline inner ++ text) = c :: more := by
    rw [skipSpace_newline, htext, hfirst.skipSpace_put, ← htext, hc]
  have hlength : items.length < (newline inner ++ text).length := by
    have h₁ := length_le_writeItems inner (fun item hitem => h item (List.mem_cons_of_mem _ hitem))
      (newline outer ++ close :: rest)
    have h₂ := hfirst.grows (writeItems put inner items (newline outer ++ close :: rest))
    rw [← htext] at h₂
    simp only [List.length_append, List.length_cons] at *
    omega
  rw [readAll?, hskip]
  simp only [hne, if_false]
  refine readItems?_written hclose hcomma inner outer rest h hlength ?_
  rw [← hc, htext, hfirst.skipSpace_put]

end Items

/-! ### Values -/

mutual

/-- Whether there is a number in a value. -/
def hasNumber : Json → Bool
  | number _ => true
  | array elements => anyHasNumber elements
  | object members => anyMemberHasNumber members
  | null => false
  | bool _ => false
  | string _ => false

/-- Whether there is a number in any element. -/
def anyHasNumber : List Json → Bool
  | [] => false
  | j :: js => j.hasNumber || anyHasNumber js

/-- Whether there is a number in any member. -/
def anyMemberHasNumber : List (String × Json) → Bool
  | [] => false
  | (_, j) :: ms => j.hasNumber || anyMemberHasNumber ms

end

/-- The written form of a member, before a text. -/
def writeMember (depth : Nat) (member : String × Json) (rest : List Char) : List Char :=
  writeKey member.1 ++ write depth member.2 rest

theorem writeElements_eq (depth : Nat) (elements : List Json) (rest : List Char) :
    writeElements depth elements rest = writeItems (write depth) depth elements rest := by
  induction elements with
  | nil => rfl
  | cons j js ih => simp [writeElements, writeItems, ih]

theorem writeMembers_eq (depth : Nat) (members : List (String × Json)) (rest : List Char) :
    writeMembers depth members rest = writeItems (writeMember depth) depth members rest := by
  induction members with
  | nil => rfl
  | cons m ms ih => simp [writeMembers, writeItems, writeMember, ih]

theorem all_nesting_le (limit : Nat) (elements : List Json) :
    elements.all (fun j => decide (j.nesting ≤ limit)) =
      decide (nestingOfElements elements ≤ limit) := by
  induction elements with
  | nil => simp [nestingOfElements]
  | cons j js ih => simp only [List.all_cons, ih, nestingOfElements, Nat.max_le, Bool.decide_and]

theorem all_nesting_snd_le (limit : Nat) (members : List (String × Json)) :
    members.all (fun m => decide (m.2.nesting ≤ limit)) =
      decide (nestingOfMembers members ≤ limit) := by
  induction members with
  | nil => simp [nestingOfMembers]
  | cons m ms ih => simp only [List.all_cons, ih, nestingOfMembers, Nat.max_le, Bool.decide_and]

/-- A value that is no number begins with no white space, nor with the end of an array. -/
theorem write_begins (depth : Nat) {j : Json} (h : j.hasNumber = false) (rest : List Char) :
    ∃ c more, write depth j rest = c :: more ∧ isSpace c = false ∧ c ≠ ']' := by
  cases j with
  | null => exact ⟨_, _, rfl, rfl, by decide⟩
  | bool value => cases value <;> exact ⟨_, _, rfl, rfl, by decide⟩
  | number n => simp [hasNumber] at h
  | string text => exact ⟨_, _, rfl, rfl, by decide⟩
  | array elements => cases elements <;> exact ⟨_, _, rfl, rfl, by decide⟩
  | object members => cases members <;> exact ⟨_, _, rfl, rfl, by decide⟩

mutual

/-- What stands after a value is no part of its written form. -/
theorem write_append (depth : Nat) : (j : Json) → (rest more : List Char) →
    write depth j (rest ++ more) = write depth j rest ++ more
  | null, _, _ => rfl
  | bool true, _, _ => rfl
  | bool false, _, _ => rfl
  | number _, _, _ => by simp [write]
  | string _, _, _ => by simp [write]
  | array [], _, _ => rfl
  | array (j :: js), rest, more => by
    have tail := writeElements_append (depth + 1) js (newline depth ++ ']' :: rest) more
    rw [List.append_assoc, List.cons_append] at tail
    rw [write, write, tail, write_append (depth + 1) j, List.append_assoc]
  | object [], _, _ => rfl
  | object ((_, j) :: ms), rest, more => by
    have tail := writeMembers_append (depth + 1) ms (newline depth ++ '\x7d' :: rest) more
    rw [List.append_assoc, List.cons_append] at tail
    rw [write, write, tail, write_append (depth + 1) j]
    simp only [List.append_assoc]

theorem writeElements_append (depth : Nat) : (js : List Json) → (rest more : List Char) →
    writeElements depth js (rest ++ more) = writeElements depth js rest ++ more
  | [], _, _ => rfl
  | j :: js, rest, more => by
    rw [writeElements, writeElements, writeElements_append depth js, write_append depth j,
      List.append_assoc]

theorem writeMembers_append (depth : Nat) : (ms : List (String × Json)) →
    (rest more : List Char) →
    writeMembers depth ms (rest ++ more) = writeMembers depth ms rest ++ more
  | [], _, _ => rfl
  | (_, j) :: ms, rest, more => by
    rw [writeMembers, writeMembers, writeMembers_append depth ms, write_append depth j]
    simp only [List.append_assoc]

end

theorem length_le_write (depth : Nat) (j : Json) (rest : List Char) :
    rest.length ≤ (write depth j rest).length := by
  have := write_append depth j [] rest
  rw [List.nil_append] at this
  simp [this]

/-- A scalar is read back whatever the limit on nesting. -/
theorem readValue?_of_scalar {depth : Nat} {c : Char} {value : Json × List Char}
    (hspace : isSpace c = false) (harray : c ≠ '[') (hobject : c ≠ '\x7b')
    (h : readScalar? (c :: s) = some value) : readValue? depth (c :: s) = some value := by
  cases depth with
  | zero => exact h
  | succ depth =>
    rw [readValue?, skipSpace_of_not hspace]
    split
    · next he => exact absurd (List.cons.inj he).1 harray
    · next he => exact absurd (List.cons.inj he).1 hobject
    · exact h

/-- A key, its colon and the value that follow each other are read as a member if the value is
read. -/
theorem readMember?_writeMember (read : List Char → Option (Json × List Char)) (depth : Nat)
    (member : String × Json) (rest : List Char) (h : skipSpace s = writeMember depth member rest) :
    readMember? read s =
      (read (' ' :: write depth member.2 rest)).map fun r => ((member.1, r.1), r.2) := by
  have colon : isSpace ':' = false := rfl
  rw [readMember?, h]
  simp only [writeMember, writeKey, writeString, List.cons_append, List.append_assoc,
    List.nil_append, readString?_flatMap_writeChar, Option.bind_some]
  rw [show (": ".toList ++ write depth member.2 rest) = ':' :: ' ' :: write depth member.2 rest
    from rfl, skipSpace_of_not colon]
  simp

/-- Neither an array nor an object is a scalar. -/
theorem readScalar?_bracket (s : List Char) : readScalar? ('[' :: s) = none := rfl

theorem readScalar?_brace (s : List Char) : readScalar? ('\x7b' :: s) = none := rfl

/-- A value is read back among the elements of an array if it is read back by itself. -/
theorem rereads_write {limit depth : Nat} {j : Json} (hj : j.hasNumber = false)
    (h : ∀ rest, readValue? limit (write depth j rest) =
      if j.nesting ≤ limit then some (j, rest) else none) :
    Rereads (readValue? limit) (write depth) (fun j => decide (j.nesting ≤ limit)) ']' j where
  begins := write_begins depth hj
  grows := length_le_write depth j
  reads s rest hs := by
    obtain ⟨c, more, hc, hspace, -⟩ := write_begins depth hj rest
    have skipped : skipSpace s = skipSpace (write depth j rest) := by
      rw [hs, hc, skipSpace_of_not hspace]
    simp only [readValue?_congr skipped, h rest, decide_eq_true_eq]

/-- A member is read back among the members of an object if its value is read back by itself. -/
theorem rereads_writeMember {limit depth : Nat} {key : String} {j : Json}
    (h : ∀ rest, readValue? limit (write depth j rest) =
      if j.nesting ≤ limit then some (j, rest) else none) :
    Rereads (readMember? (readValue? limit)) (writeMember depth)
      (fun m => decide (m.2.nesting ≤ limit)) '\x7d' (key, j) where
  begins rest := ⟨_, _, rfl, rfl, by decide⟩
  grows rest := (length_le_write depth j rest).trans (List.suffix_append _ _).length_le
  reads s rest hs := by
    have skipped : skipSpace (' ' :: write depth j rest) = skipSpace (write depth j rest) := rfl
    rw [readMember?_writeMember _ depth _ rest hs, readValue?_congr skipped, h rest]
    by_cases hfits : j.nesting ≤ limit <;> simp [hfits]

mutual

/-- A value is read back, whatever follows it, if it is not nested deeper than the reader allows,
and is not read at all if it is. -/
theorem readValue?_write (limit depth : Nat) : (j : Json) → j.hasNumber = false →
    (rest : List Char) →
    readValue? limit (write depth j rest) = if j.nesting ≤ limit then some (j, rest) else none
  | null, _, _ => readValue?_of_scalar rfl (by decide) (by decide) rfl
  | bool true, _, _ => readValue?_of_scalar rfl (by decide) (by decide) rfl
  | bool false, _, _ => readValue?_of_scalar rfl (by decide) (by decide) rfl
  | number _, h, _ => by simp [hasNumber] at h
  | string text, _, rest => by
    have quote : isSpace '"' = false := rfl
    have scalar : readScalar? (writeString text ++ rest) = some (string text, rest) := by
      simp [readScalar?, writeString, skipSpace_of_not quote, readString?_flatMap_writeChar]
    exact readValue?_of_scalar quote (by decide) (by decide) scalar
  | array [], _, rest => by
    cases limit with
    | zero => rfl
    | succ limit => simp [write, readValue?, readAll?, nesting, nestingOfElements,
        skipSpace_of_not (show isSpace '[' = false from rfl),
        skipSpace_of_not (show isSpace ']' = false from rfl)]
  | array (j :: js), h, rest => by
    have bracket : isSpace '[' = false := rfl
    rw [write, writeElements_eq]
    cases limit with
    | zero => simp [readValue?, readScalar?_bracket, nesting]
    | succ limit =>
      have row := readAll?_written rfl (by decide) (depth + 1) depth rest
        (rereads_elements limit (depth + 1) (j :: js) h)
      rw [all_nesting_le] at row
      rw [readValue?]
      simp only [List.cons_append, skipSpace_of_not bracket]
      rw [row]
      by_cases hfits : nestingOfElements (j :: js) ≤ limit <;> simp [nesting, hfits]
  | object [], _, rest => by
    cases limit with
    | zero => rfl
    | succ limit => simp [write, readValue?, readAll?, nesting, nestingOfMembers,
        skipSpace_of_not (show isSpace '\x7b' = false from rfl),
        skipSpace_of_not (show isSpace '\x7d' = false from rfl)]
  | object ((key, j) :: ms), h, rest => by
    have brace : isSpace '\x7b' = false := rfl
    rw [write, writeMembers_eq]
    cases limit with
    | zero => simp [readValue?, readScalar?_brace, nesting]
    | succ limit =>
      have row := readAll?_written rfl (by decide) (depth + 1) depth rest
        (rereads_members limit (depth + 1) ((key, j) :: ms) h)
      rw [all_nesting_snd_le] at row
      rw [readValue?]
      simp only [List.cons_append, List.append_assoc, skipSpace_of_not brace]
      rw [writeMember] at row
      rw [row]
      by_cases hfits : nestingOfMembers ((key, j) :: ms) ≤ limit <;> simp [nesting, hfits]

theorem rereads_elements (limit depth : Nat) : (js : List Json) → anyHasNumber js = false →
    ∀ j ∈ js, Rereads (readValue? limit) (write depth) (fun j => decide (j.nesting ≤ limit)) ']' j
  | [], _ => by simp
  | j :: js, h => by
    obtain ⟨hj, hjs⟩ := Bool.or_eq_false_iff.1 h
    exact List.forall_mem_cons.2 ⟨rereads_write hj (readValue?_write limit depth j hj),
      rereads_elements limit depth js hjs⟩

theorem rereads_members (limit depth : Nat) : (ms : List (String × Json)) →
    anyMemberHasNumber ms = false →
    ∀ m ∈ ms, Rereads (readMember? (readValue? limit)) (writeMember depth)
      (fun m => decide (m.2.nesting ≤ limit)) '\x7d' m
  | [], _ => by simp
  | (_, j) :: ms, h => by
    obtain ⟨hj, hms⟩ := Bool.or_eq_false_iff.1 h
    exact List.forall_mem_cons.2 ⟨rereads_writeMember (readValue?_write limit depth j hj),
      rereads_members limit depth ms hms⟩

end

/-- A value is read back from its text, with white space after it or not, if it is not nested too
deep; else the text is refused. -/
theorem parse?_pretty_append {j : Json} (h : j.hasNumber = false) {blanks : String}
    (hblanks : skipSpace blanks.toList = []) :
    parse? (pretty j ++ blanks) = if j.nesting ≤ maxNesting then some j else none := by
  have text : (pretty j ++ blanks).toList = write 0 j blanks.toList := by
    rw [String.toList_append, pretty, String.toList_ofList, ← write_append, List.nil_append]
  rw [parse?, text, readValue?_write maxNesting 0 j h]
  by_cases hfits : j.nesting ≤ maxNesting <;> simp [hfits, hblanks]

end MarkupTree.Json
