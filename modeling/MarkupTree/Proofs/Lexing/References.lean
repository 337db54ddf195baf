import MarkupTree.Proofs.Lexing.Tiling
import Mathlib.Data.Nat.Digits.Defs
import Mathlib.Tactic.Ring

/-!
# Decoding as replacement

A text is decoded by one walk over it, which tries to read a reference after each ampersand and
steps over the ampersand alone if there is none. That walk replaces all references at once
(`decode_replaces`): each place of the text where a reference stands is replaced by its character,
all other characters stay, in their order, and no character that replaces a reference is looked at
again.

A reference is *delimited*: it starts at an ampersand, ends at a semicolon, and has neither between
them. So two references in a text are the same or lie apart, and the walk, which goes on behind each
reference that it finds, steps into none. The text can be cut before any ampersand, as no reference
goes on beyond it (`decode_append_amp`).

## Main definitions

* `Reference.IsReference` : the references, and the character that each stands for.
* `Reference.Occurrence` : a place of a text where a reference stands.
* `Reference.Piece` : a character that stays, or a reference with the character that replaces it.

## Main results

* `Reference.read?_eq_some_iff` : what is read after an ampersand is what a reference is.
* `Reference.Occurrence.eq_or_endsBefore` : references in a text do not overlap.
* `Reference.decode_append_amp`, `Reference.decode_occurrence` : decoding the parts of a text.
* `Reference.decode_replaces` : decoding replaces all references at once.
-/

namespace MarkupTree.Reference

/-! ### What a reference is -/

/-- The digits write the code point of the character, the most significant first. -/
structure IsNumeral (base : Base) (digits : List Char) (c : Char) : Prop where
  all : ∀ d ∈ digits, base.isDigit d = true
  value : c.toNat = Nat.ofDigits base.radix (digits.map digitValue).reverse

/-- The references, each with the character that it stands for. -/
inductive IsReference : List Char → Char → Prop
  | named {name : List Char} {c : Char} (h : (name, c) ∈ named) : IsReference ('&' :: name) c
  | decimal {digits : List Char} {c : Char} (h : IsNumeral .decimal digits c)
      (hl : 1 ≤ digits.length ∧ digits.length ≤ 7) :
      IsReference ('&' :: '#' :: (digits ++ [';'])) c
  | hexadecimal {x : Char} {digits : List Char} {c : Char} (hx : x = 'x' ∨ x = 'X')
      (h : IsNumeral .hexadecimal digits c) (hl : 1 ≤ digits.length ∧ digits.length ≤ 6) :
      IsReference ('&' :: '#' :: x :: (digits ++ [';'])) c

variable {s rest digits word : List Char} {c : Char} {base : Base}

/-! ### Reading one reference -/

theorem number_append (digits : List Char) (d : Char) :
    number base (digits ++ [d]) = number base digits * base.radix + digitValue d := by
  rw [number, List.foldl_append]
  rfl

theorem number_eq_ofDigits (base : Base) (digits : List Char) :
    number base digits = Nat.ofDigits base.radix (digits.map digitValue).reverse := by
  induction digits using List.reverseRecOn with
  | nil => rfl
  | append_singleton digits d ih =>
    rw [number_append, ih, List.map_append, List.map_singleton, List.reverse_append,
      List.reverse_singleton, List.singleton_append, Nat.ofDigits_cons]
    ring

theorem scalar?_eq_some_iff {n : Nat} : scalar? n = some c ↔ c.toNat = n := by
  constructor
  · intro h
    by_cases valid : n.isValidChar
    · rw [scalar?, dif_pos valid] at h
      cases h
      rfl
    · rw [scalar?, dif_neg valid] at h
      cases h
  · rintro rfl
    have valid : c.toNat.isValidChar := c.valid
    rw [scalar?, dif_pos valid]
    rfl

theorem isDigit_semicolon (base : Base) : base.isDigit ';' = false := by
  cases base <;> rfl

/-- The digits of a numeric reference are all up to its semicolon. -/
theorem readDigits?_eq_some_iff :
    readDigits? base s = some (c, rest) ↔
      ∃ digits, s = digits ++ ';' :: rest ∧ IsNumeral base digits c ∧
        1 ≤ digits.length ∧ digits.length ≤ base.maxDigits := by
  constructor
  · intro h
    have whole := List.takeWhile_append_dropWhile (p := base.isDigit) (l := s)
    have inside : ∀ d ∈ s.takeWhile base.isDigit, base.isDigit d = true :=
      fun _ => List.mem_takeWhile_imp
    unfold readDigits? at h
    generalize s.takeWhile base.isDigit = digits at h whole inside
    split at h
    · next heq =>
      split at h
      · next hl =>
        obtain ⟨d, hd, hrest⟩ := Option.map_eq_some_iff.1 h
        cases hrest
        rw [scalar?_eq_some_iff, number_eq_ofDigits] at hd
        exact ⟨_, by rw [← heq, whole], ⟨inside, hd⟩, hl⟩
      · cases h
    · cases h
  · rintro ⟨digits, rfl, ⟨inside, value⟩, hl⟩
    have stop := isDigit_semicolon base
    have semicolon : ¬base.isDigit ';' = true := by simp [stop]
    have character : scalar? (number base digits) = some c := by
      rw [scalar?_eq_some_iff, number_eq_ofDigits, value]
    unfold readDigits?
    rw [List.takeWhile_append_of_pos inside, List.dropWhile_append_of_pos inside,
      List.takeWhile_cons_of_neg semicolon, List.dropWhile_cons_of_neg semicolon,
      List.append_nil]
    simp [hl, character]

theorem readNamed?_eq_some_iff :
    readNamed? s = some (c, rest) ↔ ∃ name, s = name ++ rest ∧ (name, c) ∈ named := by
  constructor
  · intro h
    obtain ⟨⟨name, d⟩, hmem, hread⟩ := List.exists_of_findSome?_eq_some h
    obtain ⟨after, hafter, hrest⟩ := Option.map_eq_some_iff.1 hread
    cases hrest
    exact ⟨name, Text.after?_eq_some_iff.1 hafter, hmem⟩
  · rintro ⟨name, rfl, hmem⟩
    simp only [named, List.mem_cons, Prod.mk.injEq, List.not_mem_nil, or_false] at hmem
    rcases hmem with ⟨rfl, rfl⟩ | ⟨rfl, rfl⟩ | ⟨rfl, rfl⟩ | ⟨rfl, rfl⟩ | ⟨rfl, rfl⟩ | ⟨rfl, rfl⟩ <;>
      rfl

/-- After an ampersand a reference is read, whatever follows it. -/
theorem IsReference.read? (h : IsReference word c) (rest : List Char) :
    ∃ name, word = '&' :: name ∧ read? (name ++ rest) = some (c, rest) := by
  cases h with
  | @named name _ hmem =>
    refine ⟨name, rfl, ?_⟩
    rw [Reference.read?, readNamed?_eq_some_iff.2 ⟨name, rfl, hmem⟩, Option.some_or]
  | @decimal digits _ hn hl =>
    refine ⟨_, rfl, ?_⟩
    obtain ⟨d, ds, rfl⟩ := List.exists_cons_of_length_pos hl.1
    have digit : Base.decimal.isDigit d = true := hn.all d List.mem_cons_self
    have notSmall : d ≠ 'x' := by rintro rfl; cases digit
    have notCapital : d ≠ 'X' := by rintro rfl; cases digit
    have number : readDigits? .decimal ((d :: ds) ++ ';' :: rest) = some (c, rest) :=
      readDigits?_eq_some_iff.2 ⟨_, rfl, hn, hl⟩
    have unnamed (s : List Char) : readNamed? ('#' :: s) = none := rfl
    rw [Reference.read?, List.cons_append, unnamed, Option.none_or]
    simpa [readNumeric?, notSmall, notCapital] using number
  | @hexadecimal x digits _ hx hn hl =>
    refine ⟨_, rfl, ?_⟩
    have number : readDigits? .hexadecimal (digits ++ ';' :: rest) = some (c, rest) :=
      readDigits?_eq_some_iff.2 ⟨_, rfl, hn, hl⟩
    have unnamed (s : List Char) : readNamed? ('#' :: s) = none := rfl
    rw [Reference.read?, List.cons_append, unnamed, Option.none_or]
    rcases hx with rfl | rfl <;> simpa [readNumeric?] using number

/-- What is read after an ampersand is what a reference is. -/
theorem read?_eq_some_iff :
    read? s = some (c, rest) ↔ ∃ word, s = word ++ rest ∧ IsReference ('&' :: word) c := by
  constructor
  · intro h
    rw [read?, Option.or_eq_some_iff] at h
    rcases h with h | ⟨-, h⟩
    · obtain ⟨name, rfl, hmem⟩ := readNamed?_eq_some_iff.1 h
      exact ⟨name, rfl, .named hmem⟩
    · unfold readNumeric? at h
      split at h
      · obtain ⟨digits, rfl, hn, hl⟩ := readDigits?_eq_some_iff.1 h
        exact ⟨_, by simp, .hexadecimal (.inl rfl) hn hl⟩
      · obtain ⟨digits, rfl, hn, hl⟩ := readDigits?_eq_some_iff.1 h
        exact ⟨_, by simp, .hexadecimal (.inr rfl) hn hl⟩
      · obtain ⟨digits, rfl, hn, hl⟩ := readDigits?_eq_some_iff.1 h
        exact ⟨_, by simp, .decimal hn hl⟩
      · cases h
  · rintro ⟨word, rfl, h⟩
    obtain ⟨name, hname, hread⟩ := h.read? rest
    cases hname
    exact hread

/-- A reference stands for one character. -/
theorem IsReference.unique {d : Char} (h : IsReference word c) (h' : IsReference word d) :
    c = d := by
  obtain ⟨name, rfl, hread⟩ := h.read? []
  obtain ⟨name', hname, hread'⟩ := h'.read? []
  cases hname
  rw [hread] at hread'
  exact congrArg Prod.fst (Option.some.inj hread')

/-! ### References in a text -/

/-- A word that starts at an ampersand, ends at a semicolon, and has neither between them. -/
def IsDelimited (word : List Char) : Prop :=
  ∃ inner, word = '&' :: (inner ++ [';']) ∧ '&' ∉ inner ∧ ';' ∉ inner

theorem IsNumeral.notMem (h : IsNumeral base digits c) : '&' ∉ digits ∧ ';' ∉ digits := by
  constructor <;> intro hmem <;> have digit := h.all _ hmem <;> cases base <;> cases digit

theorem IsReference.isDelimited (h : IsReference word c) : IsDelimited word := by
  cases h with
  | @named name _ hmem =>
    have all : ∀ entry ∈ Reference.named, entry.1 = entry.1.dropLast ++ [';'] ∧
        '&' ∉ entry.1.dropLast ∧ ';' ∉ entry.1.dropLast := by decide
    obtain ⟨last, noAmp, noSemicolon⟩ := all _ hmem
    exact ⟨name.dropLast, congrArg ('&' :: ·) last, noAmp, noSemicolon⟩
  | @decimal digits _ hn =>
    obtain ⟨noAmp, noSemicolon⟩ := hn.notMem
    exact ⟨'#' :: digits, rfl, by simp [noAmp], by simp [noSemicolon]⟩
  | @hexadecimal x digits _ hx hn =>
    obtain ⟨noAmp, noSemicolon⟩ := hn.notMem
    refine ⟨'#' :: x :: digits, rfl, ?_, ?_⟩ <;> rcases hx with rfl | rfl <;>
      simp [noAmp, noSemicolon]

theorem IsReference.length_le (h : IsReference word c) : 4 ≤ word.length := by
  cases h with
  | named hmem =>
    have all : ∀ entry ∈ Reference.named, 3 ≤ entry.1.length := by decide
    exact Nat.succ_le_succ (all _ hmem)
  | decimal _ hl =>
    simp only [List.length_cons, List.length_append, List.length_nil]
    omega
  | hexadecimal _ _ hl =>
    simp only [List.length_cons, List.length_append, List.length_nil]
    omega

theorem IsReference.ne_nil (h : IsReference word c) : word ≠ [] :=
  List.ne_nil_of_length_pos (Nat.lt_of_lt_of_le (by decide) h.length_le)

/-- A delimited word that is read before an ampersand ends before it. -/
theorem prefix_of_append_amp {inner after before later : List Char} (h : '&' ∉ inner)
    (hs : inner ++ ';' :: after = before ++ '&' :: later) : inner ++ [';'] <+: before := by
  rcases List.append_eq_append_iff.1 hs with ⟨more, rfl, hmore⟩ | ⟨more, rfl, hmore⟩
  · cases more with
    | nil => cases hmore
    | cons d ds =>
      obtain ⟨rfl, rfl⟩ := List.cons.inj hmore
      exact ⟨ds, by simp⟩
  · cases more with
    | nil => cases hmore
    | cons d ds =>
      obtain ⟨rfl, -⟩ := List.cons.inj hmore
      exact absurd (by simp) h

/-- A reference that starts before an ampersand ends before it. -/
theorem IsReference.prefix_of_append_amp {after before later : List Char}
    (h : IsReference word c) (hs : word ++ after = before ++ '&' :: later) (hb : before ≠ []) :
    word <+: before := by
  obtain ⟨inner, rfl, hamp, -⟩ := h.isDelimited
  obtain ⟨d, ds, rfl⟩ := List.exists_cons_of_ne_nil hb
  simp only [List.cons_append, List.append_assoc, List.cons.injEq] at hs
  obtain ⟨rfl, hs⟩ := hs
  exact List.cons_prefix_cons.2 ⟨rfl, Reference.prefix_of_append_amp hamp hs⟩

/-- Two references that start at the same place are the same. -/
theorem IsReference.eq_of_append {word' after after' : List Char} {d : Char}
    (h : IsReference word c) (h' : IsReference word' d) (hs : word ++ after = word' ++ after') :
    word = word' ∧ after = after' ∧ c = d := by
  obtain ⟨name, rfl, hread⟩ := h.read? after
  obtain ⟨name', rfl, hread'⟩ := h'.read? after'
  have names : name ++ after = name' ++ after' := (List.cons.inj hs).2
  rw [names, hread'] at hread
  cases hread
  exact ⟨List.append_cancel_right hs, rfl, rfl⟩

/-- A place of a text where a reference stands. -/
structure Occurrence (s : List Char) where
  before : List Char
  word : List Char
  after : List Char
  char : Char
  whole : before ++ word ++ after = s
  isReference : IsReference word char

/-- The first reference ends before the second one starts. -/
def Occurrence.EndsBefore (o o' : Occurrence s) : Prop := o.before ++ o.word <+: o'.before

/-- Of two references in a text that start in this order, the first ends before the second, unless
they start at the same place. -/
theorem Occurrence.eq_or_endsBefore_of_order {o o' : Occurrence s}
    (h : o.before <+: o'.before) : o = o' ∨ o.EndsBefore o' := by
  obtain ⟨before, word, after, char, whole, isReference⟩ := o
  obtain ⟨before', word', after', char', whole', isReference'⟩ := o'
  obtain ⟨between, rfl⟩ : ∃ between, before ++ between = before' := h
  have same : word ++ after = between ++ (word' ++ after') := by
    rw [← whole, List.append_assoc, List.append_assoc, List.append_assoc] at whole'
    exact (List.append_cancel_left whole').symm
  by_cases hb : between = []
  · obtain rfl := hb
    obtain ⟨rfl, rfl, rfl⟩ := isReference.eq_of_append isReference' same
    left
    simp
  · right
    obtain ⟨inner, rfl, -, -⟩ := isReference'.isDelimited
    exact (List.prefix_append_right_inj before).2 (isReference.prefix_of_append_amp same hb)

/-- References in a text do not overlap. -/
theorem Occurrence.eq_or_endsBefore (o o' : Occurrence s) :
    o = o' ∨ o.EndsBefore o' ∨ o'.EndsBefore o := by
  have starts : o.before <+: s := ⟨o.word ++ o.after, by rw [← List.append_assoc, o.whole]⟩
  have starts' : o'.before <+: s := ⟨o'.word ++ o'.after, by rw [← List.append_assoc, o'.whole]⟩
  rcases List.prefix_or_prefix_of_prefix starts starts' with h | h
  · exact (eq_or_endsBefore_of_order h).imp_right .inl
  · exact (eq_or_endsBefore_of_order h).imp Eq.symm .inr

/-! ### Decoding the parts of a text -/

/-- A reference at the head of a text is replaced, and the walk goes on behind it. -/
theorem decode_append_of_isReference (h : IsReference word c) (after : List Char) :
    decode (word ++ after) = c :: decode after := by
  obtain ⟨name, rfl, hread⟩ := h.read? after
  exact decode_amp_of_read? hread

/-- No reference goes on beyond an ampersand, so a text can be cut there. -/
theorem decode_append_amp (s t : List Char) :
    decode (s ++ '&' :: t) = decode s ++ decode ('&' :: t) := by
  fun_induction decode s with
  | case1 => rfl
  | case2 cs d rest hread ih =>
    obtain ⟨word, rfl, h⟩ := read?_eq_some_iff.1 hread
    rw [← List.cons_append, List.append_assoc, decode_append_of_isReference h, ih,
      List.cons_append]
  | case3 cs hread ih =>
    -- What is no reference in the first part alone would have to end beyond the ampersand.
    have none : read? (cs ++ '&' :: t) = none := by
      refine Option.eq_none_iff_forall_not_mem.2 fun ⟨d, rest⟩ hsome => ?_
      obtain ⟨word, hword, h⟩ := read?_eq_some_iff.1 hsome
      have whole : ('&' :: word) ++ rest = ('&' :: cs) ++ '&' :: t :=
        congrArg ('&' :: ·) hword.symm
      obtain ⟨more, hmore⟩ := h.prefix_of_append_amp whole (List.cons_ne_nil _ _)
      have short := read?_eq_some_iff.2 ⟨word, (List.cons.inj hmore).2.symm, h⟩
      rw [hread] at short
      cases short
    rw [List.cons_append, decode_amp_of_none none, ih, List.cons_append]
  | case4 c cs hc ih => rw [List.cons_append, decode_cons_of_ne hc, ih, List.cons_append]

/-- A reference anywhere in a text is replaced. What stands before it and what follows it is decoded
as if there were nothing else, so its character is not looked at again. -/
theorem decode_occurrence (o : Occurrence s) :
    decode s = decode o.before ++ o.char :: decode o.after := by
  have here := decode_append_of_isReference o.isReference o.after
  obtain ⟨inner, hword, -, -⟩ := o.isReference.isDelimited
  calc decode s = decode (o.before ++ (o.word ++ o.after)) := by rw [← List.append_assoc, o.whole]
    _ = decode o.before ++ decode (o.word ++ o.after) := by rw [hword]; exact decode_append_amp _ _
    _ = decode o.before ++ o.char :: decode o.after := by rw [here]

/-! ### Pieces -/

/-- A piece of a text with the character that it becomes: a reference, or that character. -/
structure Piece where
  source : List Char
  char : Char
  valid : source = [char] ∨ IsReference source char

/-- A reference that occurs in a text is one of the pieces that make up the text, in its place. -/
def Occurrence.IsPieceOf (o : Occurrence s) (pieces : List Piece) : Prop :=
  ∃ first piece last, pieces = first ++ piece :: last ∧ first.flatMap Piece.source = o.before ∧
    piece.source = o.word ∧ piece.char = o.char

/-- A reference behind the first piece is one in what follows that piece. -/
theorem Occurrence.isPieceOf_cons (piece : Piece) {pieces : List Piece}
    (o : Occurrence (piece.source ++ s)) (later : ∀ o' : Occurrence s, o'.IsPieceOf pieces)
    (h : piece.source <+: o.before) : o.IsPieceOf (piece :: pieces) := by
  obtain ⟨before, hbefore⟩ := h
  have whole : before ++ o.word ++ o.after = s := by
    have := o.whole
    rw [← hbefore, List.append_assoc, List.append_assoc] at this
    rw [List.append_assoc]
    exact List.append_cancel_left this
  obtain ⟨first, p, last, rfl, hfirst, hp⟩ := later ⟨before, _, _, _, whole, o.isReference⟩
  refine ⟨piece :: first, p, last, rfl, ?_, hp⟩
  rw [List.flatMap_cons, hfirst, hbefore]

/-- A character that starts no reference stands before every reference. -/
theorem Occurrence.prefix_before {s : List Char} (o : Occurrence (c :: s))
    (h : c = '&' → read? s = none) : [c] <+: o.before := by
  have whole := o.whole
  cases hbefore : o.before with
  | nil =>
    obtain ⟨name, hname, hread⟩ := o.isReference.read? o.after
    rw [hbefore, hname, List.nil_append, List.cons_append] at whole
    obtain ⟨hc, hs⟩ := List.cons.inj whole
    rw [hs, h hc.symm] at hread
    cases hread
  | cons d before =>
    rw [hbefore] at whole
    rw [(List.cons.inj whole).1]
    exact ⟨before, rfl⟩

/-- A text is made of pieces, among them all references that occur in it, and it is decoded to their
characters. -/
theorem exists_pieces (s : List Char) :
    ∃ pieces : List Piece, pieces.flatMap Piece.source = s ∧ pieces.map Piece.char = decode s ∧
      ∀ o : Occurrence s, o.IsPieceOf pieces := by
  fun_induction decode s with
  | case1 =>
    refine ⟨[], rfl, rfl, fun o => ?_⟩
    have nothing : o.before ++ o.word = [] := (List.append_eq_nil_iff.1 o.whole).1
    exact absurd (List.append_eq_nil_iff.1 nothing).2 o.isReference.ne_nil
  | case2 cs d rest hread ih =>
    obtain ⟨word, rfl, h⟩ := read?_eq_some_iff.1 hread
    obtain ⟨pieces, rfl, hchars, hall⟩ := ih
    refine ⟨⟨'&' :: word, d, .inr h⟩ :: pieces, rfl, congrArg (d :: ·) hchars, fun o => ?_⟩
    rcases o.eq_or_endsBefore ⟨[], '&' :: word, _, d, rfl, h⟩ with rfl | hend | hend
    · exact ⟨[], _, pieces, rfl, rfl, rfl, rfl⟩
    · have nothing : o.before ++ o.word = [] := List.prefix_nil.1 hend
      exact absurd (List.append_eq_nil_iff.1 nothing).2 o.isReference.ne_nil
    · exact Occurrence.isPieceOf_cons ⟨'&' :: word, d, .inr h⟩ o hall hend
  | case3 cs hread ih =>
    obtain ⟨pieces, rfl, hchars, hall⟩ := ih
    refine ⟨⟨['&'], '&', .inl rfl⟩ :: pieces, rfl, congrArg ('&' :: ·) hchars, fun o => ?_⟩
    exact Occurrence.isPieceOf_cons ⟨['&'], '&', .inl rfl⟩ o hall (o.prefix_before fun _ => hread)
  | case4 c cs hc ih =>
    obtain ⟨pieces, rfl, hchars, hall⟩ := ih
    refine ⟨⟨[c], c, .inl rfl⟩ :: pieces, rfl, congrArg (c :: ·) hchars, fun o => ?_⟩
    exact Occurrence.isPieceOf_cons ⟨[c], c, .inl rfl⟩ o hall
      (o.prefix_before fun hamp => absurd hamp hc)

/-- No piece becomes longer. A reference takes four bytes at least, and no character takes more. -/
theorem Piece.utf8Size_le (piece : Piece) : piece.char.utf8Size ≤ byteSize piece.source := by
  rcases piece.valid with h | h
  · rw [h, byteSize, byteSize, Nat.add_zero]
  · exact (Char.utf8Size_le_four _).trans (h.length_le.trans (length_le_byteSize _))

theorem Piece.length_source_pos (piece : Piece) : 1 ≤ piece.source.length := by
  rcases piece.valid with h | h
  · rw [h, List.length_singleton]
  · exact Nat.le_trans (by decide) h.length_le

/-- The decoded text has no more characters than the text, and takes no more bytes. -/
theorem size_decode_le (s : List Char) :
    (decode s).length ≤ s.length ∧ byteSize (decode s) ≤ byteSize s := by
  obtain ⟨pieces, rfl, hchars, -⟩ := exists_pieces s
  rw [← hchars]
  clear hchars
  induction pieces with
  | nil => exact ⟨Nat.le_refl _, Nat.le_refl _⟩
  | cons piece pieces ih =>
    have chars := piece.length_source_pos
    have bytes := piece.utf8Size_le
    rw [List.map_cons, List.flatMap_cons, List.length_cons, List.length_append, byteSize,
      byteSize_append]
    omega

/-- A text with a reference becomes shorter. -/
theorem decode_ne_of_occurrence (o : Occurrence s) : decode s ≠ s := by
  intro h
  have before := (size_decode_le o.before).1
  have after := (size_decode_le o.after).1
  have word := o.isReference.length_le
  have decoded := congrArg List.length (decode_occurrence o)
  have whole := congrArg List.length o.whole
  rw [h] at decoded
  simp only [List.length_append, List.length_cons] at decoded whole
  omega

theorem decode_eq_self_iff : decode s = s ↔ IsEmpty (Occurrence s) := by
  constructor
  · exact fun h => ⟨fun o => decode_ne_of_occurrence o h⟩
  · rintro ⟨none⟩
    obtain ⟨pieces, rfl, hchars, -⟩ := exists_pieces s
    have single : ∀ piece ∈ pieces, piece.source = [piece.char] := by
      intro piece hpiece
      obtain ⟨first, last, rfl⟩ := List.append_of_mem hpiece
      refine piece.valid.resolve_right fun h => none
        ⟨first.flatMap Piece.source, piece.source, last.flatMap Piece.source, piece.char, ?_, h⟩
      rw [List.flatMap_append, List.flatMap_cons, List.append_assoc]
    rw [← hchars, List.flatMap_congr single, ← List.map_eq_flatMap]

/-- Decoding replaces all references in a text at once. They do not overlap. The text is made of
references and other characters, each becomes one character, and all references that occur in the
text are among them. What replaces a reference is not decoded again, together with what stands
around it or alone. The decoded text takes no more bytes than the text, it is empty only if the text
is, and it is the text itself exactly if no reference occurs there. -/
theorem decode_replaces (s : List Char) :
    (∀ o o' : Occurrence s, o = o' ∨ o.EndsBefore o' ∨ o'.EndsBefore o) ∧
    (∃ pieces : List Piece, pieces.flatMap Piece.source = s ∧ pieces.map Piece.char = decode s ∧
      ∀ o : Occurrence s, o.IsPieceOf pieces) ∧
    (∀ o : Occurrence s, decode s = decode o.before ++ o.char :: decode o.after) ∧
    (decoded s).utf8ByteSize ≤ (String.ofList s).utf8ByteSize ∧
    (decoded s = "" ↔ s = []) ∧
    (decoded s = String.ofList s ↔ IsEmpty (Occurrence s)) := by
  refine ⟨Occurrence.eq_or_endsBefore, exists_pieces s, decode_occurrence, ?_, ?_, ?_⟩
  · rw [decoded, utf8ByteSize_ofList, utf8ByteSize_ofList]
    exact (size_decode_le s).2
  · rw [decoded, String.ofList_eq_empty_iff]
    cases s with
    | nil => rw [decode_nil]
    | cons c cs => exact iff_of_false (decode_ne_nil c cs) (List.cons_ne_nil c cs)
  · rw [decoded, String.ofList_inj, decode_eq_self_iff]

end MarkupTree.Reference
