import MarkupTree.Markup.Lexeme
import Mathlib.Data.List.TakeWhile

/-!
# Writing markup

The pieces of markup are written in the plainest way: a text with its ampersands and its `<` as
references, an attribute after a space with its value between double quotes, a start tag without
anything else in it, an end tag without white space. Each piece has its law: what the lexer reads
at the head of a text that starts with the piece is the piece, whatever follows it, as long as that
cannot be taken for more of the same piece.

## Main definitions

* `escapeText` : a text as it is written.
* `spellAttribute`, `spellEndTag` : an attribute and an end tag as they are written.
* `isTagName`, `isElementName`, `isAttributeName` : the names that are read as they are written.
* `endsText`, `endsName` : what may follow a text and a name.

## Main results

* `lex_escapeText`, `lex_spellEndTag` : a text and an end tag.
* `lex_startTag` : the name of a start tag.
* `tagRestTokens_of_not_raw`, `tagRestTokens_of_raw`, `tagRestTokens_of_cutOff` : the rest of a
  start tag.
* `readBody_spellAttribute` : an attribute inside a start tag.
-/

namespace MarkupTree

/-! ### References -/

namespace Reference

/-- One character as it is written in a text. -/
def escapeTextChar (c : Char) : List Char :=
  if c = '&' then "&amp;".toList else if c = '<' then "&lt;".toList else [c]

private theorem decode_entity (word : List Char) {d : Char}
    (h : ∀ rest, readNamed? (word ++ rest) = some (d, rest)) (rest : List Char) :
    decode (('&' :: word) ++ rest) = d :: decode rest := by
  have reads : read? (word ++ rest) = some (d, rest) := by rw [read?, h, Option.some_or]
  exact decode_amp_of_read? reads

/-- A character is read back if all ampersands and another character are written as references. -/
theorem decode_escaped {special : Char} (word : List Char)
    (h : ∀ rest, readNamed? (word ++ rest) = some (special, rest)) (c : Char) (rest : List Char) :
    decode ((if c = '&' then "&amp;".toList
      else if c = special then '&' :: word else [c]) ++ rest) = c :: decode rest := by
  split_ifs with hamp hspecial
  · rw [hamp]
    exact decode_entity "amp;".toList (fun _ => rfl) rest
  · rw [hspecial]
    exact decode_entity word h rest
  · exact decode_cons_of_ne hamp rest

theorem decode_escapeTextChar (c : Char) (rest : List Char) :
    decode (escapeTextChar c ++ rest) = c :: decode rest :=
  decode_escaped "lt;".toList (fun _ => rfl) c rest

theorem decode_escapeQuotedChar (c : Char) (rest : List Char) :
    decode (escapeQuotedChar c ++ rest) = c :: decode rest :=
  decode_escaped "quot;".toList (fun _ => rfl) c rest

/-- A character that is written as a reference is not in what is written. -/
theorem notMem_escaped {special : Char} (reference : List Char)
    (hamp : special ∉ "&amp;".toList) (href : special ∉ reference) (s : List Char) :
    special ∉ s.flatMap fun c =>
      if c = '&' then "&amp;".toList else if c = special then reference else [c] := by
  intro h
  obtain ⟨c, -, hc⟩ := List.mem_flatMap.1 h
  split_ifs at hc with _ hspecial
  · exact hamp hc
  · exact href hc
  · exact hspecial (List.mem_singleton.1 hc).symm

/-- A text that is written character by character is read back, if every character is. -/
theorem decode_flatMap {escape : Char → List Char}
    (h : ∀ c rest, decode (escape c ++ rest) = c :: decode rest) (s : List Char) :
    decode (s.flatMap escape) = s := by
  induction s with
  | nil => exact decode_nil
  | cons c cs ih => rw [List.flatMap_cons, h, ih]

end Reference

/-! ### Texts -/

/-- A text as it is written. -/
def escapeText (text : String) : List Char := text.toList.flatMap Reference.escapeTextChar

theorem decoded_escapeText (text : String) : Reference.decoded (escapeText text) = text := by
  rw [Reference.decoded, escapeText, Reference.decode_flatMap Reference.decode_escapeTextChar,
    String.ofList_toList]

theorem lt_notMem_escapeText (text : String) : '<' ∉ escapeText text :=
  Reference.notMem_escaped "&lt;".toList (by decide) (by decide) text.toList

theorem escapeText_ne_nil {text : String} (h : text ≠ "") : escapeText text ≠ [] := by
  intro hnil
  have whole := decoded_escapeText text
  rw [hnil, Reference.decoded, Reference.decode_nil] at whole
  exact h whole.symm

/-- Whether a text cannot be taken for more ordinary text before it. -/
def endsText (s : List Char) : Bool := s.isEmpty || opensMarkup s

theorem opensMarkup_of_ne {c : Char} (h : c ≠ '<') (cs : List Char) :
    opensMarkup (c :: cs) = false := by
  cases ho : opensMarkup (c :: cs) with
  | false => rfl
  | true => exact absurd (opensMarkup_head ho) h

theorem breakWhere_opensMarkup {s rest : List Char} (hs : '<' ∉ s) (hr : endsText rest) :
    Text.breakWhere opensMarkup (s ++ rest) = (s, rest) := by
  refine Text.breakWhere_eq ?_ (by simpa [endsText] using hr)
  intro before after h ha
  obtain ⟨c, cs, rfl⟩ := List.exists_cons_of_ne_nil ha
  refine opensMarkup_of_ne ?_ (cs ++ rest)
  rintro rfl
  exact hs (h ▸ List.mem_append_right before List.mem_cons_self)

/-- What does not open markup is ordinary text. -/
theorem next_of_not_opensMarkup {c : Char} {cs : List Char} (h : opensMarkup (c :: cs) = false) :
    next c cs = lexText c cs := by
  unfold next
  rw [if_neg (by rw [h]; exact Bool.false_ne_true)]

theorem next_of_ne {c : Char} (h : c ≠ '<') (cs : List Char) : next c cs = lexText c cs :=
  next_of_not_opensMarkup (opensMarkup_of_ne h cs)

/-- Ordinary text goes on to where markup opens. -/
theorem endsText_lexText (c : Char) (cs : List Char) : endsText (lexText c cs).rest := by
  rw [lexText, endsText, Bool.or_eq_true_iff, List.isEmpty_iff]
  by_cases hrest : (Text.breakWhere opensMarkup cs).2 = []
  · exact .inl hrest
  · exact .inr (Text.stop_breakWhere cs hrest)

/-- Characters without `<` are read as one text up to where markup opens. -/
theorem lex_of_lt_notMem {s rest : List Char} (hne : s ≠ []) (hs : '<' ∉ s) (hr : endsText rest) :
    (lex (s ++ rest)).map Lexeme.token =
      .text (Reference.decoded s) :: (lex rest).map Lexeme.token := by
  obtain ⟨c, cs, rfl⟩ := List.exists_cons_of_ne_nil hne
  obtain ⟨hc, hplain⟩ := List.ne_and_not_mem_of_not_mem_cons hs
  have step : next c (cs ++ rest) = ⟨[⟨.text (Reference.decoded (c :: cs)), c :: cs⟩], rest⟩ := by
    rw [next_of_ne (Ne.symm hc), lexText, breakWhere_opensMarkup hplain hr]
  rw [List.cons_append, lex_cons, step]
  rfl

/-- A text is read up to where markup opens. -/
theorem lex_escapeText {text : String} (ht : text ≠ "") {rest : List Char} (hr : endsText rest) :
    (lex (escapeText text ++ rest)).map Lexeme.token =
      .text text :: (lex rest).map Lexeme.token := by
  rw [lex_of_lt_notMem (escapeText_ne_nil ht) (lt_notMem_escapeText text) hr, decoded_escapeText]

/-! ### Names -/

/-- Whether a name is read as it is written: its characters are those of names, and none is a
capital letter. -/
def isSmallName (s : List Char) : Bool := s.all fun c => isNameChar c && c.toLower == c

/-- Whether a name is that of a tag, as it is written: a small letter, and then characters of names
that are not capital letters. -/
def isTagName (name : String) : Bool := startsWithLetter name.toList && isSmallName name.toList

/-- Whether a name is that of an element without raw text, as it is written: a small letter, and
then characters of names that are not capital letters. -/
def isElementName (name : String) : Bool :=
  startsWithLetter name.toList && isSmallName name.toList && !hasRawText name

/-- Whether a name is that of an attribute, as it is written. -/
def isAttributeName (name : String) : Bool := !name.toList.isEmpty && isSmallName name.toList

theorem isNameChar_of_isAlpha {c : Char} (h : c.isAlpha = true) : isNameChar c = true := by
  simp [isNameChar, Char.isAlphanum, h]

theorem isNameChar_of_isBlank {c : Char} (h : Ascii.isBlank c = true) : isNameChar c = false := by
  simp only [Ascii.isBlank, Bool.or_eq_true, beq_iff_eq] at h
  rcases h with (((rfl | rfl) | rfl) | rfl) | rfl <;> rfl

theorem isNameChar_of_isSmallName {s : List Char} (h : isSmallName s) :
    ∀ c ∈ s, isNameChar c = true := by
  intro c hc
  exact (Bool.and_eq_true_iff.1 (List.all_eq_true.1 h c hc)).1

theorem lowercase_of_isSmallName {name : String} (h : isSmallName name.toList) :
    Ascii.lowercase (String.ofList name.toList) = name := by
  have small : Ascii.lower name.toList = name.toList := by
    rw [Ascii.lower, List.map_congr_left (g := id), List.map_id]
    intro c hc
    exact beq_iff_eq.1 (Bool.and_eq_true_iff.1 (List.all_eq_true.1 h c hc)).2
  rw [String.ofList_toList, Ascii.lowercase, small, String.ofList_toList]

variable {name : String} {rest : List Char}

/-- Whether a text cannot be taken for more of a name before it. -/
def endsName : List Char → Bool
  | [] => true
  | c :: _ => !isNameChar c

theorem takeWhile_isNameChar {s : List Char} (hs : ∀ c ∈ s, isNameChar c = true)
    (hr : endsName rest) :
    (s ++ rest).takeWhile isNameChar = s ∧ (s ++ rest).dropWhile isNameChar = rest := by
  rw [List.takeWhile_append_of_pos hs, List.dropWhile_append_of_pos hs]
  cases rest with
  | nil => exact ⟨List.append_nil s, rfl⟩
  | cons c cs =>
    have hc : isNameChar c = false := by simpa only [endsName, Bool.not_eq_true'] using hr
    rw [List.takeWhile_cons_of_neg (by simp [hc]), List.dropWhile_cons_of_neg (by simp [hc])]
    exact ⟨List.append_nil s, rfl⟩

theorem takeWhile_name {s : List Char} (hs : isSmallName s) (hr : endsName rest) :
    (s ++ rest).takeWhile isNameChar = s ∧ (s ++ rest).dropWhile isNameChar = rest :=
  takeWhile_isNameChar (isNameChar_of_isSmallName hs) hr

/-! ### Tags -/

/-- An end tag as it is written. -/
def spellEndTag (name : String) : List Char := '<' :: '/' :: (name.toList ++ ['>'])

theorem exists_of_isTagName (h : isTagName name) :
    ∃ c cs, name.toList = c :: cs ∧ c.isAlpha = true ∧ isSmallName name.toList := by
  obtain ⟨hletter, hsmall⟩ := Bool.and_eq_true_iff.1 h
  cases hname : name.toList with
  | nil =>
    rw [hname] at hletter
    cases hletter
  | cons c cs =>
    rw [hname] at hletter
    exact ⟨c, cs, rfl, hletter, hname ▸ hsmall⟩

theorem isTagName_of_isElementName (h : isElementName name) : isTagName name :=
  (Bool.and_eq_true_iff.1 h).1

theorem hasRawText_of_isElementName (h : isElementName name) : hasRawText name = false := by
  simpa using (Bool.and_eq_true_iff.1 h).2

theorem lex_spellEndTag (h : isTagName name) (rest : List Char) :
    (lex (spellEndTag name ++ rest)).map Lexeme.token =
      .endTag name :: (lex rest).map Lexeme.token := by
  obtain ⟨c, cs, hname, hletter, hsmall⟩ := exists_of_isTagName h
  have ends : endsName ('>' :: rest) = true := rfl
  obtain ⟨htake, hdrop⟩ := takeWhile_name hsmall ends
  have step : next '<' ('/' :: (name.toList ++ '>' :: rest)) =
      ⟨[⟨.endTag name, '<' :: '/' :: (name.toList ++ ['>'])⟩], rest⟩ := by
    have opens : opensMarkup ('<' :: '/' :: (name.toList ++ '>' :: rest)) = true := rfl
    have letter : startsWithLetter (name.toList ++ '>' :: rest) = true := by
      rw [hname]
      exact hletter
    rw [next]
    rw [if_pos opens]
    simp only [letter, if_true, lexEndTag, htake, hdrop, lexDeclaration,
      lowercase_of_isSmallName hsmall]
    simp
  have whole : spellEndTag name ++ rest = '<' :: '/' :: (name.toList ++ '>' :: rest) := by
    simp [spellEndTag]
  rw [whole, lex_cons, step]
  rfl

theorem map_token_lexTagBody (name : String) (opening s : List Char) :
    (lexTagBody name opening s).lexemes.map Lexeme.token =
      (lexTagBody name [] s).lexemes.map Lexeme.token := by
  simp only [lexTagBody]
  split <;> rfl

theorem rest_lexTagBody (name : String) (opening s : List Char) :
    (lexTagBody name opening s).rest = (lexTagBody name [] s).rest := by
  simp only [lexTagBody]
  split <;> rfl

/-- What opens markup, but no comment, declaration or end tag, opens a start tag. -/
theorem startsWithLetter_of_opensMarkup {c : Char} {cs : List Char}
    (h : opensMarkup (c :: cs) = true) (hbang : ∀ s, cs ≠ '!' :: s) (hquery : ∀ s, cs ≠ '?' :: s)
    (hslash : ∀ s, cs ≠ '/' :: s) : startsWithLetter cs := by
  obtain rfl := opensMarkup_head h
  cases cs with
  | nil => cases h
  | cons d ds =>
    have notBang : d ≠ '!' := fun hd => hbang ds (hd ▸ rfl)
    have notQuery : d ≠ '?' := fun hd => hquery ds (hd ▸ rfl)
    have notSlash : d ≠ '/' := fun hd => hslash ds (hd ▸ rfl)
    simpa [opensMarkup, startsWithLetter, notBang, notQuery, notSlash] using h

theorem next_of_isAlpha {c : Char} (h : c.isAlpha = true) (cs : List Char) :
    next '<' (c :: cs) = lexStartTag (c :: cs) := by
  have opens : opensMarkup ('<' :: c :: cs) = true := by simp [opensMarkup, h]
  have notAlpha (d : Char) (hd : d.isAlpha = false) : c ≠ d := by
    rintro rfl
    rw [h] at hd
    cases hd
  unfold next
  rw [if_pos opens]
  split
  · next heq => exact absurd (List.cons.inj heq).1 (notAlpha '!' rfl)
  · next heq => exact absurd (List.cons.inj heq).1 (notAlpha '!' rfl)
  · next heq => exact absurd (List.cons.inj heq).1 (notAlpha '?' rfl)
  · next heq => exact absurd (List.cons.inj heq).1 (notAlpha '/' rfl)
  · rfl

/-- The name of a start tag, in any letter case. What follows it is read as the rest of the tag. -/
theorem lex_of_startsWithLetter {s : List Char} (h : startsWithLetter s) :
    (lex ('<' :: s)).map Lexeme.token =
      tagRestTokens (Ascii.lowercase (String.ofList (s.takeWhile isNameChar)))
        (String.ofList (s.dropWhile isNameChar)) := by
  cases s with
  | nil => cases h
  | cons c cs =>
    rw [lex_cons, next_of_isAlpha h, lexStartTag, tagRestTokens, lexTagRest, String.toList_ofList,
      List.map_append, List.map_append, map_token_lexTagBody, rest_lexTagBody]

/-- The name of a start tag. What follows it is read as the rest of the tag. -/
theorem lex_startTag (h : isTagName name) (hr : endsName rest) :
    (lex ('<' :: (name.toList ++ rest))).map Lexeme.token =
      tagRestTokens name (String.ofList rest) := by
  obtain ⟨c, cs, hname, hletter, hsmall⟩ := exists_of_isTagName h
  obtain ⟨htake, hdrop⟩ := takeWhile_name hsmall hr
  have letter : startsWithLetter (name.toList ++ rest) := by
    rw [hname]
    exact hletter
  rw [lex_of_startsWithLetter letter, htake, hdrop, lowercase_of_isSmallName hsmall]

/-- The rest of a start tag that opens no raw text. -/
theorem tagRestTokens_of_not_raw {s : List Char}
    (h : ¬((readBody s).value.ending.ofName name = .plain ∧ hasRawText name)) :
    tagRestTokens name (String.ofList s) =
      .startTag name (readBody s).value.attributes ((readBody s).value.ending.ofName name) ::
        (lex (readBody s).rest).map Lexeme.token := by
  rw [tagRestTokens, lexTagRest, String.toList_ofList]
  simp only [lexTagBody, if_neg h]
  rfl

/-- The rest of a start tag that opens raw text. -/
theorem tagRestTokens_of_raw {s : List Char}
    (h : (readBody s).value.ending.ofName name = .plain ∧ hasRawText name) :
    tagRestTokens name (String.ofList s) =
      .startTag name (readBody s).value.attributes .plain ::
        ((lexRawText name (readBody s).rest).lexemes.map Lexeme.token ++
          (lex (lexRawText name (readBody s).rest).rest).map Lexeme.token) := by
  rw [tagRestTokens, lexTagRest, String.toList_ofList]
  simp only [lexTagBody, if_pos h, List.map_append, List.map_cons, List.cons_append]
  rw [h.1]

/-- The rest of a start tag that is cut off. -/
theorem tagRestTokens_of_cutOff {s : List Char} (h : (readBody s).value.ending = .cutOff) :
    tagRestTokens name (String.ofList s) =
      [.startTag name (readBody s).value.attributes .cutOff, .endOfInput] := by
  have cut : ¬(TagEnd.ofName name .cutOff = .plain ∧ hasRawText name) :=
    fun hr => TagEnd.noConfusion hr.1
  rw [tagRestTokens_of_not_raw (by rwa [h]), h, readBody_rest_of_cutOff h, lex_nil]
  rfl

/-- The rest of a start tag of an element without raw text. -/
theorem tagRestTokens_eq (h : hasRawText name = false) (s : List Char) :
    tagRestTokens name (String.ofList s) =
      .startTag name (readBody s).value.attributes ((readBody s).value.ending.ofName name) ::
        (lex (readBody s).rest).map Lexeme.token :=
  tagRestTokens_of_not_raw fun hr => Bool.false_ne_true (h.symm.trans hr.2)

/-! ### Attributes -/

/-- An attribute as it is written, with the space before it. -/
def spellAttribute (name value : String) : List Char :=
  ' ' :: (name.toList ++ '=' :: '"' :: ((Reference.escapeQuoted value).toList ++ ['"']))

theorem decoded_escapeQuoted (value : String) :
    Reference.decoded (Reference.escapeQuoted value).toList = value := by
  rw [Reference.decoded, Reference.escapeQuoted, String.toList_ofList,
    Reference.decode_flatMap Reference.decode_escapeQuotedChar, String.ofList_toList]

theorem quote_notMem_escapeQuoted (value : String) :
    '"' ∉ (Reference.escapeQuoted value).toList := by
  rw [Reference.escapeQuoted, String.toList_ofList]
  exact Reference.notMem_escaped "&quot;".toList (by decide) (by decide) value.toList

theorem readQuoted_escapeQuoted (value : String) (rest : List Char) :
    (readQuoted '"' ((Reference.escapeQuoted value).toList ++ '"' :: rest)).value = value ∧
      (readQuoted '"' ((Reference.escapeQuoted value).toList ++ '"' :: rest)).rest = rest := by
  have inside : ∀ c ∈ (Reference.escapeQuoted value).toList, (c != '"') = true := by
    intro c hc
    refine bne_iff_ne.2 ?_
    rintro rfl
    exact quote_notMem_escapeQuoted value hc
  simp only [readQuoted, List.takeWhile_append_of_pos inside, List.dropWhile_append_of_pos inside]
  simp [decoded_escapeQuoted]

theorem readGiven?_quoted (s : List Char) :
    ∃ source, readGiven? ('=' :: '"' :: s) =
      some ⟨(readQuoted '"' s).value, source, (readQuoted '"' s).rest⟩ :=
  ⟨_, rfl⟩

/-- An attribute at the head of a text. -/
theorem readAttribute_spelled (h : isAttributeName name) (value : String) (rest : List Char) :
    ∃ source, readAttribute (name.toList ++ '=' :: '"' ::
        ((Reference.escapeQuoted value).toList ++ '"' :: rest)) =
      ⟨.attr ⟨name, some value⟩, source, rest⟩ := by
  have hsmall : isSmallName name.toList = true := (Bool.and_eq_true_iff.1 h).2
  have ends : endsName ('=' :: '"' :: ((Reference.escapeQuoted value).toList ++ '"' :: rest)) =
      true := rfl
  obtain ⟨htake, hdrop⟩ := takeWhile_name hsmall ends
  obtain ⟨hvalue, hrest⟩ := readQuoted_escapeQuoted value rest
  obtain ⟨source, hgiven⟩ :=
    readGiven?_quoted ((Reference.escapeQuoted value).toList ++ '"' :: rest)
  simp only [readAttribute, htake, hdrop, hgiven, hvalue, hrest, lowercase_of_isSmallName hsmall]
  exact ⟨_, rfl⟩

theorem readPart_of_isNameChar {c : Char} (h : isNameChar c = true) (cs : List Char) :
    readPart c cs = readAttribute (c :: cs) := by
  have notName (d : Char) (hd : isNameChar d = false) : c ≠ d := by
    rintro rfl
    rw [h] at hd
    cases hd
  unfold readPart
  rw [if_neg (notName '>' rfl), if_neg (notName '/' rfl), if_pos h]

theorem readPart_of_isBlank {c : Char} (h : Ascii.isBlank c = true) (cs : List Char) :
    readPart c cs = ⟨.filler, [c], cs⟩ := by
  simp only [Ascii.isBlank, Bool.or_eq_true, beq_iff_eq] at h
  rcases h with (((rfl | rfl) | rfl) | rfl) | rfl <;> rfl

/-- White space adds nothing to a start tag. -/
theorem readBody_of_isBlank {c : Char} (h : Ascii.isBlank c = true) (s : List Char) :
    (readBody (c :: s)).value = (readBody s).value ∧
      (readBody (c :: s)).rest = (readBody s).rest := by
  have filler := readPart_of_isBlank h s
  rw [readBody_of_not_close (by simp [filler]), filler]
  exact ⟨rfl, rfl⟩

theorem readBody_of_attr {c : Char} {cs source : List Char} {a : Attribute}
    (h : readPart c cs = ⟨.attr a, source, rest⟩) :
    (readBody (c :: cs)).value =
        { (readBody rest).value with attributes := a :: (readBody rest).value.attributes } ∧
      (readBody (c :: cs)).rest = (readBody rest).rest := by
  rw [readBody_of_not_close (by simp [h]), h]
  exact ⟨rfl, rfl⟩

theorem exists_of_isAttributeName (h : isAttributeName name) :
    ∃ c cs, name.toList = c :: cs ∧ isNameChar c = true ∧ isSmallName name.toList := by
  obtain ⟨hne, hsmall⟩ := Bool.and_eq_true_iff.1 h
  obtain ⟨c, cs, hname⟩ := List.exists_cons_of_ne_nil (l := name.toList) (by simpa using hne)
  exact ⟨c, cs, hname,
    isNameChar_of_isSmallName hsmall c (by rw [hname]; exact List.mem_cons_self), hsmall⟩

/-- What is read as an attribute is, after a space, read as the first of the tag. -/
theorem readBody_of_readAttribute (h : isAttributeName name) {more source : List Char}
    {a : Attribute} (hread : readAttribute (name.toList ++ more) = ⟨.attr a, source, rest⟩) :
    (readBody (' ' :: (name.toList ++ more))).value =
        { (readBody rest).value with attributes := a :: (readBody rest).value.attributes } ∧
      (readBody (' ' :: (name.toList ++ more))).rest = (readBody rest).rest := by
  obtain ⟨c, cs, hname, hc, -⟩ := exists_of_isAttributeName h
  obtain ⟨hvalue, hrest⟩ := readBody_of_isBlank (c := ' ') rfl (name.toList ++ more)
  rw [hvalue, hrest]
  rw [hname, List.cons_append] at hread ⊢
  exact readBody_of_attr ((readPart_of_isNameChar hc _).trans hread)

/-- An attribute inside a start tag is read as the first of the tag. -/
theorem readBody_spellAttribute (h : isAttributeName name) (value : String) (rest : List Char) :
    (readBody (spellAttribute name value ++ rest)).value =
        { (readBody rest).value with
          attributes := ⟨name, some value⟩ :: (readBody rest).value.attributes } ∧
      (readBody (spellAttribute name value ++ rest)).rest = (readBody rest).rest := by
  obtain ⟨source, hread⟩ := readAttribute_spelled h value rest
  have written : spellAttribute name value ++ rest = ' ' :: (name.toList ++ '=' :: '"' ::
      ((Reference.escapeQuoted value).toList ++ '"' :: rest)) := by
    simp [spellAttribute]
  rw [written]
  exact readBody_of_readAttribute h hread

/-- The end of a start tag. -/
theorem readBody_close (rest : List Char) :
    (readBody ('>' :: rest)).value = ⟨[], .plain⟩ ∧ (readBody ('>' :: rest)).rest = rest := by
  have closes : (readPart '>' rest).value = .close false := rfl
  rw [readBody_of_close closes]
  exact ⟨rfl, rfl⟩

@[simp] theorem readBody_nil : readBody [] = ⟨⟨[], .cutOff⟩, [], []⟩ := by rw [readBody]

/-- A start tag that ends, and what follows it. -/
theorem tagRestTokens_close (h : hasRawText name = false) (s : List Char) :
    tagRestTokens name (String.ofList ('>' :: s)) =
      .startTag name [] (TagEnd.plain.ofName name) :: tokens (String.ofList s) := by
  obtain ⟨hvalue, hrest⟩ := readBody_close s
  rw [tagRestTokens_eq h, hvalue, hrest, tokens, String.toList_ofList]

/-- A start tag that is cut off at once. -/
theorem tagRestTokens_nil (name : String) :
    tagRestTokens name (String.ofList []) = [.startTag name [] .cutOff, .endOfInput] := by
  rw [tagRestTokens_of_cutOff (by rw [readBody_nil]), readBody_nil]

end MarkupTree
