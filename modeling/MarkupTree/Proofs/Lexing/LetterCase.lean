import MarkupTree.Proofs.Lexing.Boundaries

/-!
# Letter case and the shape of tokens

Letter case matters to the texts that tokens hold and to nothing else. Two strings that are equal
but for the case of their letters have tokens of the same shape in the same spans, and either both
end inside a start tag or neither does (`shapes_eq_of_lowercase_eq`). What is left out of the shape
is the text of a token and of an attribute's value; references in these are decoded, and `&LT;` is
no reference, so they may even differ in length.

The two strings are never compared. Each reader of a text reads the same off the text with its
capital letters made small, but for the texts: what it leaves is what it left, in small letters. One
fact about characters carries this. A letter stays a letter when it is made small, and no other
character changes, so a test that treats all letters alike does not see letter case
(`apply_toLower`). The few words that are looked for with letters in them are looked for in any
letter case.

## Main definitions

* `Attribute.shape`, `Token.shape` : attributes and tokens without their texts.
* `shapes` : the tokens of a string without their texts, in their spans.
* `Reading.IsLowered`, `Step.IsLowered` : what is read off a text in small letters, and what is read
  off the text.

## Main results

* `breakWhere_lower`, `closeTag?_lower`, `readBody_lower` : the readers.
* `next_lower` : one step of the lexer.
* `shapes_eq_of_lowercase_eq` : the tokens of two strings that differ in letter case alone.
-/

namespace MarkupTree

open Ascii (lower)

/-- An attribute without the text of its value. That it has a value is kept. -/
def Attribute.shape (a : Attribute) : Attribute := { a with value := a.value.map fun _ => "" }

/-- A token without the texts that it holds. The names and the way a start tag ends are kept. -/
def Token.shape : Token → Token
  | doctype _ => .doctype ""
  | startTag name attributes ending => .startTag name (attributes.map Attribute.shape) ending
  | text _ => .text ""
  | comment _ => .comment ""
  | token => token

/-- The tokens of a string without their texts, each with its span. -/
def shapes (s : String) : List (Token × Span) :=
  (spanned s).map fun piece => (piece.1.token.shape, piece.2)

/-! ### Characters -/

theorem isBlank_toLower (c : Char) : Ascii.isBlank c.toLower = Ascii.isBlank c := by
  refine apply_toLower (a := false) (fun c hc => ?_) c
  cases hb : Ascii.isBlank c with
  | false => rfl
  | true =>
    have := isNameChar_of_isBlank hb
    rw [isNameChar_of_isAlpha hc] at this
    cases this

theorem bne_toLower {d : Char} (hd : d.isAlpha = false) (c : Char) :
    (c.toLower != d) = (c != d) := by
  rw [Bool.eq_iff_iff, bne_iff_ne, bne_iff_ne, ne_eq, ne_eq, toLower_eq_iff hd]

/-- A letter takes one byte. -/
theorem utf8Size_of_isAlpha {c : Char} (h : c.isAlpha = true) : c.utf8Size = 1 := by
  have bounds := Ascii.isAlpha_iff.1 h
  have small : c.toNat ≤ 127 := by omega
  exact Char.utf8Size_eq_one_iff.2 (UInt32.le_iff_toNat_le.2 small)

/-! ### Texts -/

variable (s : List Char)

@[simp] theorem lower_lower : lower (lower s) = lower s := by
  rw [lower, lower, List.map_map]
  exact List.map_congr_left fun c _ => Ascii.toLower_toLower c

@[simp] theorem byteSize_lower : byteSize (lower s) = byteSize s := by
  induction s with
  | nil => rfl
  | cons c cs ih =>
    rw [Ascii.lower_cons, byteSize, byteSize, ih, apply_toLower (fun _ => utf8Size_of_isAlpha) c]

theorem take_lower (n : Nat) : (lower s).take n = lower (s.take n) := List.map_take.symm

theorem drop_lower (n : Nat) : (lower s).drop n = lower (s.drop n) := List.map_drop.symm

theorem isEmpty_lower : (lower s).isEmpty = s.isEmpty := List.isEmpty_map

section Tests

variable {p : Char → Bool} {stop : List Char → Bool}

theorem takeWhile_lower (hp : ∀ c, p c.toLower = p c) :
    (lower s).takeWhile p = lower (s.takeWhile p) := by
  have same : p ∘ Char.toLower = p := funext hp
  rw [lower, List.takeWhile_map, same, lower]

theorem dropWhile_lower (hp : ∀ c, p c.toLower = p c) :
    (lower s).dropWhile p = lower (s.dropWhile p) := by
  have same : p ∘ Char.toLower = p := funext hp
  rw [lower, List.dropWhile_map, same, lower]

theorem takeWhile_bne_lower {d : Char} (hd : d.isAlpha = false) :
    (lower s).takeWhile (· != d) = lower (s.takeWhile (· != d)) :=
  takeWhile_lower s (bne_toLower hd)

theorem dropWhile_bne_lower {d : Char} (hd : d.isAlpha = false) :
    (lower s).dropWhile (· != d) = lower (s.dropWhile (· != d)) :=
  dropWhile_lower s (bne_toLower hd)

theorem breakWhere_lower (hs : ∀ t, stop (lower t) = stop t) :
    Text.breakWhere stop (lower s) =
      (lower (Text.breakWhere stop s).1, lower (Text.breakWhere stop s).2) := by
  induction s with
  | nil => rfl
  | cons c cs ih =>
    have here := hs (c :: cs)
    rw [Ascii.lower_cons] at here ⊢
    rw [Text.breakWhere_cons, Text.breakWhere_cons, here, ih]
    split <;> rfl

end Tests

theorem lowercase_lower : Ascii.lowercase (String.ofList (lower s)) =
    Ascii.lowercase (String.ofList s) := by
  rw [Ascii.lowercase, Ascii.lowercase, String.toList_ofList, String.toList_ofList, lower_lower]

/-- A word without letters stands at the head of a text in small letters where it stands at the head
of the text. -/
theorem prefix_lower_iff {word : List Char} (hw : ∀ d ∈ word, d.isAlpha = false) {s : List Char} :
    word <+: lower s ↔ word <+: s := by
  induction word generalizing s with
  | nil => simp
  | cons d ds ih =>
    obtain ⟨first, others⟩ := List.forall_mem_cons.1 hw
    cases s with
    | nil => simp
    | cons c cs =>
      rw [Ascii.lower_cons, List.cons_prefix_cons, List.cons_prefix_cons, ih others, eq_comm,
        toLower_eq_iff first, eq_comm]

theorem matchWord?_lower (word : List Char) :
    Ascii.matchWord? word (lower s) =
      (Ascii.matchWord? word s).map fun parts => (lower parts.1, lower parts.2) := by
  induction word generalizing s with
  | nil => rfl
  | cons w ws ih =>
    cases s with
    | nil => rfl
    | cons c cs =>
      rw [Ascii.lower_cons, Ascii.matchWord?, Ascii.matchWord?, Ascii.toLower_toLower, ih]
      split
      · rw [Option.map_map, Option.map_map]
        rfl
      · rfl

theorem closeTag?_lower (name : String) :
    closeTag? name (lower s) =
      (closeTag? name s).map fun parts => (lower parts.1, lower parts.2) := by
  rw [closeTag?, closeTag?, matchWord?_lower]
  cases Ascii.matchWord? ('<' :: '/' :: name.toList) s with
  | none => rfl
  | some parts =>
    obtain ⟨spelled, after⟩ := parts
    simp only [Option.map_some, takeWhile_lower after isBlank_toLower,
      dropWhile_lower after isBlank_toLower]
    cases after.dropWhile Ascii.isBlank with
    | nil => rfl
    | cons c cs =>
      by_cases hc : c = '>'
      · obtain rfl := hc
        simp
      · have hc' : c.toLower ≠ '>' := mt (toLower_eq_iff rfl).1 hc
        simp [hc, hc']

/-! ### What stops a reader -/

theorem opensMarkup_lower : opensMarkup (lower s) = opensMarkup s := by
  cases s with
  | nil => rfl
  | cons c cs =>
    by_cases hc : c = '<'
    · obtain rfl := hc
      have same : Char.toLower '<' = '<' := rfl
      rw [Ascii.lower_cons, same, Bool.eq_iff_iff]
      cases cs with
      | nil => rfl
      | cons d ds => simp [opensMarkup, toLower_eq_iff]
    · have hc' : c.toLower ≠ '<' := mt (toLower_eq_iff rfl).1 hc
      rw [Ascii.lower_cons, opensMarkup_of_ne hc', opensMarkup_of_ne hc]

theorem endsComment_lower : endsComment (lower s) = endsComment s := by
  have ends (t : List Char) : endsComment t = true ↔ commentEnd <+: t :=
    endsComment_iff.trans (exists_congr fun _ => eq_comm)
  rw [Bool.eq_iff_iff, ends, ends, prefix_lower_iff (by simp [commentEnd])]

theorem endsBareValue_lower : endsBareValue (lower s) = endsBareValue s := by
  cases s with
  | nil => rfl
  | cons c cs =>
    have slash : (lower cs).head? = some '>' ↔ cs.head? = some '>' := by
      cases cs with
      | nil => rfl
      | cons d ds => simp [toLower_eq_iff]
    rw [Bool.eq_iff_iff, Ascii.lower_cons, endsBareValue_cons, endsBareValue_cons, slash,
      isBlank_toLower, toLower_eq_iff rfl, toLower_eq_iff rfl]

theorem startsWithLetter_lower : startsWithLetter (lower s) = startsWithLetter s := by
  cases s with
  | nil => rfl
  | cons c cs => exact Ascii.isAlpha_toLower c

/-! ### The inside of a start tag -/

/-- The first thing is read off a text in small letters where the other is read off the text: its
characters and what follows them are the same in small letters, and so is what the value shows. -/
structure Reading.IsLowered {α β : Type} (shape : α → β) (small read : Reading α) : Prop where
  value : shape small.value = shape read.value
  source : small.source = lower read.source
  rest : small.rest = lower read.rest

/-- Nothing of the text of an attribute's value is kept. -/
abbrev IsLoweredText (small read : Reading String) : Prop := small.IsLowered (fun _ => ()) read

theorem readQuoted_lower {quote : Char} (hq : quote.isAlpha = false) :
    IsLoweredText (readQuoted quote (lower s)) (readQuoted quote s) := by
  refine ⟨rfl, ?_, ?_⟩
  · simp only [readQuoted, takeWhile_bne_lower s hq, dropWhile_bne_lower s hq, take_lower,
      Ascii.lower_append]
  · simp only [readQuoted, dropWhile_bne_lower s hq, drop_lower]

theorem readBare_lower : IsLoweredText (readBare (lower s)) (readBare s) := by
  have cut := breakWhere_lower s endsBareValue_lower
  refine ⟨rfl, ?_, ?_⟩ <;> simp only [readBare, cut]

theorem readValue_lower : IsLoweredText (readValue (lower s)) (readValue s) := by
  cases s with
  | nil => exact readBare_lower []
  | cons c cs =>
    by_cases double : c = '"'
    · obtain rfl := double
      have quoted : IsLoweredText (readQuoted '"' (lower cs)) (readQuoted '"' cs) :=
        readQuoted_lower cs rfl
      exact ⟨rfl, congrArg ('"' :: ·) quoted.source, quoted.rest⟩
    by_cases single : c = '\x27'
    · obtain rfl := single
      have quoted : IsLoweredText (readQuoted '\x27' (lower cs)) (readQuoted '\x27' cs) :=
        readQuoted_lower cs rfl
      exact ⟨rfl, congrArg ('\x27' :: ·) quoted.source, quoted.rest⟩
    have bare := readBare_lower (c :: cs)
    have double' : c.toLower ≠ '"' := mt (toLower_eq_iff rfl).1 double
    have single' : c.toLower ≠ '\x27' := mt (toLower_eq_iff rfl).1 single
    rw [Ascii.lower_cons] at bare ⊢
    simpa [readValue, double, single, double', single'] using bare

/-- An equals sign gives the text in small letters a value where it gives the text one. -/
theorem readGiven?_lower : Option.Rel IsLoweredText (readGiven? (lower s)) (readGiven? s) := by
  simp only [readGiven?, takeWhile_lower s isBlank_toLower, dropWhile_lower s isBlank_toLower]
  cases s.dropWhile Ascii.isBlank with
  | nil => exact .none
  | cons c t =>
    by_cases hc : c = '='
    · obtain rfl := hc
      have same : Char.toLower '=' = '=' := rfl
      have given := readValue_lower (t.dropWhile Ascii.isBlank)
      rw [← dropWhile_lower t isBlank_toLower] at given
      rw [Ascii.lower_cons, same]
      refine .some ⟨rfl, ?_, given.rest⟩
      simp only [takeWhile_lower t isBlank_toLower, given.source, Ascii.lower_append,
        Ascii.lower_cons, same]
    · have hc' : c.toLower ≠ '=' := mt (toLower_eq_iff rfl).1 hc
      simp [hc, hc']

/-- A part of a start tag without the text of a value. -/
def TagPart.shape : TagPart → TagPart
  | attr a => .attr a.shape
  | part => part

/-- The inside of a start tag without the texts of the values. -/
def TagBody.shape (body : TagBody) : TagBody :=
  { body with attributes := body.attributes.map Attribute.shape }

theorem TagPart.shape_eq_close_iff {part : TagPart} {bySlash : Bool} :
    part.shape = .close bySlash ↔ part = .close bySlash := by
  cases part <;> simp [shape]

theorem TagPart.attributes_shape (part : TagPart) :
    part.shape.attributes = part.attributes.map Attribute.shape := by
  cases part <;> rfl

theorem readAttribute_lower :
    (readAttribute (lower s)).IsLowered TagPart.shape (readAttribute s) := by
  have name := lowercase_lower (s.takeWhile isNameChar)
  have given := readGiven?_lower (s.dropWhile isNameChar)
  rw [← takeWhile_lower s isNameChar_toLower] at name
  rw [← dropWhile_lower s isNameChar_toLower] at given
  simp only [readAttribute, name]
  generalize readGiven? ((lower s).dropWhile isNameChar) = small at given
  generalize readGiven? (s.dropWhile isNameChar) = read at given
  cases given with
  | none =>
    exact ⟨rfl, takeWhile_lower s isNameChar_toLower, dropWhile_lower s isNameChar_toLower⟩
  | some h =>
    refine ⟨rfl, ?_, h.rest⟩
    simp only [takeWhile_lower s isNameChar_toLower, h.source, Ascii.lower_append]

theorem readPart_lower (c : Char) :
    (readPart c.toLower (lower s)).IsLowered TagPart.shape (readPart c s) := by
  by_cases close : c = '>'
  · obtain rfl := close
    exact ⟨rfl, rfl, rfl⟩
  have close' : c.toLower ≠ '>' := mt (toLower_eq_iff rfl).1 close
  unfold readPart
  rw [if_neg close, if_neg close']
  by_cases slash : c = '/'
  · obtain rfl := slash
    have same : Char.toLower '/' = '/' := rfl
    rw [same, if_pos rfl, if_pos rfl]
    cases s with
    | nil => exact ⟨rfl, rfl, rfl⟩
    | cons d ds =>
      by_cases hd : d = '>'
      · obtain rfl := hd
        exact ⟨rfl, rfl, rfl⟩
      · have hd' : d.toLower ≠ '>' := mt (toLower_eq_iff rfl).1 hd
        rw [Ascii.lower_cons]
        split
        · next heq => exact absurd (List.cons.inj heq).1 hd'
        · split
          · next heq => exact absurd (List.cons.inj heq).1 hd
          · exact ⟨rfl, rfl, rfl⟩
  have slash' : c.toLower ≠ '/' := mt (toLower_eq_iff rfl).1 slash
  rw [if_neg slash, if_neg slash', isNameChar_toLower]
  split
  · exact readAttribute_lower (c :: s)
  · exact ⟨rfl, rfl, rfl⟩

/-- The readings of a start tag that a part does not close. -/
theorem readBody_lower_of_not_close {c : Char}
    (h : ∀ bySlash, (readPart c s).value ≠ .close bySlash)
    (ih : (readBody (lower (readPart c s).rest)).IsLowered TagBody.shape
      (readBody (readPart c s).rest)) :
    (readBody (lower (c :: s))).IsLowered TagBody.shape (readBody (c :: s)) := by
  have part := readPart_lower s c
  have h' (bySlash : Bool) : (readPart c.toLower (lower s)).value ≠ .close bySlash := by
    intro close
    have value := part.value.symm.trans (TagPart.shape_eq_close_iff.2 close)
    exact h bySlash (TagPart.shape_eq_close_iff.1 value)
  have attributes := congrArg TagPart.attributes part.value
  rw [TagPart.attributes_shape, TagPart.attributes_shape] at attributes
  rw [Ascii.lower_cons, readBody_of_not_close h, readBody_of_not_close h', part.rest]
  obtain ⟨others, ending⟩ := TagBody.mk.inj ih.value
  refine ⟨?_, ?_, ih.rest⟩
  · simp only [TagBody.shape, List.map_append, attributes, others, ending]
  · simp only [part.source, ih.source, Ascii.lower_append]

theorem readBody_lower : (readBody (lower s)).IsLowered TagBody.shape (readBody s) := by
  induction hn : s.length using Nat.strongRecOn generalizing s with
  | ind n ih =>
    cases s with
    | nil => rw [Ascii.lower_nil, readBody_nil]; exact ⟨rfl, rfl, rfl⟩
    | cons c cs =>
      by_cases h : ∃ bySlash, (readPart c cs).value = .close bySlash
      · obtain ⟨bySlash, h⟩ := h
        have part := readPart_lower cs c
        have value : (readPart c.toLower (lower cs)).value = .close bySlash :=
          TagPart.shape_eq_close_iff.1 (part.value.trans (TagPart.shape_eq_close_iff.2 h))
        rw [Ascii.lower_cons, readBody_of_close h, readBody_of_close value]
        exact ⟨rfl, part.source, part.rest⟩
      · exact readBody_lower_of_not_close cs (not_exists.1 h)
          (ih _ (hn ▸ length_readPart_rest_lt c cs) _ rfl)

/-! ### One step -/

/-- A lexeme without its texts: the shape of its token, and the bytes of its source. -/
def Lexeme.shape (l : Lexeme) : Token × Nat := (l.token.shape, byteSize l.source)

/-- The first step is one over a text in small letters where the other is one over the text. -/
structure Step.IsLowered (small step : Step) : Prop where
  lexemes : small.lexemes.map Lexeme.shape = step.lexemes.map Lexeme.shape
  rest : small.rest = lower step.rest

/-- A lexeme whose source is in small letters where the other's is not. -/
theorem Lexeme.shape_lower {token token' : Token} (h : token.shape = token'.shape)
    (source : List Char) : Lexeme.shape ⟨token, lower source⟩ = Lexeme.shape ⟨token', source⟩ := by
  rw [shape, shape, h, byteSize_lower]

theorem Step.isLowered_single {token token' : Token} (h : token.shape = token'.shape)
    (source rest : List Char) :
    Step.IsLowered ⟨[⟨token, lower source⟩], lower rest⟩ ⟨[⟨token', source⟩], rest⟩ :=
  ⟨congrArg (fun shape => [shape]) (Lexeme.shape_lower h source), rfl⟩

theorem lexText_lower (c : Char) : (lexText c.toLower (lower s)).IsLowered (lexText c s) := by
  simp only [lexText, breakWhere_lower s opensMarkup_lower]
  exact Step.isLowered_single (by rfl) (c :: _) _

theorem lexComment_lower : (lexComment (lower s)).IsLowered (lexComment s) := by
  have source (body close : List Char) :
      "<!--".toList ++ lower body ++ lower close = lower ("<!--".toList ++ body ++ close) := by
    rw [Ascii.lower_append, Ascii.lower_append]
    rfl
  simp only [lexComment, breakWhere_lower s endsComment_lower, take_lower, drop_lower, source]
  exact Step.isLowered_single (by rfl) _ _

theorem lexDeclaration_lower (opening : List Char) {make make' : List Char → Token}
    (h : ∀ body body', (make body).shape = (make' body').shape) :
    (lexDeclaration (lower opening) make (lower s)).IsLowered
      (lexDeclaration opening make' s) := by
  have close : Char.isAlpha '>' = false := rfl
  simp only [lexDeclaration, takeWhile_bne_lower s close, dropWhile_bne_lower s close, take_lower,
    drop_lower, ← Ascii.lower_append]
  exact Step.isLowered_single (h _ _) _ _

theorem lexEndTag_lower : (lexEndTag (lower s)).IsLowered (lexEndTag s) := by
  have name := lowercase_lower (s.takeWhile isNameChar)
  simp only [lexEndTag, takeWhile_lower s isNameChar_toLower,
    dropWhile_lower s isNameChar_toLower, name]
  exact lexDeclaration_lower (s.dropWhile isNameChar) ('<' :: '/' :: s.takeWhile isNameChar)
    fun _ _ => rfl

theorem rawLexemes_lower (body : List Char) :
    (rawLexemes (lower body)).map Lexeme.shape = (rawLexemes body).map Lexeme.shape := by
  simp only [rawLexemes, isEmpty_lower]
  split
  · rfl
  · exact congrArg (fun shape => [shape]) (Lexeme.shape_lower rfl body)

theorem lexRawText_lower (name : String) :
    (lexRawText name (lower s)).IsLowered (lexRawText name s) := by
  have cut : breakRawText name (lower s) =
      (lower (breakRawText name s).1, lower (breakRawText name s).2) := by
    refine breakWhere_lower s fun t => ?_
    rw [closeTag?_lower, Option.isSome_map]
  simp only [lexRawText, cut, closeTag?_lower]
  generalize breakRawText name s = parts
  obtain ⟨body, after⟩ := parts
  have text := rawLexemes_lower body
  rw [rawLexemes, rawLexemes] at text
  cases closeTag? name after with
  | none =>
    refine ⟨?_, rfl⟩
    simp only [Option.map_none, List.map_append, text]
  | some close =>
    refine ⟨?_, rfl⟩
    simp only [Option.map_some, List.map_append, text]
    exact congrArg (_ ++ [·]) (Lexeme.shape_lower rfl close.1)

theorem lexTagBody_lower (name : String) (opening : List Char) :
    (lexTagBody name (lower opening) (lower s)).IsLowered (lexTagBody name opening s) := by
  have body := readBody_lower s
  obtain ⟨attributes, ending⟩ := TagBody.mk.inj body.value
  have tag : Lexeme.shape ⟨.startTag name (readBody (lower s)).value.attributes
        ((readBody s).value.ending.ofName name), lower (opening ++ (readBody s).source)⟩ =
      Lexeme.shape ⟨.startTag name (readBody s).value.attributes
        ((readBody s).value.ending.ofName name), opening ++ (readBody s).source⟩ :=
    Lexeme.shape_lower (by rw [Token.shape, Token.shape, attributes]) _
  have raw := lexRawText_lower (readBody s).rest name
  simp only [lexTagBody, ending, body.source, body.rest, ← Ascii.lower_append]
  split
  · refine ⟨?_, raw.rest⟩
    rw [List.map_cons, List.map_cons, tag, raw.lexemes]
  · exact ⟨congrArg (fun shape => [shape]) tag, rfl⟩

theorem lexStartTag_lower : (lexStartTag (lower s)).IsLowered (lexStartTag s) := by
  have name := lowercase_lower (s.takeWhile isNameChar)
  simp only [lexStartTag, takeWhile_lower s isNameChar_toLower,
    dropWhile_lower s isNameChar_toLower, name]
  exact lexTagBody_lower (s.dropWhile isNameChar) _ ('<' :: s.takeWhile isNameChar)

theorem next_bang_lower :
    (next '<' ('!' :: lower s)).IsLowered (next '<' ('!' :: s)) := by
  have same : ['-', '-'] <+: lower s ↔ ['-', '-'] <+: s := prefix_lower_iff (by simp)
  by_cases dashes : ['-', '-'] <+: s
  · obtain ⟨after, rfl⟩ := dashes
    exact lexComment_lower after
  · have plain (t : List Char) (h : ¬['-', '-'] <+: t) : ∀ after, t ≠ '-' :: '-' :: after := by
      rintro after rfl
      exact h ⟨after, rfl⟩
    rw [next_declaration (plain s dashes), next_declaration (plain (lower s) (mt same.1 dashes)),
      matchWord?_lower, Option.isSome_map]
    split
    · exact lexDeclaration_lower s ['<', '!'] fun _ _ => rfl
    · exact lexDeclaration_lower s ['<', '!'] fun _ _ => rfl

theorem next_slash_lower : (next '<' ('/' :: lower s)).IsLowered (next '<' ('/' :: s)) := by
  rw [next_slash, next_slash, startsWithLetter_lower]
  split
  · exact lexEndTag_lower s
  · exact lexDeclaration_lower s ['<', '/'] fun _ _ => rfl

/-- One step of the lexer. -/
theorem next_lower (c : Char) : (next c.toLower (lower s)).IsLowered (next c s) := by
  have opens := opensMarkup_lower (c :: s)
  cases hopens : opensMarkup (c :: s) with
  | false =>
    rw [hopens, Ascii.lower_cons] at opens
    rw [next_of_not_opensMarkup hopens, next_of_not_opensMarkup opens]
    exact lexText_lower s c
  | true =>
    obtain rfl := opensMarkup_head hopens
    cases s with
    | nil => cases hopens
    | cons d ds =>
      by_cases hbang : d = '!'
      · obtain rfl := hbang
        exact next_bang_lower ds
      by_cases hquery : d = '?'
      · obtain rfl := hquery
        exact lexDeclaration_lower ds ['<', '?'] fun _ _ => rfl
      by_cases hslash : d = '/'
      · obtain rfl := hslash
        exact next_slash_lower ds
      have letter : d.isAlpha = true := by
        simpa [opensMarkup, hbang, hquery, hslash] using hopens
      have letter' : d.toLower.isAlpha = true := (Ascii.isAlpha_toLower d).trans letter
      have same : Char.toLower '<' = '<' := rfl
      rw [Ascii.lower_cons, same, next_of_isAlpha letter, next_of_isAlpha letter']
      exact lexStartTag_lower (d :: ds)

/-! ### Whole texts -/

theorem lex_lower : (lex (lower s)).map Lexeme.shape = (lex s).map Lexeme.shape := by
  fun_induction lex s with
  | case1 => rw [Ascii.lower_nil, lex_nil]
  | case2 c cs ih =>
    have step := next_lower cs c
    rw [Ascii.lower_cons, lex_cons, step.rest, List.map_append, List.map_append, step.lexemes, ih]

/-- The spans of a row depend on the shapes of its lexemes alone. -/
theorem map_zip_spansFrom_of_shape {ls ms : List Lexeme}
    (h : ls.map Lexeme.shape = ms.map Lexeme.shape) (start : Nat) :
    (ls.zip (spansFrom start ls)).map (fun piece => (piece.1.token.shape, piece.2)) =
      (ms.zip (spansFrom start ms)).map (fun piece => (piece.1.token.shape, piece.2)) := by
  induction ls generalizing ms start with
  | nil => rw [List.map_eq_nil_iff.1 h.symm]
  | cons l ls ih =>
    cases ms with
    | nil => cases h
    | cons m ms =>
      obtain ⟨first, others⟩ := List.cons.inj h
      obtain ⟨token, size⟩ := Prod.mk.inj first
      rw [spansFrom, spansFrom, List.zip_cons_cons, List.zip_cons_cons, List.map_cons,
        List.map_cons, size, ih others, token]

theorem isCutOff_shape (token : Token) : token.shape.isCutOff = token.isCutOff := by
  cases token <;> rfl

theorem endsInsideTag_eq (s : String) :
    endsInsideTag s = ((lex s.toList).map Lexeme.shape).any fun shape => shape.1.isCutOff := by
  simp only [endsInsideTag, tokens, List.any_map, Function.comp_def, Lexeme.shape, isCutOff_shape]

theorem shapes_lowercase (s : String) : shapes (Ascii.lowercase s) = shapes s := by
  rw [shapes, shapes, spanned, spanned, spans, spans, Ascii.toList_lowercase]
  exact map_zip_spansFrom_of_shape (lex_lower s.toList) 0

theorem endsInsideTag_lowercase (s : String) :
    endsInsideTag (Ascii.lowercase s) = endsInsideTag s := by
  rw [endsInsideTag_eq, endsInsideTag_eq, Ascii.toList_lowercase, lex_lower]

/-- Two strings that differ in the case of their letters alone have as many tokens, one as the
other, and at each place the tokens differ in the texts that they hold alone: they are of one sort,
in one span, with the same name and attribute names, with values for the same attributes, and with
the same ending. Both strings end inside a start tag, or neither does. -/
theorem shapes_eq_of_lowercase_eq {s t : String} (h : Ascii.lowercase s = Ascii.lowercase t) :
    shapes s = shapes t ∧ endsInsideTag s = endsInsideTag t := by
  rw [← shapes_lowercase s, ← endsInsideTag_lowercase s, h, shapes_lowercase,
    endsInsideTag_lowercase]
  exact ⟨rfl, rfl⟩

/-- The references `&AMP;` and `&amp;` make texts of different lengths, and the words `DocType` and
`SCRIPT` are known in any letter case. -/
theorem shapes_eq_of_lowercase_eq_script :
    Ascii.lowercase "<!DocType x>&AMP;<SCRIPT A=&AMP;>1</Script ><BR><P" =
      Ascii.lowercase "<!doctype x>&amp;<script a=&amp;>1</script ><br><p" ∧
    shapes "<!DocType x>&AMP;<SCRIPT A=&AMP;>1</Script ><BR><P" =
      shapes "<!doctype x>&amp;<script a=&amp;>1</script ><br><p" ∧
    endsInsideTag "<!DocType x>&AMP;<SCRIPT A=&AMP;>1</Script ><BR><P" =
      endsInsideTag "<!doctype x>&amp;<script a=&amp;>1</script ><br><p" :=
  ⟨by decide +kernel, shapes_eq_of_lowercase_eq (by decide +kernel)⟩

end MarkupTree
