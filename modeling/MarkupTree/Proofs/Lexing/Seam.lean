import MarkupTree.Proofs.Lexing.Order
import MarkupTree.Proofs.Lexing.Locality

/-!
# Seams of a text

A text can be cut in two between two lexemes, if no raw text is open there, and inside a start tag
between two of its parts. At such a *seam* nothing changes for the lexer: between lexemes each part
of the text has its own share of the tokens, and a start tag that is cut is cut off in the first
part, with the attributes so far, and goes on in the second with the others (`halves_of_isSeam`).

A lexeme is not always a step of the lexer, since the raw text of an element and its end tag come
along with the start tag. So a place between lexemes is traced back to one between steps first, and
what the steps before it read does not change when the text is cut there.

## Main definitions

* `EndsInRawText` : the rows of lexemes after which raw text is open.
* `TagCut`, `IsSeam` : the places where a start tag and a text can be cut.
* `Steps` : the lexemes that some steps of the lexer read.
* `Halves` : the tokens of a text and of its two parts.

## Main results

* `exists_steps`, `lex_between` : between lexemes, if no raw text is open, the lexer is between two
  steps, and the two parts of the text have their own lexemes.
* `Steps.of_append`, `Steps.lex_sourceOf` : the same steps in a text that is cut short, and in one
  that ends with them.
* `readBody_of_tagCut` : the inside of a start tag that is cut in two.
* `halves_of_isSeam` : the tokens of the two parts of a text.
-/

namespace MarkupTree

variable {s t rest : List Char}

/-! ### Places to cut -/

/-- A row of lexemes that ends between a start tag that opens raw text and the end tag of the
element. -/
def EndsInRawText (ls : List Lexeme) : Prop :=
  ∃ before tag after, ls = before ++ tag :: after ∧ tag.token.opensRawText ∧
    ∀ l ∈ after, l.token.kind ≠ .endTag

/-- The inside of a start tag, cut in two between parts of the tag: right after the name, or after
some parts that do not close the tag. An attribute whose equals sign gives no value, because the tag
ends there, may also be cut right after the sign, before the white space that is read with it. -/
inductive TagCut : (inside head tail : List Char) → Prop
  | here (inside : List Char) : TagCut inside [] inside
  | part {c : Char} {cs head tail : List Char}
      (hp : ∀ bySlash, (readPart c cs).value ≠ .close bySlash)
      (h : TagCut (readPart c cs).rest head tail) :
      TagCut (c :: cs) ((readPart c cs).source ++ head) tail
  | equals {c : Char} {cs blanks tail : List Char} (hn : ∀ d ∈ c :: cs, isNameChar d = true)
      (hb : ∀ d ∈ blanks, Ascii.isBlank d = true)
      (ht : endsBareValue (tail.dropWhile Ascii.isBlank)) :
      TagCut (c :: (cs ++ blanks ++ '=' :: tail)) (c :: (cs ++ blanks ++ ['='])) tail

/-- A text that is cut in two between lexemes where no raw text is open, or inside a start tag. -/
inductive IsSeam (s : List Char) : (head tail : List Char) → Prop
  | between {ls ms : List Lexeme} (h : lex s = ls ++ ms) (hms : ms ≠ [])
      (hraw : ¬EndsInRawText ls) : IsSeam s (sourceOf ls) (sourceOf ms)
  | inTag {ls ms : List Lexeme} {tag : Lexeme} {after head tail : List Char}
      (h : lex s = ls ++ tag :: ms) (ht : tag.token.kind = .startTag)
      (hs : sourceOf (tag :: ms) = '<' :: after)
      (hc : TagCut (after.dropWhile isNameChar) head tail) :
      IsSeam s (sourceOf ls ++ '<' :: (after.takeWhile isNameChar ++ head)) tail

/-! ### Steps -/

/-- Some steps of the lexer read the lexemes `ls` off the head of a text, with `rest` after
them. -/
inductive Steps : (s : List Char) → (ls : List Lexeme) → (rest : List Char) → Prop
  | refl (s : List Char) : Steps s [] s
  | step {c : Char} {cs rest : List Char} {ls : List Lexeme}
      (h : Steps (next c cs).rest ls rest) : Steps (c :: cs) ((next c cs).lexemes ++ ls) rest

variable {ls ms : List Lexeme}

theorem Steps.lex_eq (h : Steps s ls rest) : lex s = ls ++ lex rest := by
  induction h with
  | refl s => rfl
  | step _ ih => rw [lex_cons, ih, List.append_assoc]

theorem Steps.append (h : Steps s ls rest) : sourceOf ls ++ rest = s := by
  induction h with
  | refl s => rfl
  | @step c cs rest ls _ ih =>
    rw [sourceOf_append, List.append_assoc, ih]
    exact next_reads c cs

/-- What is read before the end of a text that is not empty starts as the text. -/
theorem exists_cons_of_append {c : Char} {cs read : List Char}
    (h : read ++ (rest ++ t) = c :: cs) (hne : read ≠ []) :
    ∃ ds, read ++ rest = c :: ds ∧ cs = ds ++ t := by
  obtain ⟨d, ds, rfl⟩ := List.exists_cons_of_ne_nil hne
  obtain ⟨rfl, rfl⟩ := List.cons.inj h
  exact ⟨ds ++ rest, rfl, (List.append_assoc ds rest t).symm⟩

/-- The same steps in a text that is cut short. -/
theorem Steps.of_append (h : Steps s ls (rest ++ t))
    (hr : endsText (rest ++ t) → endsText rest) : Steps (sourceOf ls ++ rest) ls rest := by
  by_cases ht : t = []
  · rw [ht, List.append_nil] at h
    rwa [h.append]
  generalize hleft : rest ++ t = left at h
  induction h with
  | refl s => exact .refl rest
  | @step c cs _ ls h ih =>
    obtain rfl := hleft
    -- The later steps come first: they tell if markup still opens after this one.
    have short := ih rfl
    have left : (next c cs).rest = (sourceOf ls ++ rest) ++ t := by
      rw [List.append_assoc, h.append]
    have stops : endsText ((sourceOf ls ++ rest) ++ t) → endsText (sourceOf ls ++ rest) := by
      rw [← left, ← beginsWithText_lex_iff, ← beginsWithText_lex_iff, h.lex_eq, short.lex_eq]
      cases ls with
      | nil => simpa only [List.nil_append, beginsWithText_lex_iff] using hr
      | cons l ls => exact id
    obtain ⟨ds, hds, rfl⟩ : ∃ ds, sourceOf (next c cs).lexemes ++ (sourceOf ls ++ rest) = c :: ds ∧
        cs = ds ++ t := by
      refine exists_cons_of_append ?_ (next_source_ne_nil c cs)
      rw [← left]
      exact next_reads c cs
    have read := next_of_append ht left stops
    rw [sourceOf_append, List.append_assoc, hds]
    have further : Steps (next c ds).rest ls rest := by rwa [read]
    have all := further.step
    rwa [read] at all

/-- The text that some steps read, alone: they read it again, and the end of input follows. -/
theorem Steps.lex_sourceOf (h : Steps s ls rest) :
    lex (sourceOf ls) = ls ++ [⟨.endOfInput, []⟩] := by
  have cut : Steps (sourceOf ls ++ []) ls [] := Steps.of_append h fun _ => rfl
  rw [List.append_nil] at cut
  rw [cut.lex_eq, lex_nil]

/-! ### Rows of lexemes -/

/-- The lexemes of one step: a single one, or a start tag that opens raw text, the text and the end
tag. -/
inductive IsBlock : List Lexeme → Prop
  | single (l : Lexeme) : IsBlock [l]
  | rawText {tag close : Lexeme} {body : List Lexeme} (ht : tag.token.opensRawText)
      (hb : ∀ l ∈ body, l.token.kind = .text) (hc : close.token.kind = .endTag) :
      IsBlock (tag :: (body ++ [close]))

theorem isBlock_lexTagBody (name : String) (opening s : List Char) :
    IsBlock (lexTagBody name opening s).lexemes := by
  simp only [lexTagBody]
  split
  · next hr =>
    have opens : (Token.startTag name (readBody s).value.attributes
        ((readBody s).value.ending.ofName name)).opensRawText = true := by
      simp [Token.opensRawText, hr.1, hr.2]
    have texts (body : List Char) : ∀ l ∈ (if body.isEmpty then [] else
        [(⟨.text (String.ofList body), body⟩ : Lexeme)]), l.token.kind = .text := by
      intro l hl
      split at hl
      · cases hl
      · rw [List.mem_singleton.1 hl]
        rfl
    simp only [lexRawText]
    split <;> exact .rawText opens (texts _) rfl
  · exact .single _

theorem isBlock_next (c : Char) (cs : List Char) : IsBlock (next c cs).lexemes := by
  unfold next
  split
  · split
    · exact .single _
    · split <;> exact .single _
    · exact .single _
    · split <;> exact .single _
    · exact isBlock_lexTagBody _ _ _
  · exact .single _

/-- Inside the lexemes of one step, raw text is open, and no start tag follows. -/
theorem IsBlock.split (h : IsBlock (ls ++ ms)) : ls = [] ∨ ms = [] ∨
    (EndsInRawText ls ∧ ∃ l others, ms = l :: others ∧ l.token.kind ≠ .startTag) := by
  generalize hrow : ls ++ ms = row at h
  cases h with
  | single l =>
    rcases List.append_eq_singleton_iff.1 hrow with ⟨hls, -⟩ | ⟨-, hms⟩
    · exact .inl hls
    · exact .inr (.inl hms)
  | @rawText tag close body ht hb hc =>
    cases ls with
    | nil => exact .inl rfl
    | cons first ls =>
      obtain ⟨rfl, hrest⟩ := List.cons.inj hrow
      have inside {others : List Lexeme} (hbody : body = ls ++ others) :
          EndsInRawText (first :: ls) ∧ ∃ l more, others ++ [close] = l :: more ∧
            l.token.kind ≠ .startTag := by
        refine ⟨⟨[], first, ls, rfl, ht, fun l hl => ?_⟩, ?_⟩
        · rw [hb l (hbody ▸ List.mem_append_left others hl)]
          decide
        · cases others with
          | nil =>
            refine ⟨close, [], rfl, ?_⟩
            rw [hc]
            decide
          | cons l more =>
            refine ⟨l, more ++ [close], rfl, ?_⟩
            rw [hb l (hbody ▸ List.mem_append_right ls List.mem_cons_self)]
            decide
      rcases List.append_eq_append_iff.1 hrest with ⟨others, hbody, rfl⟩ | ⟨more, rfl, hclose⟩
      · exact .inr (.inr (inside hbody))
      · rcases List.append_eq_singleton_iff.1 hclose.symm with ⟨rfl, rfl⟩ | ⟨-, rfl⟩
        · exact .inr (.inr (@inside [] (by rw [List.append_nil, List.append_nil])))
        · exact .inr (.inl rfl)

/-- Between lexemes, if no raw text is open there, the lexer is between two steps. Before a start
tag none is open. -/
theorem exists_steps (h : lex s = ls ++ ms) (hms : ms ≠ [])
    (hraw : EndsInRawText ls → ∃ tag others, ms = tag :: others ∧ tag.token.kind = .startTag) :
    Steps s ls (sourceOf ms) ∧ lex (sourceOf ms) = ms := by
  have whole {s : List Char} (h : lex s = ms) :
      Steps s [] (sourceOf ms) ∧ lex (sourceOf ms) = ms := by
    have source := lex_append s
    rw [h] at source
    rw [source]
    exact ⟨.refl s, h⟩
  induction s using lex.induct generalizing ls with
  | case1 =>
    rw [lex_nil] at h
    rcases List.append_eq_singleton_iff.1 h.symm with ⟨rfl, rfl⟩ | ⟨-, hnil⟩
    · exact whole lex_nil
    · exact absurd hnil hms
  | case2 c cs ih =>
    have later {others : List Lexeme} (hls : ls = (next c cs).lexemes ++ others)
        (hothers : lex (next c cs).rest = others ++ ms) :
        Steps (c :: cs) ls (sourceOf ms) ∧ lex (sourceOf ms) = ms := by
      obtain ⟨steps, row⟩ := ih hothers fun ⟨before, tag, after, hrow, ht, ha⟩ =>
        hraw ⟨(next c cs).lexemes ++ before, tag, after,
          by rw [hls, hrow, List.append_assoc], ht, ha⟩
      exact ⟨hls ▸ steps.step, row⟩
    rw [lex_cons] at h
    -- The place is after the lexemes of the first step, or among them.
    rcases List.append_eq_append_iff.1 h with ⟨others, hls, hothers⟩ | ⟨more, hblock, hrow⟩
    · exact later hls hothers
    · rcases (hblock ▸ isBlock_next c cs).split with rfl | rfl | ⟨inside, l, others, hl, hkind⟩
      · exact whole ((lex_cons c cs).trans h)
      · have same : lex (next c cs).rest = [] ++ ms := hrow.symm
        exact later (by rw [hblock, List.append_nil, List.append_nil]) same
      · obtain ⟨tag, _, hms', htag⟩ := hraw inside
        rw [hrow, hl] at hms'
        obtain ⟨rfl, -⟩ := List.cons.inj hms'
        exact absurd htag hkind

/-- Between lexemes, if no raw text is open there, those before the place and those after it are the
lexemes of the two parts of the text. -/
theorem lex_between (h : lex s = ls ++ ms) (hms : ms ≠ []) (hraw : ¬EndsInRawText ls) :
    lex (sourceOf ls) = ls ++ [⟨.endOfInput, []⟩] ∧ lex (sourceOf ms) = ms := by
  obtain ⟨steps, row⟩ := exists_steps h hms fun hr => absurd hr hraw
  exact ⟨steps.lex_sourceOf, row⟩

/-! ### Start tags in two parts -/

variable {inside head tail : List Char}

theorem TagCut.append (h : TagCut inside head tail) : head ++ tail = inside := by
  induction h with
  | here inside => rfl
  | @part c cs head tail _ _ ih => rw [List.append_assoc, ih, readPart_append]
  | equals => simp

/-- A cut does not separate a slash from the `>` that ends the tag. -/
theorem TagCut.head?_ne (h : TagCut inside ['/'] tail) : tail.head? ≠ some '>' := by
  generalize hslash : ['/'] = slash at h
  cases h with
  | here => cases hslash
  | @part c cs head _ hp h =>
    rcases List.append_eq_singleton_iff.1 hslash.symm with ⟨hnil, -⟩ | ⟨hsource, rfl⟩
    · exact absurd hnil (readPart_source_ne_nil c cs)
    · have whole := readPart_append c cs
      rw [hsource, ← h.append] at whole
      obtain ⟨rfl, rfl⟩ := List.cons.inj whole
      intro hhead
      obtain ⟨after, rfl⟩ := List.head?_eq_some_iff.1 hhead
      exact hp true rfl
  | equals => simp at hslash

/-- White space adds nothing to a start tag. -/
theorem readBody_dropWhile_isBlank (s : List Char) :
    (readBody (s.dropWhile Ascii.isBlank)).value = (readBody s).value ∧
      (readBody (s.dropWhile Ascii.isBlank)).rest = (readBody s).rest := by
  induction s with
  | nil => exact ⟨rfl, rfl⟩
  | cons c cs ih =>
    cases hc : Ascii.isBlank c with
    | false =>
      rw [List.dropWhile_cons_of_neg (by simp [hc])]
      exact ⟨rfl, rfl⟩
    | true =>
      obtain ⟨hvalue, hrest⟩ := readBody_of_isBlank hc cs
      rw [List.dropWhile_cons_of_pos hc, hvalue, hrest]
      exact ih

/-- An equals sign before the end of the tag gives the empty value. -/
theorem readValue_of_endsBareValue (h : endsBareValue s = true) : readValue s = ⟨"", [], s⟩ := by
  have empty : Reference.decoded [] = "" := by
    rw [Reference.decoded, Reference.decode_nil, String.ofList_nil]
  cases s with
  | nil => rw [show readValue [] = readBare [] from rfl, readBare, Text.breakWhere_nil, empty]
  | cons c cs =>
    have notQuote : c ≠ '"' ∧ c ≠ '\x27' := by
      constructor <;>
      · rintro rfl
        simp [endsBareValue_cons, Ascii.isBlank] at h
    rw [readValue_of_ne notQuote.1 notQuote.2, readBare, Text.breakWhere_cons, if_pos h, empty]

theorem readAttribute_equals {name blanks : List Char} (hn : ∀ d ∈ name, isNameChar d = true)
    (hb : ∀ d ∈ blanks, Ascii.isBlank d = true)
    (ht : endsBareValue (tail.dropWhile Ascii.isBlank)) :
    ∃ source, readAttribute (name ++ blanks ++ '=' :: tail) =
      ⟨.attr ⟨Ascii.lowercase (String.ofList name), some ""⟩, source,
        tail.dropWhile Ascii.isBlank⟩ := by
  have ends : endsName (blanks ++ '=' :: tail) := by
    cases blanks with
    | nil => rfl
    | cons d ds =>
      have blank := isNameChar_of_isBlank (hb d List.mem_cons_self)
      simp [endsName, blank]
  obtain ⟨htake, hdrop⟩ := takeWhile_isNameChar hn ends
  have equals : (blanks ++ '=' :: tail).dropWhile Ascii.isBlank = '=' :: tail := by
    rw [List.dropWhile_append_of_pos hb]
    rfl
  simp only [readAttribute, List.append_assoc, htake, hdrop, readGiven?, equals,
    readValue_of_endsBareValue ht]
  exact ⟨_, rfl⟩

/-- The inside of a start tag that is cut in two. The first part has the attributes up to the cut,
the second the others and the end of the tag. -/
theorem readBody_of_tagCut (h : TagCut inside head tail) :
    ∃ attributes, (readBody head).value = ⟨attributes, .cutOff⟩ ∧
      (readBody inside).value = { (readBody tail).value with
        attributes := attributes ++ (readBody tail).value.attributes } ∧
      (readBody inside).rest = (readBody tail).rest := by
  induction h with
  | here inside =>
    rw [readBody_nil]
    exact ⟨[], rfl, rfl, rfl⟩
  | @part c cs head tail hp h ih =>
    obtain ⟨attributes, hvalue, hwhole, hleft⟩ := ih
    obtain ⟨ds, hds, rfl⟩ : ∃ ds, (readPart c cs).source ++ head = c :: ds ∧ cs = ds ++ tail := by
      refine exists_cons_of_append ?_ (readPart_source_ne_nil c cs)
      rw [h.append, readPart_append]
    have read := readPart_of_append h.append.symm fun _ hslash => by
      rw [hslash] at h
      exact h.head?_ne
    rw [hds, readBody_of_not_close hp, readBody_of_not_close (by rwa [read]), read]
    refine ⟨(readPart c (ds ++ tail)).value.attributes ++ attributes, ?_, ?_, hleft⟩
    · simp only [hvalue]
    · simp only [hwhole, List.append_assoc]
  | @equals c cs blanks tail hn hb ht =>
    have first := hn c List.mem_cons_self
    have read {more : List Char} (hmore : endsBareValue (more.dropWhile Ascii.isBlank)) :
        (readBody (c :: (cs ++ blanks ++ '=' :: more))).value =
            { (readBody more).value with
              attributes := ⟨Ascii.lowercase (String.ofList (c :: cs)), some ""⟩ ::
                (readBody more).value.attributes } ∧
          (readBody (c :: (cs ++ blanks ++ '=' :: more))).rest = (readBody more).rest := by
      obtain ⟨source, hread⟩ := readAttribute_equals hn hb hmore
      obtain ⟨hvalue, hrest⟩ := readBody_dropWhile_isBlank more
      rw [← hvalue, ← hrest]
      exact readBody_of_attr ((readPart_of_isNameChar first _).trans hread)
    obtain ⟨hhead, -⟩ := @read [] rfl
    obtain ⟨hwhole, hleft⟩ := read ht
    rw [readBody_nil] at hhead
    exact ⟨_, hhead, hwhole, hleft⟩

/-! ### Tokens of the two parts -/

/-- The tokens of a text `whole` and of its two parts. Either each part has its share, or a start
tag is cut off in the first part, with some of its attributes, and goes on in the second with the
others. -/
inductive Halves (whole first second : String) : Prop
  | between {ts us : List Token} (hw : tokens whole = ts ++ us)
      (hf : tokens first = ts ++ [.endOfInput]) (hs : tokens second = us)
      (ht : ∀ t ∈ ts, t.isCutOff = false)
  | inTag {ts us : List Token} {name : String} {attributes others : List Attribute}
      {ending : TagEnd}
      (hw : tokens whole = ts ++ .startTag name (attributes ++ others) ending :: us)
      (hf : tokens first = ts ++ [.startTag name attributes .cutOff, .endOfInput])
      (hs : tagRestTokens name second = .startTag name others ending :: us)
      (ht : ∀ t ∈ ts, t.isCutOff = false)

/-- The rest of a start tag that is cut in two. -/
theorem tagRestTokens_of_tagCut (h : TagCut inside head tail) (name : String) :
    ∃ attributes others ending us,
      tagRestTokens name (String.ofList inside) =
          .startTag name (attributes ++ others) ending :: us ∧
        tagRestTokens name (String.ofList head) =
          [.startTag name attributes .cutOff, .endOfInput] ∧
        tagRestTokens name (String.ofList tail) = .startTag name others ending :: us := by
  obtain ⟨attributes, hhead, hwhole, hleft⟩ := readBody_of_tagCut h
  have cut : tagRestTokens name (String.ofList head) =
      [.startTag name attributes .cutOff, .endOfInput] := by
    rw [tagRestTokens_of_cutOff (by rw [hhead]), hhead]
  by_cases hraw : (readBody tail).value.ending.ofName name = .plain ∧ hasRawText name
  · refine ⟨attributes, (readBody tail).value.attributes, .plain, _, ?_, cut,
      tagRestTokens_of_raw hraw⟩
    rw [tagRestTokens_of_raw (by rwa [hwhole]), hwhole, hleft]
  · refine ⟨attributes, (readBody tail).value.attributes, _, _, ?_, cut,
      tagRestTokens_of_not_raw hraw⟩
    rw [tagRestTokens_of_not_raw (by rwa [hwhole]), hwhole, hleft]

/-- Where a start tag is read, a letter stands after the `<`. -/
theorem startsWithLetter_of_lex {tag : Lexeme} (h : lex ('<' :: s) = tag :: ms)
    (ht : tag.token.kind = .startTag) : startsWithLetter s := by
  have other {first : Lexeme} {more : List Lexeme} (heq : first :: more = tag :: ms)
      (hkind : first.token.kind ≠ .startTag) : startsWithLetter s := by
    obtain ⟨rfl, -⟩ := List.cons.inj heq
    exact absurd ht hkind
  rw [lex_cons] at h
  cases hopens : opensMarkup ('<' :: s) with
  | false =>
    rw [next_of_not_opensMarkup hopens] at h
    exact other h nofun
  | true =>
    unfold next at h
    rw [if_pos hopens] at h
    split at h
    · exact other h nofun
    · split at h <;> exact other h nofun
    · exact other h nofun
    · split at h <;> exact other h nofun
    · next hbang hquery hslash => exact startsWithLetter_of_opensMarkup hopens hbang hquery hslash

theorem lex_ne_nil (s : List Char) : lex s ≠ [] := by
  intro hnil
  have orderly := orderly_lex s
  rw [hnil] at orderly
  cases orderly

/-- Only a text that is empty has no token but the end of input. -/
theorem eq_nil_of_lex (h : (lex s).map Lexeme.token = [.endOfInput]) : s = [] := by
  cases s with
  | nil => rfl
  | cons c cs =>
    have some : (next c cs).lexemes ≠ [] := by
      intro hnil
      exact next_source_ne_nil c cs (by rw [hnil, sourceOf_nil])
    rw [lex_cons, List.map_append] at h
    rcases List.append_eq_singleton_iff.1 h with ⟨hnil, -⟩ | ⟨-, hnil⟩
    · exact absurd (List.map_eq_nil_iff.1 hnil) some
    · exact absurd (List.map_eq_nil_iff.1 hnil) (lex_ne_nil _)

/-- Between lexemes each part of a text has its own share of the tokens. -/
theorem halves_between (h : lex s = ls ++ ms) (hms : ms ≠ []) (hraw : ¬EndsInRawText ls) :
    Halves (String.ofList s) (String.ofList (sourceOf ls)) (String.ofList (sourceOf ms)) := by
  obtain ⟨short, row⟩ := lex_between h hms hraw
  have whole : tokens (String.ofList s) = ls.map Lexeme.token ++ ms.map Lexeme.token := by
    rw [tokens, String.toList_ofList, h, List.map_append]
  have first : tokens (String.ofList (sourceOf ls)) =
      ls.map Lexeme.token ++ [.endOfInput] := by
    rw [tokens, String.toList_ofList, short, List.map_append]
    rfl
  have orderly := orderly_tokens (String.ofList s)
  rw [whole] at orderly
  rcases orderly.cutOff_cases (fun hnil => hms (List.map_eq_nil_iff.1 hnil)) with
    hts | ⟨others, name, attributes, hts, hend, hothers⟩
  · refine .between whole first ?_ hts
    rw [tokens, String.toList_ofList, row]
  · -- The cut is at the end of a text that ends inside a start tag.
    have nothing : sourceOf ms = [] := eq_nil_of_lex (by rw [row, hend])
    rw [hts, hend] at whole
    rw [hts] at first
    have cut : tokens (String.ofList s) =
        others ++ [.startTag name (attributes ++ []) .cutOff, .endOfInput] := by
      rw [whole, List.append_nil, List.append_assoc]
      rfl
    have same : tokens (String.ofList (sourceOf ls)) =
        others ++ [.startTag name attributes .cutOff, .endOfInput] := by
      rw [first, List.append_assoc]
      rfl
    refine .inTag cut same ?_ hothers
    rw [nothing, tagRestTokens_nil]

/-- The beginning of a start tag that is cut in two: the name and the parts before the cut. -/
theorem tokens_tagHead (h : startsWithLetter s)
    (hc : TagCut (s.dropWhile isNameChar) head tail) :
    s = (s.takeWhile isNameChar ++ head) ++ tail ∧
      opensMarkup ('<' :: (s.takeWhile isNameChar ++ head)) = true ∧
      (lex ('<' :: (s.takeWhile isNameChar ++ head))).map Lexeme.token =
        tagRestTokens (Ascii.lowercase (String.ofList (s.takeWhile isNameChar)))
          (String.ofList head) := by
  have parts : s.takeWhile isNameChar ++ s.dropWhile isNameChar = s :=
    List.takeWhile_append_dropWhile
  rw [← hc.append, ← List.append_assoc] at parts
  obtain ⟨c, cs, rfl⟩ : ∃ c cs, s = c :: cs := by
    cases s with
    | nil => cases h
    | cons c cs => exact ⟨c, cs, rfl⟩
  have first : (c :: cs).takeWhile isNameChar = c :: cs.takeWhile isNameChar :=
    List.takeWhile_cons_of_pos (isNameChar_of_isAlpha h)
  have letter : startsWithLetter ((c :: cs).takeWhile isNameChar ++ head) := by
    rw [first]
    exact h
  have cut : ((c :: cs).takeWhile isNameChar ++ head ++ tail).dropWhile isNameChar =
      head ++ tail := by rw [parts, hc.append]
  obtain ⟨htake, hdrop⟩ := takeWhile_of_append cut
  rw [parts] at htake
  refine ⟨parts.symm, ?_, ?_⟩
  · rw [first]
    simp [opensMarkup, show c.isAlpha = true from h]
  · rw [lex_of_startsWithLetter letter, htake, hdrop]

/-- A start tag that is cut in two. -/
theorem halves_inTag {tag : Lexeme} {after : List Char} (h : lex s = ls ++ tag :: ms)
    (ht : tag.token.kind = .startTag) (hs : sourceOf (tag :: ms) = '<' :: after)
    (hc : TagCut (after.dropWhile isNameChar) head tail) :
    Halves (String.ofList s)
      (String.ofList (sourceOf ls ++ '<' :: (after.takeWhile isNameChar ++ head)))
      (String.ofList tail) := by
  obtain ⟨steps, row⟩ := exists_steps h (List.cons_ne_nil _ _) fun _ => ⟨tag, ms, rfl, ht⟩
  rw [hs] at steps row
  have letter := startsWithLetter_of_lex row ht
  obtain ⟨attributes, others, ending, us, hinside, hhead, htail⟩ :=
    tagRestTokens_of_tagCut hc (Ascii.lowercase (String.ofList (after.takeWhile isNameChar)))
  have whole : tokens (String.ofList s) = ls.map Lexeme.token ++
      .startTag (Ascii.lowercase (String.ofList (after.takeWhile isNameChar)))
        (attributes ++ others) ending :: us := by
    rw [← hinside, ← lex_of_startsWithLetter letter, row, tokens, String.toList_ofList, h,
      List.map_append]
  have first : tokens (String.ofList (sourceOf ls ++
      '<' :: (after.takeWhile isNameChar ++ head))) = ls.map Lexeme.token ++
      [.startTag (Ascii.lowercase (String.ofList (after.takeWhile isNameChar)))
        attributes .cutOff, .endOfInput] := by
    obtain ⟨hafter, hopens, hread⟩ := tokens_tagHead letter hc
    have left : '<' :: after = ('<' :: (after.takeWhile isNameChar ++ head)) ++ tail :=
      congrArg ('<' :: ·) hafter
    rw [left] at steps
    have cut := steps.of_append fun _ => Bool.or_eq_true_iff.2 (.inr hopens)
    rw [tokens, String.toList_ofList, cut.lex_eq, List.map_append, hread, hhead]
  have orderly := orderly_tokens (String.ofList s)
  rw [whole] at orderly
  rcases orderly.cutOff_cases (List.cons_ne_nil _ _) with hts | ⟨_, _, _, -, hend, -⟩
  · exact .inTag whole first htail hts
  · cases hend

/-- The tokens of a text that is cut at a seam, and of its parts. -/
theorem halves_of_isSeam (h : IsSeam s head tail) :
    Halves (String.ofList s) (String.ofList head) (String.ofList tail) := by
  cases h with
  | between h hms hraw => exact halves_between h hms hraw
  | inTag h ht hs hc => exact halves_inTag h ht hs hc

end MarkupTree
