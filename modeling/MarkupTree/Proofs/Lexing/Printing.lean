import MarkupTree.Proofs.Lexing.NormalForm

/-!
# Printing tokens

Tokens are printed one after another, each in the plainest way. Attributes have a space before them
and their values between double quotes, ordinary texts have references for `&` and `<`, a tag that
closes itself ends in `/>`, and raw text is printed as it is.

What is printed for tokens in normal form is read as these tokens (`lex_printFrom`). With the
normal form of what is read (`isNormal_tokens`), printing and reading are inverse to each other
between the normal rows and the texts that are printed, and a text may be replaced by what is
printed for its tokens (`tokens_normalForm`).

Each token has its law: printed before a text, it is read first, and then the text is read. A text
before it could take no more than it has, because each token but a text starts by opening markup.

## Main definitions

* `Attribute.print`, `TagEnd.print`, `Token.print` : what is printed for the pieces.
* `printTokens` : what is printed for a row of tokens.

## Main results

* `readBody_print` : the inside of a start tag.
* `lexRawText_print` : raw text and its end tag.
* `lex_printFrom` : printed tokens in normal form are read back.
* `tokens_normalForm` : the normal form of tokens, and what printing does.
-/

namespace MarkupTree

/-! ### What is printed -/

/-- An attribute as it is printed, with the space before it. -/
def Attribute.print (a : Attribute) : List Char :=
  match a.value with
  | some value => spellAttribute a.name value
  | none => ' ' :: a.name.toList

/-- The end of a start tag as it is printed. -/
def TagEnd.print : TagEnd → List Char
  | plain => ['>']
  | selfClosing => ['/', '>']
  | cutOff => []

namespace Token

/-- A token as it is printed where no raw text is open. -/
def print : Token → List Char
  | .doctype body => '<' :: '!' :: (body.toList ++ ['>'])
  | .startTag name attributes ending =>
    '<' :: (name.toList ++ (attributes.flatMap Attribute.print ++ ending.print))
  | .endTag name => spellEndTag name
  | .text body => escapeText body
  | .comment body => "<!--".toList ++ (body.toList ++ commentEnd)
  | .endOfInput => []

/-- A token as it is printed where raw text is open: a text as it is. -/
def printRaw : Token → List Char
  | .text body => body.toList
  | token => token.print

end Token

/-- Tokens as they are printed. If `raw` holds, raw text is open before the first. -/
def printFrom (raw : Bool) : List Token → List Char
  | [] => []
  | token :: tokens =>
    (if raw then token.printRaw else token.print) ++ printFrom token.opensRawText tokens

/-- A row of tokens as it is printed. -/
def printTokens (tokens : List Token) : String := String.ofList (printFrom false tokens)

theorem printFrom_cons (token : Token) (tokens : List Token) :
    printFrom false (token :: tokens) =
      token.print ++ printFrom token.opensRawText tokens := rfl

/-- A token after which no raw text is open. -/
theorem printFrom_cons_of_not_raw {token : Token} (h : token.opensRawText = false)
    (tokens : List Token) :
    printFrom false (token :: tokens) = token.print ++ printFrom false tokens := by
  rw [printFrom_cons, h]

/-- A start tag that opens raw text, the text and the end tag. -/
theorem printFrom_rawText {name : String} (hr : hasRawText name) (attributes : List Attribute)
    (body? : Option String) (tokens : List Token) :
    printFrom false (.startTag name attributes .plain ::
        ((body?.map Token.text).toList ++ .endTag name :: tokens)) =
      '<' :: (name.toList ++ (attributes.flatMap Attribute.print ++ (TagEnd.plain.print ++
        ((body?.getD "").toList ++ (spellEndTag name ++ printFrom false tokens))))) := by
  have opens : (Token.startTag name attributes .plain).opensRawText = true := hr
  rw [printFrom_cons, opens]
  cases body? <;> simp [Token.print, Token.printRaw, printFrom, Token.opensRawText]

/-- What is printed for tokens that do not start with a text opens markup, or is empty. -/
theorem endsText_printFrom {ts : List Token} (h : IsNormal ts) (hb : beginsWithText ts = false) :
    endsText (printFrom false ts) := by
  have tag {name : String} (hn : isTagName name) (s : List Char) :
      endsText ('<' :: (name.toList ++ s)) := by
    obtain ⟨c, cs, hname, hletter, -⟩ := exists_of_isTagName hn
    simp [hname, endsText, opensMarkup, hletter]
  cases h with
  | text => cases hb
  | startTag ht =>
    rw [printFrom_cons, Token.print, List.cons_append, List.append_assoc]
    exact tag ht.named _
  | rawText ht =>
    rw [printFrom_cons, Token.print, List.cons_append, List.append_assoc]
    exact tag ht.named _
  | _ => rfl

/-! ### The inside of a start tag -/

variable {name : String} {rest : List Char}

/-- Whether a text cannot be taken for more of an attribute without a value: not for more of its
name, and not for a value. -/
def endsAttribute (s : List Char) : Bool :=
  endsName s && (s.dropWhile Ascii.isBlank).head? != some '='

theorem readGiven?_eq_none {s : List Char} (h : endsAttribute s) : readGiven? s = none := by
  have next : (s.dropWhile Ascii.isBlank).head? ≠ some '=' :=
    bne_iff_ne.1 (Bool.and_eq_true_iff.1 h).2
  unfold readGiven?
  split
  · next heq => exact absurd (congrArg List.head? heq) next
  · rfl

/-- An attribute without a value inside a start tag is read as the first of the tag. -/
theorem readBody_bareAttribute (h : isAttributeName name) (hr : endsAttribute rest) :
    (readBody (' ' :: (name.toList ++ rest))).value =
        { (readBody rest).value with
          attributes := ⟨name, none⟩ :: (readBody rest).value.attributes } ∧
      (readBody (' ' :: (name.toList ++ rest))).rest = (readBody rest).rest := by
  obtain ⟨_, _, -, -, hsmall⟩ := exists_of_isAttributeName h
  obtain ⟨htake, hdrop⟩ := takeWhile_name hsmall (Bool.and_eq_true_iff.1 hr).1
  have read : readAttribute (name.toList ++ rest) =
      ⟨.attr ⟨name, none⟩, name.toList, rest⟩ := by
    simp only [readAttribute, htake, hdrop, readGiven?_eq_none hr, lowercase_of_isSmallName hsmall]
  exact readBody_of_readAttribute h read

/-- An attribute inside a start tag, printed. -/
theorem readBody_printAttribute {a : Attribute} (h : isAttributeName a.name)
    (hr : endsAttribute rest) :
    (readBody (a.print ++ rest)).value =
        { (readBody rest).value with attributes := a :: (readBody rest).value.attributes } ∧
      (readBody (a.print ++ rest)).rest = (readBody rest).rest := by
  obtain ⟨name, value?⟩ := a
  cases value? with
  | some value => exact readBody_spellAttribute h value rest
  | none => exact readBody_bareAttribute h hr

/-- After a name, a name that stands after a space cannot be taken for more of an attribute. -/
theorem endsAttribute_space (h : isAttributeName name) (s : List Char) :
    endsAttribute (' ' :: (name.toList ++ s)) := by
  obtain ⟨c, cs, hname, hc, -⟩ := exists_of_isAttributeName h
  have solid : Ascii.isBlank c = false := by
    rw [← Bool.not_eq_true]
    intro hb
    rw [isNameChar_of_isBlank hb] at hc
    cases hc
  have other : c ≠ '=' := by
    rintro rfl
    cases hc
  have space : isNameChar ' ' = false ∧ Ascii.isBlank ' ' = true := ⟨rfl, rfl⟩
  simp [endsAttribute, endsName, hname, solid, other, space]

theorem endsAttribute_print {a : Attribute} (h : isAttributeName a.name) (s : List Char) :
    endsAttribute (a.print ++ s) := by
  obtain ⟨name, value?⟩ := a
  cases value? with
  | some value =>
    have spelled := endsAttribute_space h
      ('=' :: '"' :: ((Reference.escapeQuoted value).toList ++ ['"']) ++ s)
    simpa [Attribute.print, spellAttribute] using spelled
  | none => exact endsAttribute_space h s

theorem endsAttribute_ending {ending : TagEnd} (h : ending ≠ .cutOff) (s : List Char) :
    endsAttribute (ending.print ++ s) := by
  cases ending with
  | cutOff => exact absurd rfl h
  | _ => rfl

theorem readBody_ending {ending : TagEnd} (h : ending ≠ .cutOff) (s : List Char) :
    (readBody (ending.print ++ s)).value = ⟨[], ending⟩ ∧
      (readBody (ending.print ++ s)).rest = s := by
  cases ending with
  | plain => exact readBody_close s
  | selfClosing =>
    have closes : (readPart '/' ('>' :: s)).value = .close true := rfl
    rw [TagEnd.print, List.cons_append, List.cons_append, List.nil_append, readBody_of_close closes]
    exact ⟨rfl, rfl⟩
  | cutOff => exact absurd rfl h

/-- The inside of a start tag, printed. -/
theorem readBody_print {attributes : List Attribute} (h : ∀ a ∈ attributes, isAttributeName a.name)
    {ending : TagEnd} (he : ending ≠ .cutOff) (s : List Char) :
    (readBody (attributes.flatMap Attribute.print ++ (ending.print ++ s))).value =
        ⟨attributes, ending⟩ ∧
      (readBody (attributes.flatMap Attribute.print ++ (ending.print ++ s))).rest = s ∧
      endsAttribute (attributes.flatMap Attribute.print ++ (ending.print ++ s)) := by
  induction attributes with
  | nil =>
    obtain ⟨hvalue, hrest⟩ := readBody_ending he s
    exact ⟨hvalue, hrest, endsAttribute_ending he s⟩
  | cons a others ih =>
    obtain ⟨ha, hothers⟩ := List.forall_mem_cons.1 h
    obtain ⟨ihvalue, ihrest, ihends⟩ := ih hothers
    obtain ⟨hvalue, hrest⟩ := readBody_printAttribute ha ihends
    rw [List.flatMap_cons, List.append_assoc]
    refine ⟨?_, hrest.trans ihrest, endsAttribute_print ha _⟩
    rw [hvalue, ihvalue]

/-! ### Tags -/

/-- A start tag, printed, with whatever follows it. -/
theorem lex_printTag {attributes : List Attribute} {ending : TagEnd}
    (h : IsNormalTag name attributes ending) (s : List Char) :
    (lex ('<' :: (name.toList ++ (attributes.flatMap Attribute.print ++ (ending.print ++ s))))).map
        Lexeme.token =
      if ending = .plain ∧ hasRawText name then
        .startTag name attributes .plain :: ((lexRawText name s).lexemes.map Lexeme.token ++
          (lex (lexRawText name s).rest).map Lexeme.token)
      else .startTag name attributes ending :: (lex s).map Lexeme.token := by
  obtain ⟨hvalue, hrest, hends⟩ := readBody_print h.attributes h.whole s
  have kept : ending.ofName name = ending := by
    cases ending with
    | plain =>
      have filled : ¬isVoid name := fun hv => TagEnd.noConfusion (h.void hv)
      rw [TagEnd.ofName, if_neg filled]
    | _ => rfl
  rw [lex_startTag h.named (Bool.and_eq_true_iff.1 hends).1]
  split
  · next raw =>
    obtain ⟨rfl, hraw⟩ := raw
    rw [tagRestTokens_of_raw (by rw [hvalue]; exact ⟨kept, hraw⟩), hvalue, hrest]
  · next raw =>
    rw [tagRestTokens_of_not_raw (by rw [hvalue, kept]; exact raw), hvalue, hrest, kept]

/-! ### Raw text -/

/-- A close tag has no `<` but its first character. -/
theorem lt_notMem_tail_closeTag (hn : isTagName name) {spelled blanks : List Char}
    (hl : Ascii.lower spelled = '<' :: '/' :: name.toList) (hb : blanks.all Ascii.isBlank) :
    '<' ∉ (spelled ++ blanks ++ ['>']).tail := by
  obtain ⟨_, _, -, -, hsmall⟩ := exists_of_isTagName hn
  cases spelled with
  | nil => cases hl
  | cons c cs =>
    intro h
    rw [List.cons_append, List.cons_append, List.tail_cons, List.append_assoc] at h
    rcases List.mem_append.1 h with h | h
    · have small : '<' ∈ '/' :: name.toList := by
        rw [← (List.cons.inj hl).2]
        exact List.mem_map_of_mem (f := Char.toLower) h
      rcases List.mem_cons.1 small with h | h
      · cases h
      · cases isNameChar_of_isSmallName hsmall _ h
    · rcases List.mem_append.1 h with h | h
      · cases List.all_eq_true.1 hb _ h
      · cases List.mem_singleton.1 h

/-- In raw text that has no close tag, printed before its end tag, no close tag starts. -/
theorem closeTag?_inside (hn : isTagName name) {body before after : List Char}
    (h : body = before ++ after) (ha : after ≠ []) (hb : ¬HoldsCloseTag name body)
    (s : List Char) : closeTag? name (after ++ (spellEndTag name ++ s)) = none := by
  cases hc : closeTag? name (after ++ (spellEndTag name ++ s)) with
  | none => rfl
  | some parts =>
    exfalso
    obtain ⟨source, rest⟩ := parts
    obtain ⟨spelled, blanks, hl, hblanks, hsource, hwhole⟩ := closeTag?_eq_some_iff.1 hc
    have inside (under : List Char) (hunder : after = source ++ under) : False :=
      hb ⟨before, spelled, blanks, under, by rw [h, hunder, hsource], hl, hblanks⟩
    -- A close tag that goes on after the raw text has the `<` of the end tag in it.
    rcases List.append_eq_append_iff.1 hwhole with ⟨more, hmore, hend⟩ | ⟨under, hunder, -⟩
    · cases more with
      | nil => exact inside [] (by rw [hmore, List.append_nil, List.append_nil])
      | cons d ds =>
        obtain rfl : '<' = d := (List.cons.inj hend).1
        obtain ⟨c, cs, rfl⟩ := List.exists_cons_of_ne_nil ha
        refine lt_notMem_tail_closeTag hn hl hblanks ?_
        rw [← hsource, hmore, List.cons_append, List.tail_cons]
        exact List.mem_append_right cs List.mem_cons_self
    · exact inside under hunder

theorem closeTag?_spellEndTag (name : String) (s : List Char)
    (hsmall : isSmallName name.toList) :
    closeTag? name (spellEndTag name ++ s) = some (spellEndTag name, s) := by
  have lower : Ascii.lower name.toList = name.toList := by
    have small := congrArg String.toList (lowercase_of_isSmallName hsmall)
    rwa [String.ofList_toList, Ascii.toList_lowercase] at small
  refine closeTag?_eq_some_iff.2 ⟨'<' :: '/' :: name.toList, [], ?_, rfl, ?_, rfl⟩
  · exact congrArg (fun letters => '<' :: '/' :: letters) lower
  · rw [List.append_nil]
    rfl

/-- Raw text and its end tag, printed. -/
theorem lexRawText_print (hn : isTagName name) {body : List Char}
    (hb : ¬HoldsCloseTag name body) (s : List Char) :
    (lexRawText name (body ++ (spellEndTag name ++ s))).lexemes.map Lexeme.token =
        (if body.isEmpty then [] else [.text (String.ofList body)]) ++ [.endTag name] ∧
      (lexRawText name (body ++ (spellEndTag name ++ s))).rest = s := by
  obtain ⟨_, _, -, -, hsmall⟩ := exists_of_isTagName hn
  have close := closeTag?_spellEndTag name s hsmall
  have cut : breakRawText name (body ++ (spellEndTag name ++ s)) =
      (body, spellEndTag name ++ s) := by
    refine Text.breakWhere_eq ?_ (.inr ?_)
    · intro before after h ha
      rw [closeTag?_inside hn h ha hb, Option.isSome_none]
    · rw [close, Option.isSome_some]
  simp only [lexRawText, cut, close, and_true]
  cases body <;> rfl

/-! ### Declarations -/

/-- In a comment without the end of one, printed before its end, no end of a comment starts. -/
theorem endsComment_inside {body before after : List Char} (h : body = before ++ after)
    (ha : after ≠ []) (hb : ¬commentEnd <:+: body) (s : List Char) :
    endsComment (after ++ (commentEnd ++ s)) = false := by
  cases hc : endsComment (after ++ (commentEnd ++ s)) with
  | false => rfl
  | true =>
    exfalso
    have inside (under : List Char) (hunder : after = commentEnd ++ under) : False :=
      hb ⟨before, under, by rw [h, hunder, List.append_assoc]⟩
    obtain ⟨rest, hrest⟩ : ∃ rest, after ++ (commentEnd ++ s) = commentEnd ++ rest := by
      unfold endsComment at hc
      split at hc
      · next rest heq => exact ⟨rest, heq⟩
      · cases hc
    -- An end that has only a part in the comment has its `>` where a `-` stands.
    match after with
    | [] => exact ha rfl
    | [_] => cases hrest
    | [_, _] => cases hrest
    | c :: d :: e :: under =>
      simp only [commentEnd, List.cons_append, List.cons.injEq] at hrest
      obtain ⟨rfl, rfl, rfl, -⟩ := hrest
      exact inside under rfl

/-- A comment, printed. -/
theorem lex_printComment {body : List Char} (h : ¬commentEnd <:+: body) (s : List Char) :
    (lex ("<!--".toList ++ (body ++ (commentEnd ++ s)))).map Lexeme.token =
      .comment (String.ofList body) :: (lex s).map Lexeme.token := by
  have cut : Text.breakWhere endsComment (body ++ (commentEnd ++ s)) = (body, commentEnd ++ s) :=
    Text.breakWhere_eq (fun _ _ hbody ha => endsComment_inside hbody ha h s) (.inr rfl)
  have step : next '<' ('!' :: '-' :: '-' :: (body ++ (commentEnd ++ s))) =
      lexComment (body ++ (commentEnd ++ s)) := rfl
  have whole : "<!--".toList ++ (body ++ (commentEnd ++ s)) =
    '<' :: '!' :: '-' :: '-' :: (body ++ (commentEnd ++ s)) := rfl
  rw [whole, lex_cons, step, lexComment, cut]
  rfl

/-- A declaration with the word `doctype` opens a document type declaration. -/
theorem next_doctype {s : List Char} (h : Ascii.lower (s.take 7) = "doctype".toList)
    (rest : List Char) :
    next '<' ('!' :: (s ++ rest)) = lexDeclaration ['<', '!'] doctype (s ++ rest) := by
  have opens : opensMarkup ('<' :: '!' :: (s ++ rest)) = true := rfl
  have word : (Ascii.matchWord? "doctype".toList (s ++ rest)).isSome := by
    rw [← List.take_append_drop 7 s, List.append_assoc, ← h, Ascii.matchWord?_spelled]
    rfl
  have notDash (t : List Char) : s ++ rest ≠ '-' :: '-' :: t := by
    intro heq
    cases s with
    | nil => cases h
    | cons c cs =>
      obtain rfl : c = '-' := (List.cons.inj heq).1
      cases isAlpha_of_lower_eq h '-' List.mem_cons_self
  unfold next
  rw [if_pos opens]
  split
  · next t heq => exact absurd (List.cons.inj heq).2 (notDash t)
  · next heq =>
    rw [← (List.cons.inj heq).2, if_pos word]
  · next heq => cases heq
  · next heq => cases heq
  · next hbang _ _ => exact absurd rfl (hbang _)

/-- A document type declaration, printed. -/
theorem lex_printDoctype {body : List Char} (h : IsDoctypeText body) (s : List Char) :
    (lex ('<' :: '!' :: (body ++ '>' :: s))).map Lexeme.token =
      .doctype (String.ofList body) :: (lex s).map Lexeme.token := by
  have inside : ∀ c ∈ body, (c != '>') = true := by
    intro c hc
    refine bne_iff_ne.2 ?_
    rintro rfl
    exact h.notMem hc
  have step : next '<' ('!' :: (body ++ '>' :: s)) =
      ⟨[⟨.doctype (String.ofList body), '<' :: '!' :: (body ++ ['>'])⟩], s⟩ := by
    rw [next_doctype h.word]
    simp only [lexDeclaration, List.takeWhile_append_of_pos inside,
      List.dropWhile_append_of_pos inside]
    simp [doctype, h.trim]
  rw [lex_cons, step]
  rfl

/-! ### Whole rows -/

theorem not_holdsCloseTag_getD {body? : Option String}
    (h : ∀ body ∈ body?, body ≠ "" ∧ ¬HoldsCloseTag name body.toList) :
    ¬HoldsCloseTag name (body?.getD "").toList := by
  cases body? with
  | some body => exact (h body rfl).2
  | none =>
    rintro ⟨before, spelled, blanks, after, hbody, -, -⟩
    have length := congrArg List.length hbody
    simp at length

/-- Tokens in normal form are read back from what is printed for them. -/
theorem lex_printFrom {ts : List Token} (h : IsNormal ts) :
    (lex (printFrom false ts)).map Lexeme.token = ts := by
  induction h with
  | finish =>
    rw [show printFrom false [.endOfInput] = [] from rfl, lex_nil]
    rfl
  | text ht hs h ih =>
    rw [printFrom_cons_of_not_raw rfl, Token.print, lex_escapeText ht (endsText_printFrom h hs), ih]
  | @comment text tokens ht h ih =>
    have printed := lex_printComment ht (printFrom false tokens)
    rw [ih, String.ofList_toList] at printed
    rwa [printFrom_cons_of_not_raw rfl, Token.print, List.append_assoc, List.append_assoc]
  | @doctype text tokens ht h ih =>
    have printed := lex_printDoctype ht (printFrom false tokens)
    rw [ih, String.ofList_toList] at printed
    rwa [printFrom_cons_of_not_raw rfl, Token.print, List.cons_append, List.cons_append,
      List.append_assoc, List.singleton_append]
  | endTag hn h ih => rw [printFrom_cons_of_not_raw rfl, Token.print, lex_spellEndTag hn, ih]
  | @startTag name attributes ending tokens ht hr h ih =>
    have filled : (Token.startTag name attributes ending).opensRawText = false := by
      rw [← Bool.not_eq_true]
      simpa [Token.opensRawText] using hr
    have printed := lex_printTag ht (printFrom false tokens)
    rw [if_neg hr, ih] at printed
    rwa [printFrom_cons_of_not_raw filled, Token.print, List.cons_append, List.append_assoc,
      List.append_assoc]
  | @rawText name attributes body? tokens ht hr hb h ih =>
    obtain ⟨read, left⟩ := lexRawText_print ht.named (not_holdsCloseTag_getD hb)
      (printFrom false tokens)
    have body : (if (body?.getD "").toList.isEmpty then []
        else [Token.text (String.ofList (body?.getD "").toList)]) =
        (body?.map Token.text).toList := by
      cases body? with
      | none => rfl
      | some body =>
        have some : body.toList.isEmpty = false := by simpa using (hb body rfl).1
        simp [some]
    rw [printFrom_rawText hr, lex_printTag ht, if_pos ⟨rfl, hr⟩, read, left, ih, body,
      List.append_assoc, List.singleton_append]

/-- The tokens of a text that does not end inside a start tag are in normal form, tokens in normal
form are read back from what is printed for them, and so the tokens of such a text are the tokens
of what is printed for them. -/
theorem tokens_normalForm :
    (∀ s : String, (∀ t ∈ tokens s, t.isCutOff = false) → IsNormal (tokens s)) ∧
      (∀ ts : List Token, IsNormal ts → tokens (printTokens ts) = ts) ∧
      ∀ s : String, (∀ t ∈ tokens s, t.isCutOff = false) →
        tokens (printTokens (tokens s)) = tokens s := by
  have read {ts : List Token} (h : IsNormal ts) : tokens (printTokens ts) = ts := by
    rw [tokens, printTokens, String.toList_ofList, lex_printFrom h]
  exact ⟨fun _ h => isNormal_tokens h, fun _ h => read h, fun _ h => read (isNormal_tokens h)⟩

/-- A text with all kinds of tokens: a declaration in capital letters, an attribute without quotes
and one without a value, a void element, raw text with a part of a close tag, a comment that ends in
dashes, and a `<` that opens nothing. -/
def mixedText : String :=
  "<!DocType html ><P Class=a&amp;b hidden>1 < 2<br><style>a</style b</STYLE >x<!--c---->"

theorem tokens_normalForm_mixedText :
    (∀ t ∈ tokens mixedText, t.isCutOff = false) ∧ IsNormal (tokens mixedText) ∧
      printTokens (tokens mixedText) = "<!DocType html><p class=\"a&amp;b\" hidden>1 &lt; 2<br/>" ++
        "<style>a</style b</style>x<!--c---->" ∧
      tokens (printTokens (tokens mixedText)) = tokens mixedText := by
  have whole : ∀ t ∈ tokens mixedText, t.isCutOff = false := by decide +kernel
  have printed : printTokens (tokens mixedText) =
      "<!DocType html><p class=\"a&amp;b\" hidden>1 &lt; 2<br/>" ++
        "<style>a</style b</style>x<!--c---->" := by decide +kernel
  exact ⟨whole, tokens_normalForm.1 mixedText whole, printed,
    tokens_normalForm.2.2 mixedText whole⟩

end MarkupTree
