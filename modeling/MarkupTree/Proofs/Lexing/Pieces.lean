import MarkupTree.Proofs.Lexing.Tiling
import MarkupTree.Proofs.Lexing.Replacement

/-!
# Pieces of markup

Some texts mean the same wherever they stand between two steps of the lexer: a tag that closes
itself, an element with raw text, a text before a tag. Such a *piece* is read as its tokens whatever
follows it, and so are several of them in a row.

## Main definitions

* `IsReadAs` : a text that is read as some tokens whatever follows it.
* `Token.HasNames`, `Token.HasEndName` : a token whose names are read as they are written.

## Main results

* `IsReadAs.append` : pieces in a row.
* `isReadAs_selfClosing`, `isReadAs_emptyElement`, `IsReadAs.afterText` : tags, elements with raw
  text and texts before tags.
* `IsReadAs.lex`, `IsReadAs.tokens` : the tokens of a text that starts with a piece, and of a piece
  alone.
* `hasNames_lex` : the tokens of a text are such.
-/

namespace MarkupTree

variable {s t rest text : List Char} {ls ms : List Lexeme} {ts us : List Token} {name : String}
  {attributes : List Attribute}

/-! ### Pieces in a row -/

theorem Steps.trans (h : Steps s ls t) (h' : Steps t ms rest) : Steps s (ls ++ ms) rest := by
  induction h with
  | refl s => exact h'
  | step _ ih =>
    rw [List.append_assoc]
    exact (ih h').step

/-- A text is read as some tokens: at the head of any text, in whole steps of the lexer. -/
def IsReadAs (text : List Char) (ts : List Token) : Prop :=
  ∀ s, ∃ ls, Steps (text ++ s) ls s ∧ ls.map Lexeme.token = ts

theorem isReadAs_nil : IsReadAs [] [] := fun s => ⟨[], .refl s, rfl⟩

theorem IsReadAs.append {more : List Char} (ht : IsReadAs text ts) (hu : IsReadAs more us) :
    IsReadAs (text ++ more) (ts ++ us) := by
  intro s
  obtain ⟨ls, first, hls⟩ := ht (more ++ s)
  obtain ⟨ms, second, hms⟩ := hu s
  rw [List.append_assoc]
  exact ⟨ls ++ ms, first.trans second, by rw [List.map_append, hls, hms]⟩

theorem IsReadAs.lex (h : IsReadAs text ts) (s : List Char) :
    (lex (text ++ s)).map Lexeme.token = ts ++ (lex s).map Lexeme.token := by
  obtain ⟨ls, steps, rfl⟩ := h s
  rw [steps.lex_eq, List.map_append]

theorem IsReadAs.tokens (h : IsReadAs text ts) :
    tokens (String.ofList text) = ts ++ [.endOfInput] := by
  have alone := h.lex []
  rw [List.append_nil, lex_nil] at alone
  rwa [MarkupTree.tokens, String.toList_ofList]

/-- One step that leaves what follows the piece. -/
theorem isReadAs_of_next {c : Char} {cs : List Char}
    (h : ∀ s, ∃ ls, next c (cs ++ s) = ⟨ls, s⟩ ∧ ls.map Lexeme.token = ts) :
    IsReadAs (c :: cs) ts := by
  intro s
  obtain ⟨ls, read, tokens⟩ := h s
  have steps : Steps (c :: (cs ++ s)) ((next c (cs ++ s)).lexemes ++ []) s :=
    .step (by rw [read]; exact .refl s)
  rw [read, List.append_nil] at steps
  exact ⟨ls, steps, tokens⟩

/-! ### Tags -/

/-- Attributes, printed, before the rest of a start tag. -/
theorem readBody_printAttributes (h : ∀ a ∈ attributes, isAttributeName a.name)
    (hr : endsAttribute rest) :
    (readBody (attributes.flatMap Attribute.print ++ rest)).value =
        { (readBody rest).value with
          attributes := attributes ++ (readBody rest).value.attributes } ∧
      (readBody (attributes.flatMap Attribute.print ++ rest)).rest = (readBody rest).rest ∧
      endsAttribute (attributes.flatMap Attribute.print ++ rest) := by
  induction attributes with
  | nil => exact ⟨rfl, rfl, hr⟩
  | cons a others ih =>
    obtain ⟨ha, hothers⟩ := List.forall_mem_cons.1 h
    obtain ⟨ihvalue, ihrest, ihends⟩ := ih hothers
    obtain ⟨hvalue, hrest⟩ := readBody_printAttribute ha ihends
    rw [List.flatMap_cons, List.append_assoc]
    refine ⟨?_, hrest.trans ihrest, endsAttribute_print ha _⟩
    rw [hvalue, ihvalue]
    rfl

theorem next_startTag (h : isTagName name) (hr : endsName rest) :
    next '<' (name.toList ++ rest) = lexTagBody name ('<' :: name.toList) rest := by
  obtain ⟨c, cs, hname, hletter, hsmall⟩ := exists_of_isTagName h
  obtain ⟨htake, hdrop⟩ := takeWhile_name hsmall hr
  have step := next_of_isAlpha hletter (cs ++ rest)
  rw [← List.cons_append, ← hname] at step
  rw [step, lexStartTag, htake, hdrop]
  simp only [lowercase_of_isSmallName hsmall]

/-- A tag that closes itself, with a space before the slash. -/
theorem isReadAs_selfClosing (hn : isTagName name) (h : ∀ a ∈ attributes, isAttributeName a.name) :
    IsReadAs ('<' :: (name.toList ++ (attributes.flatMap Attribute.print ++ [' ', '/', '>'])))
      [.startTag name attributes .selfClosing] := by
  refine isReadAs_of_next fun s => ?_
  obtain ⟨hblank, hleft⟩ := readBody_of_isBlank (c := ' ') rfl ('/' :: '>' :: s)
  obtain ⟨hend, hrest⟩ := readBody_ending (show TagEnd.selfClosing ≠ .cutOff from nofun) s
  rw [show TagEnd.selfClosing.print ++ s = '/' :: '>' :: s from rfl] at hend hrest
  obtain ⟨hvalue, hafter, hends⟩ := readBody_printAttributes h
    (show endsAttribute (' ' :: '/' :: '>' :: s) from rfl)
  rw [hblank, hend] at hvalue
  rw [hleft, hrest] at hafter
  have whole : name.toList ++ (attributes.flatMap Attribute.print ++ [' ', '/', '>']) ++ s =
      name.toList ++ (attributes.flatMap Attribute.print ++ ' ' :: '/' :: '>' :: s) := by simp
  rw [whole, next_startTag hn (Bool.and_eq_true_iff.1 hends).1]
  simp only [lexTagBody, hvalue, hafter]
  exact ⟨_, rfl, by simp [TagEnd.ofName]⟩

/-- An element with raw text that has no content. -/
theorem isReadAs_emptyElement (hn : isTagName name) (hr : hasRawText name) (hv : ¬isVoid name)
    (h : ∀ a ∈ attributes, isAttributeName a.name) :
    IsReadAs ('<' :: (name.toList ++ (attributes.flatMap Attribute.print ++
        '>' :: spellEndTag name))) [.startTag name attributes .plain, .endTag name] := by
  refine isReadAs_of_next fun s => ?_
  have empty : ¬HoldsCloseTag name [] := by
    rintro ⟨before, spelled, blanks, after, hnil, -, -⟩
    simp at hnil
  obtain ⟨raw, left⟩ := lexRawText_print hn empty s
  obtain ⟨hend, hrest⟩ := readBody_close (spellEndTag name ++ s)
  obtain ⟨hvalue, hafter, hends⟩ := readBody_printAttributes h
    (show endsAttribute ('>' :: (spellEndTag name ++ s)) from rfl)
  rw [hend] at hvalue
  rw [hrest] at hafter
  have whole : name.toList ++ (attributes.flatMap Attribute.print ++ '>' :: spellEndTag name) ++ s =
      name.toList ++ (attributes.flatMap Attribute.print ++ '>' :: (spellEndTag name ++ s)) := by
    simp
  have kept : TagEnd.plain.ofName name = .plain := by rw [TagEnd.ofName, if_neg hv]
  rw [List.nil_append] at raw left
  rw [whole, next_startTag hn (Bool.and_eq_true_iff.1 hends).1]
  simp only [lexTagBody, hvalue, hafter, kept, hr, and_self, if_true, left]
  exact ⟨_, rfl, by simp [raw]⟩

/-! ### Texts -/

/-- A text is one step, up to where markup opens. -/
theorem steps_escapeText {word : String} (hw : word ≠ "") (hr : endsText rest) :
    Steps (escapeText word ++ rest) [⟨.text word, escapeText word⟩] rest := by
  have plain := lt_notMem_escapeText word
  have whole := decoded_escapeText word
  obtain ⟨c, cs, hcs⟩ := List.exists_cons_of_ne_nil (escapeText_ne_nil hw)
  rw [hcs] at plain whole ⊢
  obtain ⟨hc, hplain⟩ := List.ne_and_not_mem_of_not_mem_cons plain
  have read : next c (cs ++ rest) = ⟨[⟨.text word, c :: cs⟩], rest⟩ := by
    rw [next_of_ne (Ne.symm hc), lexText, breakWhere_opensMarkup hplain hr]
    simp only [whole]
  have steps : Steps (c :: (cs ++ rest)) ((next c (cs ++ rest)).lexemes ++ []) rest :=
    .step (by rw [read]; exact .refl rest)
  rwa [read] at steps

/-- A text before a start tag. -/
theorem IsReadAs.afterText {word : String} {ending : TagEnd} (hw : word ≠ "")
    (h : IsReadAs text (.startTag name attributes ending :: ts)) :
    IsReadAs (escapeText word ++ text) (.text word :: .startTag name attributes ending :: ts) := by
  intro s
  obtain ⟨ls, steps, hls⟩ := h s
  have opens : endsText (text ++ s) := by
    rw [← beginsWithText_lex_iff, h.lex]
    rfl
  rw [List.append_assoc]
  exact ⟨_, (steps_escapeText hw opens).trans steps, congrArg (Token.text word :: ·) hls⟩

/-! ### Names -/

/-- The names in the token of a start tag, its own and those of the attributes, are read as they are
written. -/
def Token.HasNames : Token → Prop
  | .startTag name attributes _ => isTagName name ∧ ∀ a ∈ attributes, isAttributeName a.name
  | _ => True

/-- So is the name in the token of an end tag. -/
def Token.HasEndName : Token → Prop
  | .endTag name => isTagName name
  | _ => True

theorem hasNames_lexRawText (hn : isTagName name) (s : List Char) :
    ∀ l ∈ (lexRawText name s).lexemes, l.token.HasNames ∧ l.token.HasEndName := by
  obtain ⟨body?, -, row⟩ := exists_lexRawText name s
  have all : ∀ token ∈ (lexRawText name s).lexemes.map Lexeme.token,
      token.HasNames ∧ token.HasEndName := by
    rw [row]
    cases body? <;> simp [Token.HasNames, Token.HasEndName, hn]
  exact fun l hl => all l.token (List.mem_map_of_mem hl)

theorem hasNames_lexTagBody (hn : isTagName name) (opening s : List Char) :
    ∀ l ∈ (lexTagBody name opening s).lexemes, l.token.HasNames ∧ l.token.HasEndName := by
  have names := isAttributeName_of_readBody s
  simp only [lexTagBody]
  split
  · exact List.forall_mem_cons.2 ⟨⟨⟨hn, names⟩, trivial⟩, hasNames_lexRawText hn _⟩
  · exact List.forall_mem_cons.2 ⟨⟨⟨hn, names⟩, trivial⟩, List.forall_mem_nil _⟩

theorem hasNames_next (c : Char) (cs : List Char) :
    ∀ l ∈ (next c cs).lexemes, l.token.HasNames ∧ l.token.HasEndName := by
  have single {l : Lexeme} (h : l.token.HasNames ∧ l.token.HasEndName) :
      ∀ m ∈ [l], m.token.HasNames ∧ m.token.HasEndName :=
    List.forall_mem_cons.2 ⟨h, nofun⟩
  unfold next
  split
  · next h =>
    split
    · exact single ⟨trivial, trivial⟩
    · split <;> exact single ⟨trivial, trivial⟩
    · exact single ⟨trivial, trivial⟩
    · split
      · next letter => exact single ⟨trivial, isTagName_lowercase letter⟩
      · exact single ⟨trivial, trivial⟩
    · next hcomment hbang hquery hslash =>
      have letter := startsWithLetter_of_opensMarkup h hbang hquery hslash
      exact hasNames_lexTagBody (isTagName_lowercase letter) _ _
  · exact single ⟨trivial, trivial⟩

/-- The names in start tags and end tags are read as they are written. -/
theorem hasNames_lex (s : List Char) :
    ∀ l ∈ lex s, l.token.HasNames ∧ l.token.HasEndName := by
  fun_induction MarkupTree.lex s with
  | case1 =>
    intro l hl
    rw [List.mem_singleton.1 hl]
    exact ⟨trivial, trivial⟩
  | case2 c cs ih => exact List.forall_mem_append.2 ⟨hasNames_next c cs, ih⟩

end MarkupTree
