import MarkupTree.Markup.RawText
import MarkupTree.Markup.StartTag
import MarkupTree.Text.White

/-!
# Lexing markup

Every text is markup: what opens no tag, comment or declaration is ordinary text. The lexer cuts a
text into lexemes, tokens that keep the characters they were read from. Where one starts, the next
two characters say what it is; a start tag of an element with raw text brings the text and the
close tag along.

## Main definitions

* `Lexeme` : a token with its source.
* `Step` : the lexemes at the head of a text, and what is left.
* `next` : the step at the head of a text that is not empty.
* `lex`, `lexTagRest` : the lexemes of a text, and of one that goes on inside a start tag.
* `tokens` : the tokens of a string.
* `spans` : where in the source each lexeme stands.

## Main results

* `lex_append` : the sources of the lexemes make up the text.
-/

namespace MarkupTree

/-- A token and the characters that it was read from. -/
structure Lexeme where
  token : Token
  source : List Char
deriving DecidableEq

/-- The lexemes read in one go at the head of a text, and what is left of the text. -/
structure Step where
  lexemes : List Lexeme
  rest : List Char

/-- The source of a list of lexemes. -/
def sourceOf (lexemes : List Lexeme) : List Char := lexemes.flatMap Lexeme.source

@[simp] theorem sourceOf_nil : sourceOf [] = [] := rfl

@[simp] theorem sourceOf_cons (l : Lexeme) (ls : List Lexeme) :
    sourceOf (l :: ls) = l.source ++ sourceOf ls := rfl

@[simp] theorem sourceOf_append (ls ms : List Lexeme) :
    sourceOf (ls ++ ms) = sourceOf ls ++ sourceOf ms := List.flatMap_append

/-! ### What can stand at a place -/

/-- Whether a text starts with something other than ordinary text: with `<` and a letter, or with
`</`, `<!` or `<?`. -/
def opensMarkup : List Char → Bool
  | '<' :: c :: _ => c.isAlpha || c == '/' || c == '!' || c == '?'
  | _ => false

/-- Whether a text starts with the end of a comment. -/
def endsComment : List Char → Bool
  | '-' :: '-' :: '>' :: _ => true
  | _ => false

/-- Whether a text starts with a letter. -/
def startsWithLetter : List Char → Bool
  | c :: _ => c.isAlpha
  | [] => false

/-! ### One step for each kind of lexeme -/

/-- Ordinary text, whose first character is `c`. -/
def lexText (c : Char) (cs : List Char) : Step :=
  match Text.breakWhere opensMarkup cs with
  | (more, rest) => ⟨[⟨.text (Reference.decoded (c :: more)), c :: more⟩], rest⟩

/-- A comment, after `<!--`. -/
def lexComment (s : List Char) : Step :=
  match Text.breakWhere endsComment s with
  | (body, after) =>
    { lexemes := [⟨.comment (String.ofList body), "<!--".toList ++ body ++ after.take 3⟩]
      rest := after.drop 3 }

/-- A declaration, after its two opening characters: all up to the first `>`, made a token by
`make`. -/
def lexDeclaration (opening : List Char) (make : List Char → Token) (s : List Char) : Step :=
  match s.takeWhile (· != '>'), s.dropWhile (· != '>') with
  | body, after => ⟨[⟨make body, opening ++ body ++ after.take 1⟩], after.drop 1⟩

/-- A comment that is not written as one. -/
def bogusComment (body : List Char) : Token := .comment (String.ofList body)

/-- A document type declaration, without white space around its text. -/
def doctype (body : List Char) : Token := .doctype (String.ofList (White.trim body))

/-- An end tag, after `</`: its name, and whatever stands before the first `>`. -/
def lexEndTag (s : List Char) : Step :=
  match s.takeWhile isNameChar, s.dropWhile isNameChar with
  | name, after =>
    lexDeclaration ('<' :: '/' :: name)
      (fun _ => .endTag (Ascii.lowercase (String.ofList name))) after

/-- The end of a start tag, once the name is known: a void element's tag closes itself. -/
def TagEnd.ofName (name : String) : TagEnd → TagEnd
  | .plain => if isVoid name then .selfClosing else .plain
  | ending => ending

/-- Raw text and its end tag. Without a close tag the text goes on to the end, where the end tag is
implied. -/
def lexRawText (name : String) (s : List Char) : Step :=
  match breakRawText name s with
  | (body, after) =>
    let text := if body.isEmpty then [] else [⟨.text (String.ofList body), body⟩]
    match closeTag? name after with
    | some (source, rest) => ⟨text ++ [⟨.endTag name, source⟩], rest⟩
    | none => ⟨text ++ [⟨.endTag name, []⟩], after⟩

/-- A start tag from the end of its name on, with the raw text that it opens. The text `opening`
was read before. -/
def lexTagBody (name : String) (opening s : List Char) : Step :=
  match readBody s with
  | ⟨⟨attributes, ending⟩, source, rest⟩ =>
    let tag : Lexeme := ⟨.startTag name attributes (ending.ofName name), opening ++ source⟩
    if ending.ofName name = .plain ∧ hasRawText name then
      ⟨tag :: (lexRawText name rest).lexemes, (lexRawText name rest).rest⟩
    else ⟨[tag], rest⟩

/-- A start tag, after `<`. -/
def lexStartTag (s : List Char) : Step :=
  match s.takeWhile isNameChar, s.dropWhile isNameChar with
  | name, after => lexTagBody (Ascii.lowercase (String.ofList name)) ('<' :: name) after

/-! ### The next step -/

/-- The lexemes at the head of the text `c :: cs`. -/
def next (c : Char) (cs : List Char) : Step :=
  if opensMarkup (c :: cs) then
    match cs with
    | '!' :: '-' :: '-' :: s => lexComment s
    | '!' :: s =>
      if (Ascii.matchWord? "doctype".toList s).isSome then lexDeclaration ['<', '!'] doctype s
      else lexDeclaration ['<', '!'] bogusComment s
    | '?' :: s => lexDeclaration ['<', '?'] bogusComment s
    | '/' :: s =>
      if startsWithLetter s then lexEndTag s else lexDeclaration ['<', '/'] bogusComment s
    | s => lexStartTag s
  else lexText c cs

/-! ### Nothing is lost -/

/-- A step reads the text `s`: its lexemes' sources and what is left make up `s`. -/
def Step.Reads (step : Step) (s : List Char) : Prop := sourceOf step.lexemes ++ step.rest = s

theorem lexText_reads (c : Char) (cs : List Char) : (lexText c cs).Reads (c :: cs) := by
  simp [lexText, Step.Reads, Text.breakWhere_append]

theorem lexComment_reads (s : List Char) : (lexComment s).Reads ("<!--".toList ++ s) := by
  simp [lexComment, Step.Reads, Text.breakWhere_append]

theorem lexDeclaration_reads (opening : List Char) (make : List Char → Token) (s : List Char) :
    (lexDeclaration opening make s).Reads (opening ++ s) := by
  simp only [lexDeclaration, Step.Reads, sourceOf_cons, sourceOf_nil, List.append_nil,
    List.append_assoc, List.take_append_drop, List.takeWhile_append_dropWhile]

theorem lexEndTag_reads (s : List Char) : (lexEndTag s).Reads ('<' :: '/' :: s) := by
  have h := lexDeclaration_reads ('<' :: '/' :: s.takeWhile isNameChar)
    (fun _ => .endTag (Ascii.lowercase (String.ofList (s.takeWhile isNameChar))))
    (s.dropWhile isNameChar)
  simpa [lexEndTag, List.takeWhile_append_dropWhile] using h

theorem lexRawText_reads (name : String) (s : List Char) : (lexRawText name s).Reads s := by
  have text (body : List Char) :
      sourceOf (if body.isEmpty then [] else [⟨.text (String.ofList body), body⟩]) = body := by
    cases body <;> simp
  have whole := breakRawText_append name s
  simp only [lexRawText]
  split
  · next source rest h =>
    simp only [Step.Reads, sourceOf_append, text, sourceOf_cons, sourceOf_nil, List.append_nil,
      List.append_assoc, closeTag?_append h, whole]
  · simp only [Step.Reads, sourceOf_append, text, sourceOf_cons, sourceOf_nil, List.append_nil,
      whole]

theorem lexTagBody_reads (name : String) (opening s : List Char) :
    (lexTagBody name opening s).Reads (opening ++ s) := by
  have body := readBody_append s
  simp only [lexTagBody]
  split
  · have raw := lexRawText_reads name (readBody s).rest
    simp only [Step.Reads, sourceOf_cons, List.append_assoc] at raw ⊢
    rw [raw, body]
  · simp [Step.Reads, body]

theorem lexStartTag_reads (s : List Char) : (lexStartTag s).Reads ('<' :: s) := by
  have h := lexTagBody_reads (Ascii.lowercase (String.ofList (s.takeWhile isNameChar)))
    ('<' :: s.takeWhile isNameChar) (s.dropWhile isNameChar)
  simpa [lexStartTag, List.takeWhile_append_dropWhile] using h

theorem opensMarkup_head {c : Char} {cs : List Char} (h : opensMarkup (c :: cs) = true) :
    c = '<' := by
  unfold opensMarkup at h
  split at h
  · next heq => exact (List.cons.inj heq).1
  · simp at h

theorem next_reads (c : Char) (cs : List Char) : (next c cs).Reads (c :: cs) := by
  unfold next
  split
  · next h =>
    rw [opensMarkup_head h]
    split
    · exact lexComment_reads _
    · split <;> exact lexDeclaration_reads _ _ _
    · exact lexDeclaration_reads _ _ _
    · split
      · exact lexEndTag_reads _
      · exact lexDeclaration_reads _ _ _
    · exact lexStartTag_reads _
  · exact lexText_reads c cs

/-! ### Every step reads something -/

theorem next_source_ne_nil (c : Char) (cs : List Char) : sourceOf (next c cs).lexemes ≠ [] := by
  unfold next
  split
  · split
    · simp [lexComment]
    · split <;> simp [lexDeclaration]
    · simp [lexDeclaration]
    · split <;> simp [lexEndTag, lexDeclaration]
    · simp only [lexStartTag, lexTagBody]
      split <;> simp
  · simp [lexText]

theorem length_next_rest_lt (c : Char) (cs : List Char) :
    (next c cs).rest.length < (c :: cs).length := by
  have h := congrArg List.length (next_reads c cs)
  have := List.length_pos_iff.2 (next_source_ne_nil c cs)
  rw [List.length_append] at h
  omega

/-! ### Whole texts -/

/-- The lexemes of a text. The last is the end of input; no other is. -/
def lex : List Char → List Lexeme
  | [] => [⟨.endOfInput, []⟩]
  | c :: cs => (next c cs).lexemes ++ lex (next c cs).rest
termination_by s => s.length
decreasing_by exact length_next_rest_lt c cs

/-- The lexemes of a text that goes on inside a start tag, after the name. The first is the start
tag, with what the text adds to it. -/
def lexTagRest (name : String) (s : List Char) : List Lexeme :=
  (lexTagBody name [] s).lexemes ++ lex (lexTagBody name [] s).rest

/-- The tokens of a string. -/
def tokens (s : String) : List Token := (lex s.toList).map Lexeme.token

/-- The tokens of a string that goes on inside the start tag of the element `name`. -/
def tagRestTokens (name s : String) : List Token :=
  (lexTagRest name s.toList).map Lexeme.token

@[simp] theorem lex_nil : lex [] = [⟨.endOfInput, []⟩] := by rw [lex]

theorem lex_cons (c : Char) (cs : List Char) :
    lex (c :: cs) = (next c cs).lexemes ++ lex (next c cs).rest := by rw [lex]

/-- The sources of the lexemes make up the text. -/
theorem lex_append (s : List Char) : sourceOf (lex s) = s := by
  fun_induction lex s with
  | case1 => rfl
  | case2 c cs ih =>
    rw [sourceOf_append, ih]
    exact next_reads c cs

/-! ### Spans -/

/-- The bytes that a piece of source text takes. -/
def byteSize : (source : List Char) → Nat
  | [] => 0
  | c :: cs => c.utf8Size + byteSize cs

/-- Where each of a row of lexemes stands, if the first starts after `start` bytes. -/
def spansFrom (start : Nat) : List Lexeme → List Span
  | [] => []
  | l :: ls => ⟨start, start + byteSize l.source⟩ :: spansFrom (start + byteSize l.source) ls

/-- Where in the source each lexeme stands. -/
def spans (lexemes : List Lexeme) : List Span := spansFrom 0 lexemes

end MarkupTree
