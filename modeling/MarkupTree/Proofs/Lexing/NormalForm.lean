import MarkupTree.Proofs.Lexing.Order
import MarkupTree.Proofs.Lexing.Spelling
import Mathlib.Data.List.DropRight

/-!
# The normal form of rows of tokens

Not every row of tokens is that of a text. Names are in small letters, no text is empty or follows
another, a comment does not hold its own end, the tag of a void element closes itself, and where a
start tag opens raw text, that text and the end tag of the element come right after it. A row with
all these properties that ends with the end of input is *normal*. The tokens of a text are normal,
unless the text ends inside a start tag (`isNormal_tokens`).

Each step of the lexer puts tokens before a normal row that keep it normal. Only for ordinary text
the row matters: it may not start with a text, and it does not, because the text goes on to where
markup opens.

## Main definitions

* `HoldsCloseTag`, `IsDoctypeText`, `IsNormalTag` : what the tokens of some kinds may hold.
* `IsNormal` : rows of tokens in normal form.

## Main results

* `isNormal_next` : a step puts tokens before a normal row.
* `isNormal_tokens` : the tokens of a text.
-/

namespace MarkupTree

/-! ### Rows in normal form -/

/-- What ends a comment. -/
def commentEnd : List Char := ['-', '-', '>']

/-- A text that has a close tag of the element `name` in it: `</` and the name, in any letter case,
then white space, and `>`. -/
def HoldsCloseTag (name : String) (s : List Char) : Prop :=
  ∃ before spelled blanks after, s = before ++ (spelled ++ blanks ++ ['>'] ++ after) ∧
    Ascii.lower spelled = '<' :: '/' :: name.toList ∧ blanks.all Ascii.isBlank

/-- A text that a document type declaration can have: the word `doctype`, in any letter case, and
what follows it, without `>` and without white space at the ends. -/
structure IsDoctypeText (s : List Char) : Prop where
  word : Ascii.lower (s.take 7) = "doctype".toList
  notMem : '>' ∉ s
  trim : White.trim s = s

/-- What the token of a start tag can hold that is not cut off. The tag of a void element closes
itself. -/
structure IsNormalTag (name : String) (attributes : List Attribute) (ending : TagEnd) : Prop where
  named : isTagName name
  attributes : ∀ a ∈ attributes, isAttributeName a.name
  whole : ending ≠ .cutOff
  void : isVoid name → ending = .selfClosing

/-- Rows of tokens in normal form. -/
inductive IsNormal : List Token → Prop
  | finish : IsNormal [.endOfInput]
  | text {text : String} {tokens : List Token} (ht : text ≠ "")
      (hs : beginsWithText tokens = false) (h : IsNormal tokens) :
      IsNormal (.text text :: tokens)
  | comment {text : String} {tokens : List Token} (ht : ¬commentEnd <:+: text.toList)
      (h : IsNormal tokens) : IsNormal (.comment text :: tokens)
  | doctype {text : String} {tokens : List Token} (ht : IsDoctypeText text.toList)
      (h : IsNormal tokens) : IsNormal (.doctype text :: tokens)
  | endTag {name : String} {tokens : List Token} (hn : isTagName name) (h : IsNormal tokens) :
      IsNormal (.endTag name :: tokens)
  | startTag {name : String} {attributes : List Attribute} {ending : TagEnd}
      {tokens : List Token} (ht : IsNormalTag name attributes ending)
      (hr : ¬(ending = .plain ∧ hasRawText name)) (h : IsNormal tokens) :
      IsNormal (.startTag name attributes ending :: tokens)
  /-- A start tag that opens raw text. The text, if there is any, and the end tag follow. -/
  | rawText {name : String} {attributes : List Attribute} {body? : Option String}
      {tokens : List Token} (ht : IsNormalTag name attributes .plain) (hr : hasRawText name)
      (hb : ∀ body ∈ body?, body ≠ "" ∧ ¬HoldsCloseTag name body.toList) (h : IsNormal tokens) :
      IsNormal (.startTag name attributes .plain ::
        ((body?.map Token.text).toList ++ .endTag name :: tokens))

/-! ### Names -/

/-- What is the same for all letters does not depend on letter case. -/
theorem apply_toLower {α : Type} {f : Char → α} {a : α} (h : ∀ c, c.isAlpha = true → f c = a)
    (c : Char) : f c.toLower = f c := by
  cases hu : c.isUpper with
  | false => rw [Ascii.toLower_of_not_isUpper hu]
  | true =>
    have letter : c.isAlpha = true := Ascii.isAlpha_iff.2 (.inl (Ascii.isUpper_iff.1 hu))
    rw [h c letter, h c.toLower ((Ascii.isAlpha_toLower c).trans letter)]

/-- No letter becomes another character when it is made small. -/
theorem toLower_eq_iff {d : Char} (hd : d.isAlpha = false) {c : Char} : c.toLower = d ↔ c = d := by
  refine Eq.to_iff (apply_toLower (f := (· = d)) (a := False) (fun c hc => ?_) c)
  refine eq_false ?_
  rintro rfl
  rw [hc] at hd
  cases hd

theorem isNameChar_toLower (c : Char) : isNameChar c.toLower = isNameChar c :=
  apply_toLower (fun _ => isNameChar_of_isAlpha) c

/-- The characters of a name, with the capital letters made small. -/
theorem isSmallName_lower {s : List Char} (h : ∀ c ∈ s, isNameChar c = true) :
    isSmallName (Ascii.lower s) := by
  refine List.all_eq_true.2 fun d hd => ?_
  obtain ⟨c, hc, rfl⟩ := List.mem_map.1 hd
  rw [isNameChar_toLower, h c hc, Ascii.toLower_toLower]
  exact beq_self_eq_true _

theorem isSmallName_lowercase_takeWhile (s : List Char) :
    isSmallName (Ascii.lowercase (String.ofList (s.takeWhile isNameChar))).toList := by
  rw [Ascii.toList_lowercase, String.toList_ofList]
  exact isSmallName_lower fun c hc => List.mem_takeWhile_imp hc

theorem isTagName_lowercase {s : List Char} (h : startsWithLetter s) :
    isTagName (Ascii.lowercase (String.ofList (s.takeWhile isNameChar))) := by
  refine Bool.and_eq_true_iff.2 ⟨?_, isSmallName_lowercase_takeWhile s⟩
  cases s with
  | nil => cases h
  | cons c cs =>
    have letter : c.isAlpha = true := h
    have name := isNameChar_of_isAlpha letter
    rw [List.takeWhile_cons_of_pos name, Ascii.toList_lowercase, String.toList_ofList]
    exact (Ascii.isAlpha_toLower c).trans letter

theorem isAttributeName_lowercase {c : Char} (h : isNameChar c = true) (cs : List Char) :
    isAttributeName (Ascii.lowercase (String.ofList ((c :: cs).takeWhile isNameChar))) := by
  refine Bool.and_eq_true_iff.2 ⟨?_, isSmallName_lowercase_takeWhile (c :: cs)⟩
  rw [List.takeWhile_cons_of_pos h, Ascii.toList_lowercase, String.toList_ofList]
  rfl

/-! ### Start tags -/

theorem isAttributeName_of_readPart {c : Char} {cs : List Char} {a : Attribute}
    (h : (readPart c cs).value = .attr a) : isAttributeName a.name := by
  unfold readPart at h
  split at h
  · cases h
  · split at h
    · split at h <;> cases h
    · split at h
      · next hc =>
        simp only [readAttribute] at h
        split at h <;> cases h <;> exact isAttributeName_lowercase hc cs
      · cases h

theorem isAttributeName_of_readBody (s : List Char) :
    ∀ a ∈ (readBody s).value.attributes, isAttributeName a.name := by
  fun_induction readBody s with
  | case1 => exact List.forall_mem_nil _
  | case2 => exact List.forall_mem_nil _
  | case3 c cs _ _ ih => exact ih
  | case4 c cs a ha _ ih =>
    intro b hb
    rcases List.mem_cons.1 hb with rfl | hb
    · exact isAttributeName_of_readPart ha
    · exact ih b hb

/-- Raw text ends at the first close tag, so there is none in it. -/
theorem not_holdsCloseTag_breakRawText (name : String) (s : List Char) :
    ¬HoldsCloseTag name (breakRawText name s).1 := by
  rintro ⟨before, spelled, blanks, after, hbody, hl, hb⟩
  have none := Text.stop_of_breakWhere hbody (by simp)
  have found (rest : List Char) : closeTag? name (spelled ++ blanks ++ ['>'] ++ rest) =
      some (spelled ++ blanks ++ ['>'], rest) :=
    closeTag?_eq_some_iff.2 ⟨spelled, blanks, hl, hb, rfl, rfl⟩
  rw [List.append_assoc _ after, found] at none
  cases none

theorem exists_lexRawText (name : String) (s : List Char) :
    ∃ body? : Option String, (∀ body ∈ body?, body ≠ "" ∧ ¬HoldsCloseTag name body.toList) ∧
      (lexRawText name s).lexemes.map Lexeme.token =
        (body?.map Token.text).toList ++ [.endTag name] := by
  have raw := not_holdsCloseTag_breakRawText name s
  simp only [lexRawText]
  generalize breakRawText name s = parts at raw
  obtain ⟨body, after⟩ := parts
  cases body with
  | nil => exact ⟨none, fun b hb => absurd hb (Option.not_mem_none b), by split <;> rfl⟩
  | cons c cs =>
    refine ⟨some (String.ofList (c :: cs)), ?_, by split <;> rfl⟩
    intro body hbody
    obtain rfl := Option.some.inj hbody
    refine ⟨?_, by rwa [String.toList_ofList]⟩
    intro hempty
    have chars := congrArg String.toList hempty
    rw [String.toList_ofList] at chars
    cases chars

/-- A start tag with the raw text that it may open. -/
theorem isNormal_lexTagBody {name : String} (hn : isTagName name) {opening s : List Char}
    (hw : ∀ l ∈ (lexTagBody name opening s).lexemes, l.token.isCutOff = false)
    {ts : List Token} (hts : IsNormal ts) :
    IsNormal ((lexTagBody name opening s).lexemes.map Lexeme.token ++ ts) := by
  have attributes := isAttributeName_of_readBody s
  simp only [lexTagBody] at hw ⊢
  generalize readBody s = body at hw attributes
  obtain ⟨⟨as, ending⟩, source, rest⟩ := body
  have whole : ending.ofName name ≠ .cutOff := by
    intro cut
    simp only [cut] at hw
    have := hw ⟨.startTag name as .cutOff, opening ++ source⟩ (by simp)
    cases this
  have tag : IsNormalTag name as (ending.ofName name) :=
    ⟨hn, attributes, whole, fun hv =>
      TagEnd.ofName_of_isVoid hv fun cut => whole (TagEnd.ofName_eq_cutOff_iff.2 cut)⟩
  split
  · next hr =>
    obtain ⟨body?, hbody, hraw⟩ := exists_lexRawText name rest
    simp only [hr.1] at tag ⊢
    rw [List.map_cons, hraw, List.cons_append, List.append_assoc]
    exact .rawText tag hr.2 hbody hts
  · next hr => exact .startTag tag hr hts

/-! ### Declarations -/

/-- Characters that are not white stay at the start of a text that is trimmed. -/
theorem trim_append {s : List Char} (hs : ∀ c ∈ s, White.isWhite c = false) (hne : s ≠ [])
    (t : List Char) : White.trim (s ++ t) = s ++ White.trimEnd t := by
  have first : (s ++ t).dropWhile White.isWhite = s ++ t := by
    obtain ⟨c, cs, rfl⟩ := List.exists_cons_of_ne_nil hne
    exact List.dropWhile_cons_of_neg (by simp [hs c List.mem_cons_self])
  have last : s.reverse.dropWhile White.isWhite = s.reverse := by
    obtain ⟨c, cs, hc⟩ := List.exists_cons_of_ne_nil (List.reverse_ne_nil_iff.2 hne)
    have solid : White.isWhite c = false := hs c (List.mem_reverse.1 (hc ▸ List.mem_cons_self))
    rw [hc]
    exact List.dropWhile_cons_of_neg (by simp [solid])
  rw [White.trim, first, White.trimEnd, White.trimEnd, List.reverse_append, List.dropWhile_append]
  split
  · next hempty => rw [last, List.isEmpty_iff.1 hempty, List.reverse_nil, List.append_nil,
      List.reverse_reverse]
  · rw [List.reverse_append, List.reverse_reverse]

theorem isWhite_of_isAlpha {c : Char} (h : c.isAlpha = true) : White.isWhite c = false := by
  have bounds := Ascii.isAlpha_iff.1 h
  simp only [White.isWhite, Bool.or_eq_false_iff, Bool.and_eq_false_iff, decide_eq_false_iff_not,
    beq_eq_false_iff_ne]
  omega

theorem isAlpha_of_lower_eq {word : List Char} (h : Ascii.lower word = "doctype".toList) :
    ∀ c ∈ word, c.isAlpha = true := by
  intro c hc
  have letters : "doctype".toList.all Char.isAlpha = true := rfl
  rw [← Ascii.isAlpha_toLower]
  exact List.all_eq_true.1 letters c.toLower (h ▸ List.mem_map_of_mem hc)

/-- The text of a declaration that starts with the word `doctype`. -/
theorem isDoctypeText_trim {word rest : List Char} (h : Ascii.lower word = "doctype".toList)
    (hr : '>' ∉ rest) : IsDoctypeText (White.trim (word ++ rest)) := by
  have letters := isAlpha_of_lower_eq h
  have solid : ∀ c ∈ word, White.isWhite c = false := fun c hc => isWhite_of_isAlpha (letters c hc)
  have length : word.length = 7 := by rw [← Ascii.length_lower, h]; rfl
  have some : word ≠ [] := by
    rintro rfl
    cases length
  have trimmed : White.trimEnd rest <+: rest := List.rdropWhile_prefix White.isWhite rest
  rw [trim_append solid some]
  refine ⟨?_, ?_, ?_⟩
  · rw [List.take_left' length, h]
  · intro hmem
    rcases List.mem_append.1 hmem with hmem | hmem
    · cases letters _ hmem
    · exact hr (trimmed.mem hmem)
  · rw [trim_append solid some]
    exact congrArg (word ++ ·) (List.rdropWhile_idempotent White.isWhite rest)

/-- A text without `>` does not hold the end of a comment. -/
theorem not_commentEnd_infix {s : List Char} (h : '>' ∉ s) : ¬commentEnd <:+: s :=
  fun inside => h (inside.mem (by decide))

theorem notMem_takeWhile_ne (c : Char) (s : List Char) : c ∉ s.takeWhile (· != c) := by
  intro h
  simpa using List.mem_takeWhile_imp h

/-! ### Steps -/

/-- A comment goes on to the first place where its end stands. -/
theorem not_commentEnd_infix_breakWhere (s : List Char) :
    ¬commentEnd <:+: (Text.breakWhere endsComment s).1 := by
  rintro ⟨before, after, h⟩
  have none := Text.stop_of_breakWhere (h.symm.trans (List.append_assoc _ _ _))
    (List.cons_ne_nil _ _)
  cases none

theorem isNormal_bogusComment (opening s : List Char) {ts : List Token} (hts : IsNormal ts) :
    IsNormal ((lexDeclaration opening bogusComment s).lexemes.map Lexeme.token ++ ts) := by
  refine .comment ?_ hts
  rw [String.toList_ofList]
  exact not_commentEnd_infix (notMem_takeWhile_ne '>' s)

theorem isNormal_lexComment (s : List Char) {ts : List Token} (hts : IsNormal ts) :
    IsNormal ((lexComment s).lexemes.map Lexeme.token ++ ts) := by
  refine .comment ?_ hts
  rw [String.toList_ofList]
  exact not_commentEnd_infix_breakWhere s

theorem isNormal_lexEndTag {s : List Char} (h : startsWithLetter s) {ts : List Token}
    (hts : IsNormal ts) : IsNormal ((lexEndTag s).lexemes.map Lexeme.token ++ ts) :=
  .endTag (isTagName_lowercase h) hts

theorem isNormal_doctype {s : List Char} (h : (Ascii.matchWord? "doctype".toList s).isSome)
    {ts : List Token} (hts : IsNormal ts) :
    IsNormal ((lexDeclaration ['<', '!'] doctype s).lexemes.map Lexeme.token ++ ts) := by
  obtain ⟨⟨word, rest⟩, hm⟩ := Option.isSome_iff_exists.1 h
  have hlower := Ascii.lower_of_matchWord? hm
  obtain rfl := Ascii.matchWord?_append hm
  have inside : ∀ c ∈ word, (c != '>') = true := by
    intro c hc
    refine bne_iff_ne.2 ?_
    rintro rfl
    cases isAlpha_of_lower_eq hlower _ hc
  refine .doctype ?_ hts
  rw [String.toList_ofList, List.takeWhile_append_of_pos inside]
  exact isDoctypeText_trim hlower (notMem_takeWhile_ne '>' rest)

theorem isNormal_lexText (c : Char) (cs : List Char) {ts : List Token}
    (hb : beginsWithText ts = false) (hts : IsNormal ts) :
    IsNormal ((lexText c cs).lexemes.map Lexeme.token ++ ts) := by
  refine .text ?_ hb hts
  intro hempty
  have chars := congrArg String.toList hempty
  rw [Reference.decoded, String.toList_ofList] at chars
  exact Reference.decode_ne_nil c _ chars

theorem isNormal_lexStartTag {s : List Char} (h : startsWithLetter s)
    (hw : ∀ l ∈ (lexStartTag s).lexemes, l.token.isCutOff = false) {ts : List Token}
    (hts : IsNormal ts) : IsNormal ((lexStartTag s).lexemes.map Lexeme.token ++ ts) :=
  isNormal_lexTagBody (isTagName_lowercase h) hw hts

/-- A step puts tokens before a normal row, unless it ends inside a start tag. Where a text ends,
the row may not start with another. -/
theorem isNormal_next {c : Char} {cs : List Char}
    (hw : ∀ l ∈ (next c cs).lexemes, l.token.isCutOff = false) {ts : List Token}
    (hb : endsText (next c cs).rest → beginsWithText ts = false) (hts : IsNormal ts) :
    IsNormal ((next c cs).lexemes.map Lexeme.token ++ ts) := by
  unfold next at hw hb ⊢
  split
  · next h =>
    rw [if_pos h] at hw
    split at hw
    · exact isNormal_lexComment _ hts
    · split
      · next hd => exact isNormal_doctype hd hts
      · exact isNormal_bogusComment _ _ hts
    · exact isNormal_bogusComment _ _ hts
    · split
      · next hl => exact isNormal_lexEndTag hl hts
      · exact isNormal_bogusComment _ _ hts
    · next hcomment hbang hquery hslash =>
      have letter := startsWithLetter_of_opensMarkup h hbang hquery hslash
      exact isNormal_lexStartTag letter hw hts
  · next h =>
    rw [if_neg h] at hb
    exact isNormal_lexText c cs (hb (endsText_lexText c cs)) hts

/-! ### Whole texts -/

theorem isNormal_lex {s : List Char} (h : ∀ l ∈ lex s, l.token.isCutOff = false) :
    IsNormal ((lex s).map Lexeme.token) := by
  fun_induction lex s with
  | case1 => exact .finish
  | case2 c cs ih =>
    obtain ⟨first, later⟩ := List.forall_mem_append.1 h
    rw [List.map_append]
    exact isNormal_next first beginsWithText_lex (ih later)

/-- The tokens of a text that does not end inside a start tag are in normal form. -/
theorem isNormal_tokens {s : String} (h : ∀ t ∈ tokens s, t.isCutOff = false) :
    IsNormal (tokens s) :=
  isNormal_lex fun l hl => h l.token (List.mem_map_of_mem hl)

end MarkupTree
