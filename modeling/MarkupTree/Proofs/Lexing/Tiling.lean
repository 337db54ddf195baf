import MarkupTree.Proofs.Lexing.NormalForm
import MarkupTree.Proofs.Lexing.Seam

/-!
# Spans of lexemes

The lexemes of a string lie end to end in it: the first starts at its first byte, each starts where
the one before it stops, and the last, the end of input, stops at its last byte. Every bound is one
between characters, so a span can be taken for the piece of text that stands there, and the texts
of tokens are made of no more than that (`spanned_tiles`).

Spans are counted in the bytes of the sources, so it is the sources that matter. A row of lexemes
is *well sourced* when each of its texts is what its source says, and when its sources are not
empty; only the end of input has none, and an end tag that is implied by it. The rows that the lexer
reads are well sourced, because each step puts such lexemes before a row that is
(`wellSourced_lex`).

## Main definitions

* `spanned` : the lexemes of a string, each with its span.
* `EndToEnd` : spans that lie end to end.
* `Span.Holds` : the text that stands in a span.
* `IsPlain` : the pieces of source in which no markup opens.
* `IsImpliedEnd` : the end tag of an element with raw text that is never closed.
* `WellSourced` : rows of lexemes that are made of their sources.
* `IsSourcedAt` : a lexeme between others that is made of its source.

## Main results

* `wellSourced_lex` : the lexemes of a text are well sourced.
* `WellSourced.isSourcedAt` : what the lexemes of such a row are, between the others.
* `holds_append` : the middle one of three pieces of a string stands in its span.
* `spanned_tiles` : the lexemes of a string and their spans.
-/

namespace MarkupTree

variable {s rest : List Char} {ls before after : List Lexeme} {l : Lexeme}

/-! ### Rows of lexemes and their sources -/

/-- A piece of source before `rest` in which no markup opens. -/
def IsPlain (source rest : List Char) : Prop :=
  ∀ early late, source = early ++ late → late ≠ [] → opensMarkup (late ++ rest) = false

/-- Where no markup opens, no `<` stands right before a character that would make it open. -/
theorem IsPlain.of_lt {early late : List Char} {c : Char} (h : IsPlain s rest)
    (hs : s = early ++ '<' :: c :: late) :
    c.isAlpha = false ∧ c ≠ '/' ∧ c ≠ '!' ∧ c ≠ '?' := by
  simpa [opensMarkup, and_assoc] using h early _ hs (List.cons_ne_nil _ _)

/-- The lexeme of raw text. There is none if the text is empty. -/
def rawLexemes (body : List Char) : List Lexeme :=
  if body.isEmpty then [] else [⟨.text (String.ofList body), body⟩]

/-- A token that is no text, opens no raw text and is not the end of input. -/
def Token.IsMark : Token → Prop
  | .text _ => False
  | .endOfInput => False
  | token => token.opensRawText = false

theorem Token.IsMark.opensRawText {token : Token} (h : token.IsMark) :
    token.opensRawText = false := by
  cases token with
  | startTag => exact h
  | _ => rfl

/-- Rows of lexemes that are made of their sources. -/
inductive WellSourced : List Lexeme → Prop
  | finish : WellSourced [⟨.endOfInput, []⟩]
  | text {source : List Char} {ls : List Lexeme} (hs : source ≠ [])
      (hp : IsPlain source (sourceOf ls)) (h : WellSourced ls) :
      WellSourced (⟨.text (Reference.decoded source), source⟩ :: ls)
  | mark {l : Lexeme} {ls : List Lexeme} (ht : l.token.IsMark) (hs : l.source ≠ [])
      (h : WellSourced ls) : WellSourced (l :: ls)
  /-- A start tag that opens raw text, the text and the end tag. If the end tag has no source, the
  end of input follows it. -/
  | rawText {name : String} {attributes : List Attribute} {opening body close : List Char}
      {ls : List Lexeme} (hr : hasRawText name) (hs : opening ≠ [])
      (hb : ¬HoldsCloseTag name body) (hc : close = [] → ls = [⟨.endOfInput, []⟩])
      (h : WellSourced ls) :
      WellSourced (⟨.startTag name attributes .plain, opening⟩ ::
        (rawLexemes body ++ ⟨.endTag name, close⟩ :: ls))

/-! ### What the lexer reads -/

/-- Ordinary text holds nothing that opens markup. -/
theorem isPlain_lexText {c : Char} {cs : List Char} (h : opensMarkup (c :: cs) = false) :
    IsPlain (c :: (Text.breakWhere opensMarkup cs).1) (Text.breakWhere opensMarkup cs).2 := by
  intro early late hsplit hlate
  cases early with
  | nil =>
    obtain rfl : c :: (Text.breakWhere opensMarkup cs).1 = late := hsplit
    rw [List.cons_append, Text.breakWhere_append]
    exact h
  | cons d ds => exact Text.stop_of_breakWhere (List.cons.inj hsplit).2 hlate

theorem wellSourced_lexComment (s : List Char) (h : WellSourced (lex (lexComment s).rest)) :
    WellSourced ((lexComment s).lexemes ++ lex (lexComment s).rest) :=
  .mark rfl (List.cons_ne_nil _ _) h

theorem wellSourced_lexDeclaration {opening : List Char} (ho : opening ≠ [])
    {make : List Char → Token} (hm : ∀ body, (make body).IsMark) (s : List Char)
    (h : WellSourced (lex (lexDeclaration opening make s).rest)) :
    WellSourced ((lexDeclaration opening make s).lexemes ++
      lex (lexDeclaration opening make s).rest) :=
  .mark (hm _) (by simp [ho]) h

/-- A start tag with the raw text that it opens. -/
theorem wellSourced_lexTagBody {name : String} {opening : List Char} (ho : opening ≠ [])
    (s : List Char) (h : WellSourced (lex (lexTagBody name opening s).rest)) :
    WellSourced ((lexTagBody name opening s).lexemes ++ lex (lexTagBody name opening s).rest) := by
  simp only [lexTagBody] at h ⊢
  split at h
  · next hraw =>
    have inside := not_holdsCloseTag_breakRawText name (readBody s).rest
    have stops := @closeTag?_breakRawText name (readBody s).rest
    rw [if_pos hraw, hraw.1]
    simp only [lexRawText] at h ⊢
    generalize breakRawText name (readBody s).rest = parts at h inside stops ⊢
    obtain ⟨body, left⟩ := parts
    cases hclose : closeTag? name left with
    | none =>
      rw [hclose] at h
      obtain rfl : left = [] := by
        by_contra hne
        have some := stops hne
        rw [hclose] at some
        cases some
      rw [lex_nil] at h ⊢
      rw [List.cons_append, List.append_assoc]
      exact .rawText hraw.2 (by simp [ho]) inside (fun _ => rfl) h
    | some parts =>
      obtain ⟨source, rest⟩ := parts
      rw [hclose] at h
      obtain ⟨spelled, blanks, -, -, hsource, -⟩ := closeTag?_eq_some_iff.1 hclose
      rw [List.cons_append, List.append_assoc]
      exact .rawText hraw.2 (by simp [ho]) inside (fun hnil => by simp [hsource] at hnil) h
  · next hraw =>
    rw [if_neg hraw]
    have tag : (Token.startTag name (readBody s).value.attributes
        ((readBody s).value.ending.ofName name)).IsMark := by
      simpa [Token.IsMark, Token.opensRawText] using hraw
    exact .mark tag (by simp [ho]) h

theorem wellSourced_lexText {c : Char} {cs : List Char} (hc : opensMarkup (c :: cs) = false)
    (h : WellSourced (lex (lexText c cs).rest)) :
    WellSourced ((lexText c cs).lexemes ++ lex (lexText c cs).rest) := by
  refine .text (List.cons_ne_nil _ _) ?_ h
  have plain := isPlain_lexText hc
  rwa [← lex_append (Text.breakWhere opensMarkup cs).2] at plain

/-- Each step puts well sourced lexemes before the row of what it leaves. -/
theorem wellSourced_next (c : Char) (cs : List Char) (h : WellSourced (lex (next c cs).rest)) :
    WellSourced ((next c cs).lexemes ++ lex (next c cs).rest) := by
  have declared (body : List Char) : (doctype body).IsMark := rfl
  have bogus (body : List Char) : (bogusComment body).IsMark := rfl
  have named (name : String) (_ : List Char) : (Token.endTag name).IsMark := rfl
  revert h
  unfold next
  split
  · split
    · exact wellSourced_lexComment _
    · split
      · exact wellSourced_lexDeclaration (List.cons_ne_nil _ _) declared _
      · exact wellSourced_lexDeclaration (List.cons_ne_nil _ _) bogus _
    · exact wellSourced_lexDeclaration (List.cons_ne_nil _ _) bogus _
    · split
      · exact wellSourced_lexDeclaration (List.cons_ne_nil _ _) (named _) _
      · exact wellSourced_lexDeclaration (List.cons_ne_nil _ _) bogus _
    · exact wellSourced_lexTagBody (List.cons_ne_nil _ _) _
  · next hopens => exact wellSourced_lexText (by simpa using hopens)

/-- The lexemes of a text are well sourced. -/
theorem wellSourced_lex (s : List Char) : WellSourced (lex s) := by
  fun_induction lex s with
  | case1 => exact .finish
  | case2 c cs ih => exact wellSourced_next c cs ih

/-! ### Single lexemes of a row -/

theorem not_endsInRawText_nil : ¬EndsInRawText [] := by
  rintro ⟨before, tag, after, hrow, -, -⟩
  exact List.append_ne_nil_of_right_ne_nil before (List.cons_ne_nil tag after) hrow.symm

theorem endsInRawText_cons :
    EndsInRawText (l :: ls) ↔
      (l.token.opensRawText ∧ ∀ m ∈ ls, m.token.kind ≠ .endTag) ∨ EndsInRawText ls := by
  constructor
  · rintro ⟨before, tag, after, hrow, ht, ha⟩
    cases before with
    | nil =>
      obtain ⟨rfl, rfl⟩ := List.cons.inj hrow
      exact .inl ⟨ht, ha⟩
    | cons first others => exact .inr ⟨others, tag, after, (List.cons.inj hrow).2, ht, ha⟩
  · rintro (⟨ht, ha⟩ | ⟨before, tag, after, rfl, ht, ha⟩)
    · exact ⟨[], l, ls, rfl, ht, ha⟩
    · exact ⟨l :: before, tag, after, rfl, ht, ha⟩

theorem endsInRawText_cons_of_not_opens (h : l.token.opensRawText = false) :
    EndsInRawText (l :: ls) ↔ EndsInRawText ls := by
  simp [endsInRawText_cons, h]

/-- After an end tag no raw text is open that was open before it. -/
theorem endsInRawText_append_endTag (h : l.token.kind = .endTag) :
    EndsInRawText (before ++ l :: ls) ↔ EndsInRawText ls := by
  have closed : l.token.opensRawText = false := by
    cases ht : l.token with
    | startTag => simp [ht, Token.kind] at h
    | _ => rfl
  induction before with
  | nil => exact endsInRawText_cons_of_not_opens closed
  | cons first others ih =>
    refine endsInRawText_cons.trans ((or_iff_right ?_).trans ih)
    rintro ⟨-, unclosed⟩
    exact unclosed l (List.mem_append_right _ List.mem_cons_self) h

/-- The end tag of an element with raw text that is never closed: what follows its start tag holds
no close tag of it, and the end of input follows. -/
inductive IsImpliedEnd : (before : List Lexeme) → Lexeme → (after : List Lexeme) → Prop
  | intro {before body : List Lexeme} {name : String} {attributes : List Attribute}
      {opening : List Char} (hr : hasRawText name) (hb : ¬HoldsCloseTag name (sourceOf body)) :
      IsImpliedEnd (before ++ ⟨.startTag name attributes .plain, opening⟩ :: body)
        ⟨.endTag name, []⟩ [⟨.endOfInput, []⟩]

/-- A lexeme between others that is made of its source: a text, according to whether raw text is
open before it, and any other lexeme if it has no source. -/
structure IsSourcedAt (before : List Lexeme) (l : Lexeme) (after : List Lexeme) : Prop where
  raw : ∀ text, l.token = .text text → EndsInRawText before → text = String.ofList l.source
  plain : ∀ text, l.token = .text text → ¬EndsInRawText before →
    text = Reference.decoded l.source ∧ IsPlain l.source (sourceOf after)
  empty : l.source = [] → l.token ≠ .endOfInput → IsImpliedEnd before l after

/-- More lexemes before it make no difference, if raw text is open after them as it was before. -/
theorem IsSourcedAt.append {more : List Lexeme} (h : IsSourcedAt before l after)
    (hr : EndsInRawText (more ++ before) ↔ EndsInRawText before) :
    IsSourcedAt (more ++ before) l after where
  raw text ht hraw := h.raw text ht (hr.1 hraw)
  plain text ht hraw := h.plain text ht fun hopen => hraw (hr.2 hopen)
  empty hs he := by
    obtain ⟨hname, hbody⟩ := h.empty hs he
    rw [← List.append_assoc]
    exact .intro hname hbody

theorem isSourcedAt_of_mark (ht : l.token.IsMark) (hs : l.source ≠ []) :
    IsSourcedAt before l after where
  raw text h := by
    rw [h] at ht
    exact ht.elim
  plain text h := by
    rw [h] at ht
    exact ht.elim
  empty h := absurd h hs

@[simp] theorem sourceOf_rawLexemes (body : List Char) : sourceOf (rawLexemes body) = body := by
  cases body <;> simp [rawLexemes]

theorem isSourcedAt_rawLexemes {body : List Char} {others : List Lexeme}
    (h : rawLexemes body = before ++ l :: others) {tag : Lexeme} (ht : tag.token.opensRawText)
    (after : List Lexeme) : IsSourcedAt (tag :: before) l after := by
  cases body with
  | nil => simp [rawLexemes] at h
  | cons c cs =>
    obtain ⟨rfl, hl⟩ : before = [] ∧ _ := by
      rcases List.append_eq_singleton_iff.1 h.symm with hparts | ⟨-, hnil⟩
      · exact hparts
      · cases hnil
    obtain ⟨rfl, rfl⟩ := List.cons.inj hl
    have inside : EndsInRawText [tag] := ⟨[], tag, [], rfl, ht, nofun⟩
    exact
      { raw := fun text htext _ => (Token.text.inj htext).symm
        plain := fun text _ hraw => absurd inside hraw
        empty := nofun }

/-- The end tag of an element with raw text is implied if it has no source. -/
theorem isSourcedAt_endTag {name : String} {attributes : List Attribute}
    {opening body close : List Char} (hr : hasRawText name) (hb : ¬HoldsCloseTag name body)
    (hc : close = [] → ls = [⟨.endOfInput, []⟩]) :
    IsSourcedAt (⟨.startTag name attributes .plain, opening⟩ :: rawLexemes body)
      ⟨.endTag name, close⟩ ls where
  raw := nofun
  plain := nofun
  empty hnil _ := by
    obtain rfl : close = [] := hnil
    rw [hc rfl]
    exact @IsImpliedEnd.intro [] _ _ _ _ hr (by rwa [sourceOf_rawLexemes])

/-- The lexemes of an element with raw text, and those that follow it. -/
theorem isSourcedAt_of_rawText {name : String} {attributes : List Attribute}
    {opening body close : List Char} (hr : hasRawText name) (hs : opening ≠ [])
    (hb : ¬HoldsCloseTag name body) (hc : close = [] → ls = [⟨.endOfInput, []⟩])
    (h : ∀ {before}, before ++ l :: after = ls → IsSourcedAt before l after)
    (hrow : before ++ l :: after = ⟨.startTag name attributes .plain, opening⟩ ::
      (rawLexemes body ++ ⟨.endTag name, close⟩ :: ls)) : IsSourcedAt before l after := by
  cases before with
  | nil =>
    obtain ⟨rfl, -⟩ := List.cons.inj hrow
    exact { raw := nofun, plain := nofun, empty := fun hnil => absurd hnil hs }
  | cons tag others =>
    obtain ⟨rfl, hrest⟩ := List.cons.inj hrow
    -- The lexeme is in the raw text, or it is the end tag, or it stands after that.
    rcases List.append_eq_append_iff.1 hrest with ⟨more, hraw, hmore⟩ | ⟨later, rfl, hlater⟩
    · cases more with
      | nil =>
        obtain ⟨rfl, rfl⟩ := List.cons.inj hmore
        rw [← List.append_nil others, ← hraw]
        exact isSourcedAt_endTag hr hb hc
      | cons first more =>
        obtain ⟨rfl, -⟩ := List.cons.inj hmore
        exact isSourcedAt_rawLexemes hraw (by simp [Token.opensRawText, hr]) after
    · cases later with
      | nil =>
        obtain ⟨rfl, rfl⟩ := List.cons.inj hlater
        rw [List.append_nil]
        exact isSourcedAt_endTag hr hb hc
      | cons close later =>
        obtain ⟨rfl, hlast⟩ := List.cons.inj hlater
        have closed : EndsInRawText (⟨.startTag name attributes .plain, opening⟩ ::
            rawLexemes body ++ ⟨.endTag name, close⟩ :: later) ↔ EndsInRawText later :=
          endsInRawText_append_endTag rfl
        rw [List.append_cons] at closed
        rw [← List.cons_append, List.append_cons]
        exact (h hlast.symm).append closed

/-- The lexemes of a well sourced row are made of their sources. -/
theorem WellSourced.isSourcedAt (h : WellSourced (before ++ l :: after)) :
    IsSourcedAt before l after := by
  generalize hrow : before ++ l :: after = row at h
  induction h generalizing before with
  | finish =>
    obtain ⟨rfl, hl⟩ | ⟨-, hnil⟩ := List.append_eq_singleton_iff.1 hrow
    · obtain ⟨rfl, rfl⟩ := List.cons.inj hl
      exact { raw := nofun, plain := nofun, empty := fun _ hne => absurd rfl hne }
    · cases hnil
  | @text source ls hs hp _ ih =>
    cases before with
    | nil =>
      obtain ⟨rfl, rfl⟩ := List.cons.inj hrow
      exact
        { raw := fun _ _ hopen => absurd hopen not_endsInRawText_nil
          plain := fun _ htext _ => ⟨(Token.text.inj htext).symm, hp⟩
          empty := fun hnil => absurd hnil hs }
    | cons first others =>
      obtain ⟨rfl, hrest⟩ := List.cons.inj hrow
      exact @IsSourcedAt.append _ _ _ [_] (ih hrest) (endsInRawText_cons_of_not_opens rfl)
  | @mark m ls ht hs _ ih =>
    cases before with
    | nil =>
      obtain ⟨rfl, rfl⟩ := List.cons.inj hrow
      exact isSourcedAt_of_mark ht hs
    | cons first others =>
      obtain ⟨rfl, hrest⟩ := List.cons.inj hrow
      exact @IsSourcedAt.append _ _ _ [_] (ih hrest)
        (endsInRawText_cons_of_not_opens ht.opensRawText)
  | rawText hr hs hb hc _ ih => exact isSourcedAt_of_rawText hr hs hb hc ih hrow

theorem length_rawLexemes_le (body : List Char) : (rawLexemes body).length ≤ body.length := by
  cases body <;> simp [rawLexemes]

/-- A well sourced row has no more lexemes than characters, but for the end of input and an end tag
that it implies. -/
theorem WellSourced.length_le (h : WellSourced ls) : ls.length ≤ (sourceOf ls).length + 2 := by
  induction h with
  | finish => simp
  | text hs _ _ ih | mark _ hs _ ih =>
    have := List.length_pos_iff.2 hs
    simp only [List.length_cons, sourceOf_cons, List.length_append]
    omega
  | @rawText name attributes opening body close ls _ hs _ hc _ ih =>
    have tag := List.length_pos_iff.2 hs
    have inside := length_rawLexemes_le body
    have all : (sourceOf (⟨.startTag name attributes .plain, opening⟩ ::
        (rawLexemes body ++ ⟨.endTag name, close⟩ :: ls))).length =
          opening.length + (body.length + (close.length + (sourceOf ls).length)) := by
      simp
    rw [all]
    simp only [List.length_cons, List.length_append]
    by_cases hclose : close = []
    · simp only [hc hclose, List.length_cons, List.length_nil]
      omega
    · have := List.length_pos_iff.2 hclose
      omega

/-- A well sourced row ends with the end of input, which stands nowhere else. -/
theorem WellSourced.exists_finish (h : WellSourced ls) :
    ∃ earlier, ls = earlier ++ [⟨.endOfInput, []⟩] ∧ ∀ l ∈ earlier, l.token ≠ .endOfInput := by
  induction h with
  | finish => exact ⟨[], rfl, nofun⟩
  | text _ _ _ ih =>
    obtain ⟨earlier, rfl, others⟩ := ih
    exact ⟨_ :: earlier, rfl, List.forall_mem_cons.2 ⟨nofun, others⟩⟩
  | mark ht _ _ ih =>
    obtain ⟨earlier, rfl, others⟩ := ih
    exact ⟨_ :: earlier, rfl, List.forall_mem_cons.2 ⟨fun h => by rw [h] at ht; exact ht, others⟩⟩
  | @rawText name attributes opening body close _ _ _ _ _ _ ih =>
    obtain ⟨earlier, rfl, others⟩ := ih
    have inside : ∀ l ∈ rawLexemes body, l.token ≠ .endOfInput := by
      cases body <;> simp [rawLexemes]
    refine ⟨⟨.startTag name attributes .plain, opening⟩ ::
      (rawLexemes body ++ ⟨.endTag name, close⟩ :: earlier), by simp, ?_⟩
    exact List.forall_mem_cons.2 ⟨nofun, List.forall_mem_append.2
      ⟨inside, List.forall_mem_cons.2 ⟨nofun, others⟩⟩⟩

/-! ### Places in a string -/

/-- Spans that lie end to end from `start` to `stop`. -/
inductive EndToEnd : (start : Nat) → List Span → (stop : Nat) → Prop
  | nil (start : Nat) : EndToEnd start [] start
  | cons {start middle stop : Nat} {spans : List Span} (h : start ≤ middle)
      (hs : EndToEnd middle spans stop) : EndToEnd start (⟨start, middle⟩ :: spans) stop

/-- A span whose bounds stand between characters of the string, with the text between them. -/
def Span.Holds (span : Span) (s source : String) : Prop :=
  ∃ start stop : s.Pos, start.offset.byteIdx = span.start ∧ stop.offset.byteIdx = span.stop ∧
    String.extract start stop = source

/-- The middle one of three pieces of a string stands in its span. -/
theorem holds_append (first second third : String) :
    Span.Holds ⟨first.utf8ByteSize, first.utf8ByteSize + second.utf8ByteSize⟩
      (first ++ second ++ third) second := by
  refine ⟨.ofEqAppend (String.append_assoc ..), .ofEqAppend rfl, rfl, ?_, ?_⟩
  · exact String.utf8ByteSize_append
  · have beyond (i : Nat) : third.toByteArray.extract i
        ((first ++ second).utf8ByteSize - (first ++ second).toByteArray.size) = .empty := by
      rw [String.size_toByteArray, Nat.sub_self, ByteArray.extract_eq_empty_iff]
      omega
    have inside : (first ++ second).toByteArray.extract first.utf8ByteSize
        (first ++ second).utf8ByteSize = second.toByteArray := by
      rw [String.toByteArray_append, String.utf8ByteSize_append]
      exact ByteArray.extract_append_eq_right rfl rfl
    rw [← String.toByteArray_inj, String.toByteArray_extract, String.toByteArray_append,
      ByteArray.extract_append]
    exact (congrArg₂ (· ++ ·) inside (beyond _)).trans ByteArray.append_empty

@[simp] theorem byteSize_append (s t : List Char) :
    byteSize (s ++ t) = byteSize s + byteSize t := by
  induction s with
  | nil => simp [byteSize]
  | cons c cs ih => simp [byteSize, ih, Nat.add_assoc]

theorem utf8ByteSize_ofList (s : List Char) : (String.ofList s).utf8ByteSize = byteSize s := by
  induction s with
  | nil => rfl
  | cons c cs ih =>
    rw [← List.singleton_append, String.ofList_append, String.utf8ByteSize_append, ih,
      ← String.singleton_eq_ofList, String.utf8ByteSize_singleton, List.singleton_append, byteSize]

theorem byteSize_eq_zero_iff : byteSize s = 0 ↔ s = [] := by
  rw [← utf8ByteSize_ofList, String.utf8ByteSize_eq_zero_iff, String.ofList_eq_empty_iff]

theorem length_le_byteSize (s : List Char) : s.length ≤ byteSize s := by
  induction s with
  | nil => exact Nat.le_refl 0
  | cons c cs ih =>
    have := c.utf8Size_pos
    rw [List.length_cons, byteSize]
    omega

theorem endToEnd_spansFrom (start : Nat) (ls : List Lexeme) :
    EndToEnd start (spansFrom start ls) (start + byteSize (sourceOf ls)) := by
  induction ls generalizing start with
  | nil => exact .nil start
  | cons l ls ih =>
    rw [sourceOf_cons, byteSize_append, ← Nat.add_assoc]
    exact .cons (Nat.le_add_right _ _) (ih _)

theorem length_spansFrom (start : Nat) (ls : List Lexeme) :
    (spansFrom start ls).length = ls.length := by
  induction ls generalizing start with
  | nil => rfl
  | cons l ls ih => simp [spansFrom, ih]

/-- A lexeme of a row, with its span: as many bytes stand before it as the earlier ones take. -/
theorem of_zip_spansFrom {start : Nat} {before after : List (Lexeme × Span)} {span : Span}
    (h : ls.zip (spansFrom start ls) = before ++ (l, span) :: after) :
    ls = before.map Prod.fst ++ l :: after.map Prod.fst ∧
      span.start = start + byteSize (sourceOf (before.map Prod.fst)) ∧
      span.stop = span.start + byteSize l.source := by
  induction ls generalizing start before with
  | nil => simp at h
  | cons m ms ih =>
    rw [spansFrom, List.zip_cons_cons] at h
    cases before with
    | nil =>
      obtain ⟨hfirst, rfl⟩ := List.cons.inj h
      obtain ⟨rfl, rfl⟩ := Prod.mk.inj hfirst
      have row : (ms.zip (spansFrom (start + byteSize m.source) ms)).map Prod.fst = ms :=
        List.map_fst_zip (Nat.le_of_eq (length_spansFrom _ ms).symm)
      exact ⟨by rw [List.map_nil, List.nil_append, row], rfl, rfl⟩
    | cons first before =>
      obtain ⟨rfl, hrest⟩ := List.cons.inj h
      obtain ⟨hms, hstart, hstop⟩ := ih hrest
      refine ⟨congrArg (m :: ·) hms, ?_, hstop⟩
      rw [hstart, List.map_cons, sourceOf_cons, byteSize_append, Nat.add_assoc]

/-- The lexemes of a string, each with its span. -/
def spanned (s : String) : List (Lexeme × Span) :=
  (lex s.toList).zip (spans (lex s.toList))

theorem map_fst_spanned (s : String) : (spanned s).map Prod.fst = lex s.toList :=
  List.map_fst_zip (Nat.le_of_eq (length_spansFrom _ _).symm)

theorem map_snd_spanned (s : String) : (spanned s).map Prod.snd = spans (lex s.toList) :=
  List.map_snd_zip (Nat.le_of_eq (length_spansFrom _ _))

theorem byteSize_toList (s : String) : byteSize s.toList = s.utf8ByteSize := by
  rw [← utf8ByteSize_ofList, String.ofList_toList]

/-- The end of input stands at the last byte. -/
theorem exists_spanned_finish (s : String) :
    ∃ earlier, spanned s = earlier ++ [(⟨.endOfInput, []⟩, ⟨s.utf8ByteSize, s.utf8ByteSize⟩)] ∧
      ∀ piece ∈ earlier, piece.1.token ≠ .endOfInput := by
  obtain ⟨row, hrow, others⟩ := (wellSourced_lex s.toList).exists_finish
  rcases List.eq_nil_or_concat (spanned s) with hnil | ⟨earlier, ⟨l, start, stop⟩, hlast⟩
  · have empty := map_fst_spanned s
    rw [hnil, hrow] at empty
    exact absurd empty.symm (List.append_ne_nil_of_right_ne_nil row (List.cons_ne_nil _ _))
  · rw [List.concat_eq_append] at hlast
    obtain ⟨hls, hstart, hstop⟩ := of_zip_spansFrom hlast
    obtain ⟨rfl, hl⟩ := List.append_inj' (hrow.symm.trans hls) rfl
    obtain rfl := (List.cons.inj hl).1
    have whole : byteSize (sourceOf (earlier.map Prod.fst)) = s.utf8ByteSize := by
      have all := lex_append s.toList
      rw [hrow, sourceOf_append, sourceOf_cons, sourceOf_nil, List.append_nil] at all
      rw [← byteSize_toList, ← all, List.append_nil]
    obtain rfl : start = s.utf8ByteSize := hstart.trans (by rw [Nat.zero_add, whole])
    obtain rfl : stop = s.utf8ByteSize := hstop
    exact ⟨earlier, hlast, fun piece hp => others _ (List.mem_map_of_mem hp)⟩

/-- What stands in the span of a lexeme is its source. -/
theorem holds_of_spanned {s : String} {before after : List (Lexeme × Span)} {span : Span}
    (h : spanned s = before ++ (l, span) :: after) : span.Holds s (String.ofList l.source) := by
  obtain ⟨hls, hstart, hstop⟩ := of_zip_spansFrom h
  have whole : s = String.ofList (sourceOf (before.map Prod.fst)) ++ String.ofList l.source ++
      String.ofList (sourceOf (after.map Prod.fst)) := by
    rw [← String.ofList_append, ← String.ofList_append, List.append_assoc, ← sourceOf_cons,
      ← sourceOf_append, ← hls, lex_append, String.ofList_toList]
  have holds := holds_append (String.ofList (sourceOf (before.map Prod.fst)))
    (String.ofList l.source) (String.ofList (sourceOf (after.map Prod.fst)))
  rw [← whole, utf8ByteSize_ofList, utf8ByteSize_ofList] at holds
  rw [Nat.zero_add] at hstart
  rw [← hstart, ← hstop] at holds
  exact holds

/-- The lexemes of a string, each with its span. There are no more of them than characters, but for
the end of input and an end tag that it implies. The spans lie end to end from the first byte to the
last. The end of input is the last lexeme and no other. What stands in a span is the source of the
lexeme; only a close tag that is implied stands in an empty span before the end of input. A text is
its source as it is while raw text is open. Otherwise it is the source with its references decoded,
where no markup opens. -/
theorem spanned_tiles (s : String) :
    (spanned s).length ≤ s.length + 2 ∧
    EndToEnd 0 ((spanned s).map Prod.snd) s.utf8ByteSize ∧
    (∃ earlier, spanned s =
        earlier ++ [(⟨.endOfInput, []⟩, ⟨s.utf8ByteSize, s.utf8ByteSize⟩)] ∧
      ∀ piece ∈ earlier, piece.1.token ≠ .endOfInput) ∧
    ∀ before l span after, spanned s = before ++ (l, span) :: after →
      span.Holds s (String.ofList l.source) ∧
      (span.isEmpty → l.token ≠ .endOfInput →
        IsImpliedEnd (before.map Prod.fst) l (after.map Prod.fst)) ∧
      (∀ text, l.token = .text text → EndsInRawText (before.map Prod.fst) →
        text = String.ofList l.source) ∧
      ∀ text, l.token = .text text → ¬EndsInRawText (before.map Prod.fst) →
        text = Reference.decoded l.source ∧
        ∀ early c late, l.source = early ++ '<' :: c :: late →
          c.isAlpha = false ∧ c ≠ '/' ∧ c ≠ '!' ∧ c ≠ '?' := by
  have sourced := wellSourced_lex s.toList
  refine ⟨?_, ?_, exists_spanned_finish s, ?_⟩
  · have few := sourced.length_le
    rw [lex_append, String.length_toList] at few
    rwa [← List.length_map Prod.fst, map_fst_spanned]
  · have tiles := endToEnd_spansFrom 0 (lex s.toList)
    rw [lex_append, byteSize_toList, Nat.zero_add] at tiles
    rwa [map_snd_spanned]
  · intro before l span after hrow
    obtain ⟨hls, -, hstop⟩ := of_zip_spansFrom hrow
    rw [hls] at sourced
    obtain ⟨raw, plain, empty⟩ := sourced.isSourcedAt
    refine ⟨holds_of_spanned hrow, fun hempty => empty ?_, raw, fun text ht hraw => ?_⟩
    · rw [Span.isEmpty, beq_iff_eq] at hempty
      exact byteSize_eq_zero_iff.1 (by omega)
    · obtain ⟨decoded, unopened⟩ := plain text ht hraw
      exact ⟨decoded, fun early c late hs => unopened.of_lt hs⟩

end MarkupTree
