import MarkupTree.Proofs.Lexing.Tiling

/-!
# Cutting a string between two lexemes

Where a lexeme of a string ends and the next one starts, and no raw text is open, the string can be
cut in two, and the lexer reads both parts as it read the whole: the lexemes of the first part are
those before the cut, in the same spans, and those of the second part are the others, in spans that
are counted from the cut (`spanned_of_isBoundary`). So nothing before such a place has a say in what
is read after it, and nothing after it in what was read before.

That the tokens are shared out so is known from the steps of the lexer (`exists_steps`). Here the
spans are added: the bytes before a lexeme of the second part are those of the first part, and those
before it in its own part.

## Main definitions

* `IsBoundary` : the bytes where a string can be cut between two lexemes.
* `Span.shift` : a stretch of source text that stands after more text.
* `endsInsideTag` : the strings that end inside a start tag.

## Main results

* `spansFrom_append`, `spansFrom_add` : the spans of two rows of lexemes, and of a row that stands
  after more text.
* `spanned_of_isBoundary` : the lexemes and the spans of a string that is cut in two.
-/

namespace MarkupTree

variable {s : String} {ls ms : List Lexeme}

/-- A stretch of source text with `count` bytes more before it. -/
def Span.shift (count : Nat) (span : Span) : Span := ⟨count + span.start, count + span.stop⟩

/-- Whether a string ends inside a start tag. -/
def endsInsideTag (s : String) : Bool := (tokens s).any Token.isCutOff

/-- After `p` bytes of a string one of its lexemes ends, another follows, and no raw text is open:
the place is not between a start tag that opens raw text and the end tag of the element. -/
def IsBoundary (s : String) (p : Nat) : Prop :=
  ∃ before l span m next after,
    spanned s = before ++ (l, span) :: (m, next) :: after ∧ span.stop = p ∧
      ¬EndsInRawText (before.map Prod.fst ++ [l])

/-! ### Spans of rows -/

/-- The spans of two rows of lexemes, one after the other. -/
theorem spansFrom_append (start : Nat) (ls ms : List Lexeme) :
    spansFrom start (ls ++ ms) =
      spansFrom start ls ++ spansFrom (start + byteSize (sourceOf ls)) ms := by
  induction ls generalizing start with
  | nil => rfl
  | cons l ls ih =>
    rw [List.cons_append, spansFrom, ih, spansFrom, List.cons_append, sourceOf_cons,
      byteSize_append, Nat.add_assoc]

/-- The spans of a row of lexemes with more text before them. -/
theorem spansFrom_add (count start : Nat) (ls : List Lexeme) :
    spansFrom (count + start) ls = (spansFrom start ls).map (Span.shift count) := by
  induction ls generalizing start with
  | nil => rfl
  | cons l ls ih =>
    rw [spansFrom, spansFrom, List.map_cons, ← ih, Span.shift, Nat.add_assoc]

/-- Two rows of lexemes in their spans: the second starts where the first one stops. -/
theorem zip_spans_append (ls ms : List Lexeme) :
    (ls ++ ms).zip (spans (ls ++ ms)) =
      ls.zip (spans ls) ++
        (ms.zip (spans ms)).map (Prod.map id (Span.shift (byteSize (sourceOf ls)))) := by
  have later : spansFrom (0 + byteSize (sourceOf ls)) ms =
      (spans ms).map (Span.shift (byteSize (sourceOf ls))) := by
    rw [Nat.add_comm]
    exact spansFrom_add _ 0 ms
  rw [spans, spansFrom_append, List.zip_append (length_spansFrom 0 ls).symm, later,
    List.zip_map_right]
  rfl

/-! ### The two parts -/

/-- A text that is cut short between lexemes does not end inside a start tag. -/
theorem isCutOff_of_boundary {s : List Char} (h : lex s = ls ++ ms) (hms : lex (sourceOf ms) = ms)
    (hrest : sourceOf ms ≠ []) : ∀ l ∈ ls, l.token.isCutOff = false := by
  have orderly := orderly_lex s
  rw [h, List.map_append] at orderly
  have some : ms.map Lexeme.token ≠ [] := by
    rw [← hms]
    exact fun hnil => lex_ne_nil _ (List.map_eq_nil_iff.1 hnil)
  rcases orderly.cutOff_cases some with whole | ⟨_, _, _, -, hend, -⟩
  · exact fun l hl => whole l.token (List.mem_map_of_mem hl)
  · -- A start tag that is cut off would leave no text for the second part.
    exact absurd (eq_nil_of_lex (by rw [hms, hend])) hrest

/-- A string that is cut in two at a boundary. The lexemes of the first part, but for its end of
input, and those of the second part are the lexemes of the string, in their spans, when those of the
second part are counted from the start of the string. The first part does not end inside a start
tag, unless it is the whole string. -/
theorem spanned_of_isBoundary {p : Nat} (h : IsBoundary s p) :
    ∃ first second row, s = first ++ second ∧ first.utf8ByteSize = p ∧
      spanned first = row ++ [(⟨.endOfInput, []⟩, ⟨p, p⟩)] ∧
      spanned s = row ++ (spanned second).map (Prod.map id (Span.shift p)) ∧
      (p < s.utf8ByteSize → endsInsideTag first = false) := by
  obtain ⟨before, l, span, m, next, after, hrow, rfl, hraw⟩ := h
  obtain ⟨hlex, hstart, hstop⟩ := of_zip_spansFrom hrow
  rw [List.append_cons, List.map_cons] at hlex
  generalize hls : before.map Prod.fst ++ [l] = ls at hlex hraw
  generalize hms : m :: after.map Prod.fst = ms at hlex
  have some : ms ≠ [] := hms ▸ List.cons_ne_nil _ _
  obtain ⟨short, row⟩ := lex_between hlex some hraw
  have size : byteSize (sourceOf ls) = span.stop := by
    rw [← hls, sourceOf_append, byteSize_append, hstop, hstart, Nat.zero_add, sourceOf_cons,
      sourceOf_nil, List.append_nil]
  have whole : s = String.ofList (sourceOf ls) ++ String.ofList (sourceOf ms) := by
    rw [← String.ofList_append, ← sourceOf_append, ← hlex, lex_append, String.ofList_toList]
  refine ⟨String.ofList (sourceOf ls), String.ofList (sourceOf ms), ls.zip (spans ls), whole,
    (utf8ByteSize_ofList _).trans size, ?_, ?_, fun hp => ?_⟩
  · rw [spanned, String.toList_ofList, short, zip_spans_append, size]
    rfl
  · rw [spanned, spanned, String.toList_ofList, row, hlex, zip_spans_append, size]
  · have rest : sourceOf ms ≠ [] := by
      intro hnil
      rw [whole, hnil, String.utf8ByteSize_append, utf8ByteSize_ofList, size] at hp
      exact absurd hp (Nat.lt_irrefl _)
    have before := isCutOff_of_boundary hlex row rest
    rw [endsInsideTag, tokens, String.toList_ofList, short, List.any_map, List.any_append,
      Bool.or_eq_false_iff]
    exact ⟨List.any_eq_false.2 fun l hl => by simp [before l hl], rfl⟩

/-- The place between a text with a stray `<` and a start tag. -/
theorem isBoundary_strayBracket : IsBoundary "é<<p title=x>1<br></p>" 3 := by
  have row : spanned "é<<p title=x>1<br></p>" =
      [(⟨.text "é<", ['é', '<']⟩, ⟨0, 3⟩)] ++
        (⟨.startTag "p" [⟨"title", some "x"⟩] .plain, "<p title=x>".toList⟩, ⟨3, 14⟩) ::
        [(⟨.text "1", ['1']⟩, ⟨14, 15⟩),
          (⟨.startTag "br" [] .selfClosing, "<br>".toList⟩, ⟨15, 19⟩),
          (⟨.endTag "p", "</p>".toList⟩, ⟨19, 23⟩), (⟨.endOfInput, []⟩, ⟨23, 23⟩)] := by
    decide +kernel
  refine ⟨[], _, _, _, _, _, row, rfl, ?_⟩
  rw [List.map_nil, List.nil_append, endsInRawText_cons_of_not_opens rfl]
  exact not_endsInRawText_nil

theorem spanned_of_isBoundary_strayBracket :
    IsBoundary "é<<p title=x>1<br></p>" 3 ∧
    ∃ first second row, "é<<p title=x>1<br></p>" = first ++ second ∧ first.utf8ByteSize = 3 ∧
      spanned first = row ++ [(⟨.endOfInput, []⟩, ⟨3, 3⟩)] ∧
      spanned "é<<p title=x>1<br></p>" =
        row ++ (spanned second).map (Prod.map id (Span.shift 3)) ∧
      (3 < "é<<p title=x>1<br></p>".utf8ByteSize → endsInsideTag first = false) :=
  ⟨isBoundary_strayBracket, spanned_of_isBoundary isBoundary_strayBracket⟩

end MarkupTree
