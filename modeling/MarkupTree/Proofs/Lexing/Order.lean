import MarkupTree.Proofs.Lexing.Spelling

/-!
# The order of tokens

The tokens of a text end with the end of input, which stands nowhere else. A start tag is cut off
only by the end of the text, so at most one is, and then it is the last token before the end of
input. A void element's tag that is not cut off closes itself. A row of tokens with these
properties is *orderly*; the tokens of every text are, and so are those of a text that goes on
inside a start tag. And where ordinary text ends, no other text starts.

## Main definitions

* `Token.IsWhole` : a token after which the text may go on.
* `Token.EndsVoid` : a token that opens no void element as if content followed.
* `Token.opensRawText` : a token after which a text is raw.
* `Orderly` : rows of tokens that a text can have.

## Main results

* `orderly_tokens` : the tokens of a text are orderly.
* `exists_tagRestTokens` : a text that goes on inside a start tag has the rest of the tag for its
  first token, and its tokens are orderly.
* `Orderly.cutOff_cases` : where a start tag can be cut off.
* `beginsWithText_lex_iff` : the places where ordinary text can end.
-/

namespace MarkupTree

/-- A token after which the text may go on: not the end of input, and not a start tag that is cut
off. The tag of a void element closes itself. -/
def Token.IsWhole : Token → Prop
  | .startTag name _ ending => ending ≠ .cutOff ∧ (isVoid name → ending = .selfClosing)
  | .endOfInput => False
  | _ => True

/-- A token that does not open a void element as if content followed. -/
def Token.EndsVoid : Token → Prop
  | .startTag name _ ending => isVoid name → ending ≠ .plain
  | _ => True

theorem Token.IsWhole.endsVoid {token : Token} (h : token.IsWhole) : token.EndsVoid := by
  cases token with
  | startTag name attributes ending =>
    intro hv hplain
    rw [h.2 hv] at hplain
    cases hplain
  | _ => trivial

theorem Token.IsWhole.isCutOff {token : Token} (h : token.IsWhole) : token.isCutOff = false := by
  cases token with
  | startTag name attributes ending => exact beq_eq_false_iff_ne.2 h.1
  | _ => rfl

/-- Whether a token is a text. -/
def Token.isText : Token → Bool
  | text _ => true
  | _ => false

/-- Whether a row of tokens starts with a text. -/
def beginsWithText : List Token → Bool
  | token :: _ => token.isText
  | [] => false

/-- Whether a text right after the token is raw. -/
def Token.opensRawText : Token → Bool
  | .startTag name _ ending => ending == .plain && hasRawText name
  | _ => false

/-- Rows of tokens that a text can have. -/
inductive Orderly : List Token → Prop
  | finish : Orderly [.endOfInput]
  | cutOff (name : String) (attributes : List Attribute) :
      Orderly [.startTag name attributes .cutOff, .endOfInput]
  | cons {token : Token} {others : List Token} (h : token.IsWhole) (hs : Orderly others) :
      Orderly (token :: others)

/-- Tokens after which the text may go on can stand before any that a text can have. -/
theorem Orderly.append {ts us : List Token} (hu : Orderly us) (ht : ∀ t ∈ ts, t.IsWhole) :
    Orderly (ts ++ us) := by
  induction ts with
  | nil => exact hu
  | cons t ts ih =>
    obtain ⟨first, others⟩ := List.forall_mem_cons.1 ht
    exact .cons first (ih others)

/-- A start tag that is cut off is the last token before the end of input. -/
theorem Orderly.cutOff_cases {ts us : List Token} (h : Orderly (ts ++ us)) (hus : us ≠ []) :
    (∀ t ∈ ts, t.isCutOff = false) ∨
      ∃ others name attributes, ts = others ++ [.startTag name attributes .cutOff] ∧
        us = [.endOfInput] ∧ ∀ t ∈ others, t.isCutOff = false := by
  induction ts with
  | nil => exact .inl nofun
  | cons t ts ih =>
    generalize hrow : t :: ts ++ us = row at h
    cases h with
    | finish =>
      obtain ⟨-, hnil⟩ := List.cons.inj hrow
      exact absurd (List.append_eq_nil_iff.1 hnil).2 hus
    | cutOff name attributes =>
      obtain ⟨rfl, hlast⟩ := List.cons.inj hrow
      rcases List.append_eq_singleton_iff.1 hlast with ⟨rfl, hend⟩ | ⟨-, hnil⟩
      · exact .inr ⟨[], name, attributes, rfl, hend, nofun⟩
      · exact absurd hnil hus
    | @cons token others whole hs =>
      obtain ⟨rfl, rfl⟩ := List.cons.inj hrow
      rcases ih hs with hts | ⟨others, name, attributes, rfl, hend, hothers⟩
      · exact .inl (List.forall_mem_cons.2 ⟨whole.isCutOff, hts⟩)
      · exact .inr ⟨t :: others, name, attributes, rfl, hend,
          List.forall_mem_cons.2 ⟨whole.isCutOff, hothers⟩⟩

/-! ### One step -/

/-- A step that the text may follow, or that ends the text inside a start tag. -/
def Step.IsOrderly (step : Step) : Prop :=
  (∀ l ∈ step.lexemes, l.token.IsWhole) ∨
    ∃ name attributes source,
      step = ⟨[⟨.startTag name attributes .cutOff, source⟩], []⟩

/-- A step with one lexeme, after which the text may go on. -/
theorem Step.isOrderly_single (token : Token) (h : token.IsWhole) (source rest : List Char) :
    Step.IsOrderly ⟨[⟨token, source⟩], rest⟩ := by
  refine .inl fun l hl => ?_
  rw [List.mem_singleton.1 hl]
  exact h

theorem lexText_isOrderly (c : Char) (cs : List Char) : (lexText c cs).IsOrderly :=
  Step.isOrderly_single (.text _) trivial _ _

theorem lexComment_isOrderly (s : List Char) : (lexComment s).IsOrderly :=
  Step.isOrderly_single (.comment _) trivial _ _

theorem lexDeclaration_isOrderly (opening : List Char) (make : List Char → Token)
    (h : ∀ body, (make body).IsWhole) (s : List Char) :
    (lexDeclaration opening make s).IsOrderly :=
  Step.isOrderly_single (make _) (h _) _ _

theorem lexRawText_isWhole (name : String) (s : List Char) :
    ∀ l ∈ (lexRawText name s).lexemes, l.token.IsWhole := by
  have texts (body : List Char) : ∀ l ∈ (if body.isEmpty then [] else
      [(⟨.text (String.ofList body), body⟩ : Lexeme)]), l.token.IsWhole := by
    intro l hl
    split at hl
    · cases hl
    · rw [List.mem_singleton.1 hl]
      trivial
  intro l hl
  simp only [lexRawText] at hl
  split at hl
  all_goals
    rcases List.mem_append.1 hl with hl | hl
    · exact texts _ l hl
    · rw [List.mem_singleton.1 hl]
      trivial

theorem TagEnd.ofName_eq_cutOff_iff {name : String} {ending : TagEnd} :
    ending.ofName name = .cutOff ↔ ending = .cutOff := by
  cases ending with
  | plain => by_cases h : isVoid name <;> simp [TagEnd.ofName, h]
  | _ => simp [TagEnd.ofName]

theorem TagEnd.ofName_of_isVoid {name : String} {ending : TagEnd} (hv : isVoid name)
    (h : ending ≠ .cutOff) : ending.ofName name = .selfClosing := by
  cases ending with
  | plain => simp [TagEnd.ofName, hv]
  | selfClosing => rfl
  | cutOff => exact absurd rfl h

theorem lexTagBody_isOrderly (name : String) (opening s : List Char) :
    (lexTagBody name opening s).IsOrderly := by
  have rest := @readBody_rest_of_cutOff s
  simp only [lexTagBody]
  generalize readBody s = body at rest
  obtain ⟨⟨attributes, ending⟩, source, after⟩ := body
  by_cases cut : ending = .cutOff
  · obtain rfl := cut
    obtain rfl : after = [] := rest rfl
    exact .inr ⟨name, attributes, opening ++ source, rfl⟩
  · have whole : (Token.startTag name attributes (ending.ofName name)).IsWhole :=
      ⟨fun h => cut (TagEnd.ofName_eq_cutOff_iff.1 h), fun hv => TagEnd.ofName_of_isVoid hv cut⟩
    refine .inl fun l hl => ?_
    split at hl
    · rcases List.mem_cons.1 hl with rfl | hl
      · exact whole
      · exact lexRawText_isWhole name after l hl
    · rw [List.mem_singleton.1 hl]
      exact whole

theorem next_isOrderly (c : Char) (cs : List Char) : (next c cs).IsOrderly := by
  unfold next
  split
  · split
    · exact lexComment_isOrderly _
    · split
      · exact lexDeclaration_isOrderly _ doctype (fun _ => trivial) _
      · exact lexDeclaration_isOrderly _ bogusComment (fun _ => trivial) _
    · exact lexDeclaration_isOrderly _ bogusComment (fun _ => trivial) _
    · split
      · exact lexDeclaration_isOrderly _ (fun _ => .endTag _) (fun _ => trivial) _
      · exact lexDeclaration_isOrderly _ bogusComment (fun _ => trivial) _
    · exact lexTagBody_isOrderly _ _ _
  · exact lexText_isOrderly c cs

/-! ### Whole texts -/

/-- A step and the lexemes of what it leaves. -/
theorem Step.IsOrderly.followed {step : Step} (h : step.IsOrderly)
    (hr : Orderly ((lex step.rest).map Lexeme.token)) :
    Orderly ((step.lexemes ++ lex step.rest).map Lexeme.token) := by
  rcases h with whole | ⟨name, attributes, source, rfl⟩
  · rw [List.map_append]
    refine hr.append fun t ht => ?_
    obtain ⟨l, hl, rfl⟩ := List.mem_map.1 ht
    exact whole l hl
  · rw [lex_nil]
    exact .cutOff name attributes

theorem orderly_lex (s : List Char) : Orderly ((lex s).map Lexeme.token) := by
  fun_induction lex s with
  | case1 => exact .finish
  | case2 c cs ih => exact (next_isOrderly c cs).followed ih

/-- The tokens of a text are orderly. -/
theorem orderly_tokens (s : String) : Orderly (tokens s) := orderly_lex s.toList

/-- A text that goes on inside a start tag has the rest of the tag for its first token, and its
tokens are orderly. -/
theorem exists_tagRestTokens (name s : String) :
    ∃ attributes ending others,
      tagRestTokens name s = .startTag name attributes ending :: others ∧
        Orderly (.startTag name attributes ending :: others) := by
  have orderly : Orderly (tagRestTokens name s) :=
    (lexTagBody_isOrderly name [] s.toList).followed (orderly_lex _)
  have first : ∃ attributes ending others,
      tagRestTokens name s = .startTag name attributes ending :: others := by
    simp only [tagRestTokens, lexTagRest, lexTagBody]
    split <;> exact ⟨_, _, _, rfl⟩
  obtain ⟨attributes, ending, others, heq⟩ := first
  exact ⟨attributes, ending, others, heq, heq ▸ orderly⟩

/-! ### Where a text ends -/

theorem lexDeclaration_beginsWithText (opening : List Char) {make : List Char → Token}
    (h : ∀ body, (make body).isText = false) (s : List Char) (ts : List Token) :
    beginsWithText ((lexDeclaration opening make s).lexemes.map Lexeme.token ++ ts) = false :=
  h _

theorem lexStartTag_beginsWithText (s : List Char) (ts : List Token) :
    beginsWithText ((lexStartTag s).lexemes.map Lexeme.token ++ ts) = false := by
  simp only [lexStartTag, lexTagBody]
  split <;> rfl

theorem lexEndTag_beginsWithText (s : List Char) (ts : List Token) :
    beginsWithText ((lexEndTag s).lexemes.map Lexeme.token ++ ts) = false := rfl

theorem next_beginsWithText {c : Char} {cs : List Char} (h : opensMarkup (c :: cs) = true)
    (ts : List Token) : beginsWithText ((next c cs).lexemes.map Lexeme.token ++ ts) = false := by
  unfold next
  rw [if_pos h]
  split
  · rfl
  · split
    · exact lexDeclaration_beginsWithText _ (fun _ => rfl) _ ts
    · exact lexDeclaration_beginsWithText _ (fun _ => rfl) _ ts
  · exact lexDeclaration_beginsWithText _ (fun _ => rfl) _ ts
  · split
    · exact lexEndTag_beginsWithText _ ts
    · exact lexDeclaration_beginsWithText _ (fun _ => rfl) _ ts
  · exact lexStartTag_beginsWithText _ ts

/-- Where a text ends, no other text starts. -/
theorem beginsWithText_lex {s : List Char} (h : endsText s) :
    beginsWithText ((lex s).map Lexeme.token) = false := by
  cases s with
  | nil => rw [lex_nil]; rfl
  | cons c cs =>
    rw [lex_cons, List.map_append]
    exact next_beginsWithText h _

/-- Ordinary text can end exactly where no text starts. -/
theorem beginsWithText_lex_iff {s : List Char} :
    beginsWithText ((lex s).map Lexeme.token) = false ↔ endsText s := by
  refine ⟨fun h => ?_, beginsWithText_lex⟩
  cases s with
  | nil => rfl
  | cons c cs =>
    cases hopens : opensMarkup (c :: cs) with
    | true => exact hopens
    | false =>
      rw [lex_cons, next_of_not_opensMarkup hopens] at h
      cases h

end MarkupTree
