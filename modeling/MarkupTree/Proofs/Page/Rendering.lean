import MarkupTree.Proofs.Page.Loader

/-!
# One boot element for another

A page differs from its template in one element only, the first boot element, and not even its
tokens differ anywhere else (`Page.render_replaces`). Before the boot tag the lexer is between two
steps, and the loader tags open with a tag, so what is read before does not change. They end with a
tag too, so the lexer is between two steps again where the rest of the template goes on.

The loader tags hold no boot tag, and none is before them. So what a page would be rendered to is
settled by what follows them, and rendering again and again replaces one boot element after the
other from the left (`Page.renderEach_append`).

## Main definitions

* `Page.renderEach` : a page that is rendered again and again.

## Main results

* `Page.IsFirstBoot.isReadAs` : what is read before the first boot element.
* `Page.IsFirstBoot.countP` : the boot tags of a template.
* `Page.render_append`, `Page.renderEach_append` : pages that start with text without boot tags.
* `Page.IsFirstBoot.tokens_replaced`, `Page.IsFirstBoot.countP_replaced` : the loader tags in place
  of the first boot element.
* `Page.render_replaces` : what a page is.
-/

namespace MarkupTree.Page

variable {template pre boot post text : String} {carried : List Attribute} {s head : List Char}
  {marked after inside others : List Lexeme} {ts : List Token}

/-! ### Inside the element -/

/-- After the start tag of a script that does not close itself the text ends, or there is raw text
and the end tag. -/
theorem row_after_script {ending : TagEnd} {source : List Char} (he : ending ≠ .selfClosing)
    (h : lex s = ⟨.startTag "script" carried ending, source⟩ :: others) :
    (∀ l ∈ others, l.token = .endOfInput) ∨
      ∃ body close more, others = rawLexemes body ++ ⟨.endTag "script", close⟩ :: more := by
  cases ending with
  | selfClosing => exact absurd rfl he
  | plain =>
    have sourced := wellSourced_lex s
    rw [h] at sourced
    cases sourced with
    | mark ht => cases ht
    | rawText => exact .inr ⟨_, _, _, rfl⟩
  | cutOff =>
    have orderly := orderly_lex s
    rw [h, List.map_cons] at orderly
    generalize hrow : others.map Lexeme.token = row at orderly
    cases orderly with
    | cutOff =>
      refine .inl fun l hl => ?_
      have last := List.mem_map_of_mem (f := Lexeme.token) hl
      rw [hrow] at last
      exact List.mem_singleton.1 last
    | cons whole => exact absurd rfl whole.1

theorem not_isBootTag_of_mem_rawLexemes {body : List Char} {l : Lexeme} (h : l ∈ rawLexemes body) :
    ¬IsBootTag l.token := by
  rintro ⟨attributes, ending, htoken, -⟩
  cases body with
  | nil => cases h
  | cons c cs =>
    rw [List.mem_singleton.1 h] at htoken
    cases htoken

theorem not_isBootTag_of_isEnd {token : Token}
    (h : token = .endOfInput ∨ token = .endTag "script") : ¬IsBootTag token := by
  rintro ⟨attributes, ending, rfl, -⟩
  rcases h with h | h <;> cases h

/-- The only boot tag of a boot element is the first one. -/
theorem IsBootElement.exists_inside (h : IsBootElement carried marked after)
    (hrow : lex s = marked ++ after) :
    ∃ tag inside, marked = tag :: inside ∧ ∀ l ∈ inside, ¬IsBootTag l.token := by
  cases h with
  | alone => exact ⟨_, [], rfl, nofun⟩
  | @closed ending source close inside _ he hi =>
    refine ⟨_, _, rfl, List.forall_mem_append.2 ⟨fun l hl => ?_, List.forall_mem_cons.2
      ⟨not_isBootTag_of_isEnd (.inr rfl), nofun⟩⟩⟩
    rcases row_after_script he hrow with ends | ⟨body, close', more, hmore⟩
    · exact not_isBootTag_of_isEnd (.inl (ends l (by simp [hl])))
    · have hparts : inside ++ ⟨.endTag "script", close⟩ :: after =
          rawLexemes body ++ ⟨.endTag "script", close'⟩ :: more := by
        rw [← hmore, List.append_cons]
        rfl
      refine @not_isBootTag_of_mem_rawLexemes body _ ?_
      rcases List.append_eq_append_iff.1 hparts with ⟨under, hbody, -⟩ | ⟨beyond, rfl, hbeyond⟩
      · exact hbody ▸ List.mem_append_left under hl
      · cases beyond with
        | nil => rwa [List.append_nil] at hl
        | cons first _ =>
          obtain rfl := (List.cons.inj hbeyond).1
          exact absurd rfl (hi _ (List.mem_append_right _ List.mem_cons_self))
  | @unclosed ending source inside he hi =>
    refine ⟨_, inside, rfl, fun l hl => ?_⟩
    rw [List.append_nil] at hrow
    rcases row_after_script he hrow with ends | ⟨body, close, more, rfl⟩
    · exact not_isBootTag_of_isEnd (.inl (ends l hl))
    · exact absurd rfl (hi _ (List.mem_append_right _ List.mem_cons_self))

/-- After a boot element the lexer is between two steps. -/
theorem IsBootElement.lex_after (h : IsBootElement carried marked after)
    (hrow : lex s = marked ++ after) (ha : after ≠ []) : lex (sourceOf after) = after := by
  have closed : ¬EndsInRawText marked := by
    cases h with
    | alone => exact fun hr => not_endsInRawText_nil ((endsInRawText_cons_of_not_opens rfl).1 hr)
    | closed he hi =>
      rw [← List.cons_append]
      exact fun hr => not_endsInRawText_nil ((endsInRawText_append_endTag rfl).1 hr)
    | unclosed => exact absurd rfl ha
  exact (exists_steps hrow ha fun hr => absurd hr closed).2

/-! ### Around the element -/

/-- What stands before the first boot element is read as before if other markup follows. -/
theorem IsFirstBoot.isReadAs (h : IsFirstBoot template pre carried boot post) :
    ∃ ts, tokens pre = ts ++ [.endOfInput] ∧ (∀ token ∈ ts, ¬IsBootTag token) ∧
      ∀ piece us, opensMarkup piece → IsReadAs piece us →
        IsReadAs (pre.toList ++ piece) (ts ++ us) := by
  cases h with | @intro before marked after _ hrow hn _ element => ?_
  obtain ⟨ending, source, others, rfl⟩ := element.exists_tag
  obtain ⟨alone, -, replaced⟩ := steps_before_startTag hrow rfl
  refine ⟨before.map Lexeme.token, ?_, ?_, ?_⟩
  · rw [tokens, String.toList_ofList, alone, List.map_append]
    rfl
  · intro token htoken
    obtain ⟨l, hl, rfl⟩ := List.mem_map.1 htoken
    exact hn l hl
  · intro piece us hopens hpiece s
    obtain ⟨ls, steps, hls⟩ := hpiece s
    cases piece with
    | nil => cases hopens
    | cons c cs =>
      obtain rfl := opensMarkup_head hopens
      have first := replaced (cs ++ s) (opensMarkup_append hopens s)
      rw [String.toList_ofList, List.append_assoc]
      exact ⟨before ++ ls, first.trans steps, by rw [List.map_append, hls]⟩

/-- A template has one boot tag more than what follows its first boot element. -/
theorem IsFirstBoot.countP (h : IsFirstBoot template pre carried boot post) :
    (tokens template).countP (fun token => IsBootTag token) =
      (tokens post).countP (fun token => IsBootTag token) + 1 := by
  cases h with | @intro before marked after _ hrow hn hb element => ?_
  obtain ⟨ending, source, others, rfl⟩ := element.exists_tag
  have rest : lex (sourceOf (⟨.startTag "script" carried ending, source⟩ :: others ++ after)) =
      ⟨.startTag "script" carried ending, source⟩ :: others ++ after :=
    (steps_before_startTag hrow rfl).2.1
  obtain ⟨tag, inside, hmarked, hinside⟩ := element.exists_inside rest
  obtain ⟨rfl, rfl⟩ := List.cons.inj hmarked
  have boot : IsBootTag (.startTag "script" carried ending) := ⟨carried, ending, rfl, hb⟩
  have none {ls : List Lexeme} (hls : ∀ l ∈ ls, ¬IsBootTag l.token) :
      (ls.map Lexeme.token).countP (fun token => IsBootTag token) = 0 := by
    simpa [List.countP_eq_zero] using hls
  have left : (tokens (String.ofList (sourceOf after))).countP (fun token => IsBootTag token) =
      (after.map Lexeme.token).countP (fun token => IsBootTag token) := by
    by_cases ha : after = []
    · obtain rfl := ha
      decide +kernel
    · rw [tokens, String.toList_ofList, element.lex_after rest ha]
  rw [tokens, hrow, left, List.cons_append, List.map_append, List.map_cons, List.map_append,
    List.countP_append, List.countP_cons, List.countP_append, none hn, none hinside]
  simp [boot]

/-! ### The loader tags -/

theorem exists_loaderText {config : Config} (h : loaderTags config carried = .ok text) :
    ∃ main, text = loaderText config main carried := by
  rw [loaderTags_eq] at h
  split at h
  · cases h
  · exact ⟨_, (Except.ok.inj h).symm⟩

theorem opensMarkup_loaderText (config : Config) (main : String) (carried : List Attribute) :
    opensMarkup (loaderText config main carried).toList := by
  simp [loaderText, loaderTag, opensMarkup]

theorem not_isBootTag_of_mem_resourceTokens {path : String} {token : Token}
    (h : token ∈ resourceTokens path) : ¬IsBootTag token := by
  rintro ⟨attributes, ending, rfl, a, ha, hname, -⟩
  rw [resourceTokens] at h
  split at h
  · split_ifs at h
    · simp at h
    · obtain ⟨rfl, -⟩ : attributes = [⟨"src", some _⟩, ⟨"defer", none⟩] ∧ ending = .plain := by
        simpa using h
      rcases List.mem_cons.1 ha with rfl | ha
      · exact absurd hname (show "src" ≠ "type" by decide)
      · rw [List.mem_singleton.1 ha] at hname
        exact absurd hname (show "defer" ≠ "type" by decide)
    · cases h
  · cases h

/-- There is no boot tag among the loader tags. -/
theorem not_isBootTag_of_mem_loaderTokens {config : Config} {stem : String} {token : Token}
    (h : token ∈ loaderTokens config stem carried) : ¬IsBootTag token := by
  rcases List.mem_cons.1 h with rfl | h
  · rintro ⟨attributes, ending, htoken, a, ha, hname, -⟩
    injection htoken with _ hattributes
    have own : ∀ name ∈ ["src", "main", "entrypoint", "references", "linker-enabled"],
        name ≠ "type" := by decide
    rw [← hattributes] at ha
    simp only [List.mem_cons, List.mem_append, List.mem_map, List.mem_ite_nil_right,
      List.mem_filter, List.not_mem_nil, or_false] at ha
    rcases ha with rfl | rfl | ⟨entry, -, rfl⟩ | rfl | ⟨-, rfl⟩ | ⟨-, hkept⟩
    · exact own "src" (by simp) hname
    · exact own "main" (by simp) hname
    · exact own "entrypoint" (by simp) hname
    · exact own "references" (by simp) hname
    · exact own "linker-enabled" (by simp) hname
    · exact of_decide_eq_true hkept hname
  · rcases List.mem_cons.1 h with rfl | h
    · exact not_isBootTag_of_isEnd (.inr rfl)
    · obtain ⟨path, -, hpath⟩ := List.mem_flatMap.1 h
      exact not_isBootTag_of_mem_resourceTokens hpath

/-- The tokens of a text without the end of input. -/
theorem filter_tokens {s : String} (h : tokens s = ts ++ [.endOfInput]) :
    (tokens s).filter (· ≠ .endOfInput) = ts := by
  obtain ⟨earlier, hrow, others⟩ := (wellSourced_lex s.toList).exists_finish
  have row : tokens s = earlier.map Lexeme.token ++ [.endOfInput] := by
    rw [tokens, hrow, List.map_append]
    rfl
  obtain ⟨rfl, -⟩ := List.append_inj' (h.symm.trans row) rfl
  have kept : (earlier.map Lexeme.token).filter (· ≠ .endOfInput) = earlier.map Lexeme.token := by
    simpa [List.filter_eq_self] using others
  rw [row, List.filter_append, kept]
  exact List.append_nil _

/-- What stands before the first boot element, and the loader tags after it. -/
theorem IsFirstBoot.isReadAs_loaderTags {config : Config}
    (h : IsFirstBoot template pre carried boot post) (ht : loaderTags config carried = .ok text) :
    ∃ ts us, tokens pre = ts ++ [.endOfInput] ∧ tokens text = us ++ [.endOfInput] ∧
      IsReadAs (pre.toList ++ text.toList) (ts ++ us) ∧ ∀ token ∈ ts ++ us, ¬IsBootTag token := by
  obtain ⟨ts, hpre, hts, replaced⟩ := h.isReadAs
  obtain ⟨main, rfl⟩ := exists_loaderText ht
  have loaded := isReadAs_loaderText config main h.isAttributeName
  refine ⟨ts, _, hpre, ?_, replaced _ _ (opensMarkup_loaderText config main carried) loaded,
    List.forall_mem_append.2 ⟨hts, fun _ => not_isBootTag_of_mem_loaderTokens⟩⟩
  rw [← loaded.tokens, String.ofList_toList]

/-! ### Pages that start without a boot tag -/

theorem findBootTag_append_of_not {ls ms : List Lexeme} (h : ∀ l ∈ ls, ¬IsBootTag l.token) :
    findBootTag (ls ++ ms) =
      (findBootTag ms).map fun tag => { tag with before := ls ++ tag.before } := by
  induction ls with
  | nil => exact Option.map_id'.symm
  | cons l ls ih =>
    obtain ⟨first, others⟩ := List.forall_mem_cons.1 h
    rw [List.cons_append, findBootTag_cons_of_not first, ih others, Option.map_map]
    rfl

/-- What is read before the first boot tag does not matter. -/
theorem render_append (h : IsReadAs head ts) (hb : ∀ token ∈ ts, ¬IsBootTag token)
    (rest : String) (config : Config) :
    render (String.ofList head ++ rest) config =
      (render rest config).map fun page =>
        { page with html := String.ofList head ++ page.html } := by
  obtain ⟨ls, steps, rfl⟩ := h rest.toList
  have source : sourceOf ls = head := List.append_cancel_right steps.append
  have others : ∀ l ∈ ls, ¬IsBootTag l.token := fun l hl => hb _ (List.mem_map_of_mem hl)
  rw [render, render, String.toList_append, String.toList_ofList, steps.lex_eq,
    findBootTag_append_of_not others]
  cases findBootTag (lex rest.toList) with
  | none => rfl
  | some tag =>
    simp only [Option.map_some, sourceOf_append, source, String.ofList_append]
    cases loaderTags config tag.attributes with
    | error failure => rfl
    | ok text =>
      refine congrArg (fun html => Except.ok (Rendered.mk html true)) ?_
      simp only [String.append_assoc]

/-- A template rendered for each of some settings, each time the page of the last time. -/
def renderEach (template : String) : List Config → Except Failure String
  | [] => .ok template
  | config :: configs => do
    let page ← render template config
    renderEach page.html configs

theorem renderEach_append (h : IsReadAs head ts) (hb : ∀ token ∈ ts, ¬IsBootTag token)
    (rest : String) (configs : List Config) :
    renderEach (String.ofList head ++ rest) configs =
      (renderEach rest configs).map (String.ofList head ++ ·) := by
  induction configs generalizing rest with
  | nil => rfl
  | cons config configs ih =>
    rw [renderEach, renderEach, render_append h hb]
    cases render rest config with
    | error failure => rfl
    | ok page => exact ih page.html

/-! ### The page -/

section Replaced

variable {config : Config}

/-- With the loader tags in place of the first boot element, what stands before, the tags and what
follows are read each on its own. -/
theorem IsFirstBoot.tokens_replaced (h : IsFirstBoot template pre carried boot post)
    (ht : loaderTags config carried = .ok text) :
    tokens (pre ++ text ++ post) = (tokens pre).filter (· ≠ .endOfInput) ++
      ((tokens text).filter (· ≠ .endOfInput) ++ tokens post) := by
  obtain ⟨ts, us, hpre, htext, hread, -⟩ := h.isReadAs_loaderTags ht
  rw [filter_tokens hpre, filter_tokens htext, tokens, String.toList_append, String.toList_append,
    hread.lex, List.append_assoc]
  rfl

/-- The loader tags have no boot tag, and the first boot element has one. -/
theorem IsFirstBoot.countP_replaced (h : IsFirstBoot template pre carried boot post)
    (ht : loaderTags config carried = .ok text) :
    (tokens template).countP (fun token => IsBootTag token) =
      (tokens (pre ++ text ++ post)).countP (fun token => IsBootTag token) + 1 := by
  obtain ⟨ts, us, hpre, htext, -, hboots⟩ := h.isReadAs_loaderTags ht
  have none : (ts ++ us).countP (fun token => IsBootTag token) = 0 :=
    List.countP_eq_zero.2 fun token htoken hboot => hboots token htoken (of_decide_eq_true hboot)
  rw [h.countP, h.tokens_replaced ht, filter_tokens hpre, filter_tokens htext, ← List.append_assoc,
    List.countP_append, none, Nat.zero_add]

/-- Rendering goes on with what follows the loader tags. -/
theorem IsFirstBoot.renderEach_replaced (h : IsFirstBoot template pre carried boot post)
    (ht : loaderTags config carried = .ok text) (configs : List Config) :
    renderEach (pre ++ text ++ post) configs =
      (renderEach post configs).map (pre ++ text ++ ·) := by
  obtain ⟨ts, us, -, -, hread, hboots⟩ := h.isReadAs_loaderTags ht
  have again := renderEach_append hread hboots post configs
  rw [String.ofList_append, String.ofList_toList, String.ofList_toList] at again
  exact again

end Replaced

/-- A page has no boot tag for the loader exactly if its template has none, and then it is the
template. Otherwise the loader tags stand in place of the first boot element, and nothing else
changes: the tokens of the page are those of what stands before, those of the loader tags and those
of what follows, with one boot tag fewer than the template. Rendering the page again, and again,
goes on with what follows. -/
theorem render_replaces {config : Config} {page : Rendered}
    (h : render template config = .ok page) :
    (page.bootTagFound = false ↔ ∀ token ∈ tokens template, ¬IsBootTag token) ∧
    (page.bootTagFound = false → page.html = template) ∧
    (page.bootTagFound = true → ∃ pre carried boot post text,
      IsFirstBoot template pre carried boot post ∧ template = pre ++ boot ++ post ∧
      loaderTags config carried = .ok text ∧ page.html = pre ++ text ++ post ∧
      tokens page.html = (tokens pre).filter (· ≠ .endOfInput) ++
        ((tokens text).filter (· ≠ .endOfInput) ++ tokens post) ∧
      (tokens template).countP (fun token => IsBootTag token) =
        (tokens page.html).countP (fun token => IsBootTag token) + 1 ∧
      ∀ configs, renderEach template (config :: configs) =
        (renderEach post configs).map (pre ++ text ++ ·)) := by
  cases hfound : findBootTag (lex template.toList) with
  | none =>
    rw [render, hfound] at h
    obtain rfl := Except.ok.inj h
    have none : ∀ token ∈ tokens template, ¬IsBootTag token := by
      intro token htoken
      obtain ⟨l, hl, rfl⟩ := List.mem_map.1 htoken
      exact findBootTag_eq_none_iff.1 hfound l hl
    refine ⟨⟨fun _ => none, fun _ => rfl⟩, fun _ => rfl, fun found => ?_⟩
    exact absurd found Bool.false_ne_true
  | some tag =>
    obtain ⟨before, carried, marked, after⟩ := tag
    obtain ⟨hrow, hn, hb, element⟩ := findBootTag_eq_some_iff.1 hfound
    have first : IsFirstBoot template _ carried _ _ := .intro hrow hn hb element
    generalize String.ofList (sourceOf before) = pre at first
    generalize String.ofList (sourceOf marked) = boot at first
    generalize String.ofList (sourceOf after) = post at first
    have replaced := render_of_isFirstBoot first config
    rw [h] at replaced
    cases htags : loaderTags config carried with
    | error failure =>
      rw [htags] at replaced
      cases replaced
    | ok text =>
      rw [htags] at replaced
      obtain rfl := Except.ok.inj replaced
      have found : true ≠ false := Bool.false_ne_true.symm
      refine ⟨⟨fun h => absurd h found, fun hnone => ?_⟩, fun h => absurd h found, fun _ =>
        ⟨pre, carried, boot, post, text, first, first.append, htags, rfl,
          first.tokens_replaced htags, first.countP_replaced htags, fun configs => ?_⟩⟩
      · obtain ⟨token, htoken, hboot⟩ := first.exists_bootTag
        exact absurd hboot (hnone token htoken)
      · rw [renderEach, h]
        exact first.renderEach_replaced htags configs

/-- A page with two boot tags, the second of which is never closed. What looks like one in a comment
is none. -/
def twiceMarked : String :=
  "<!--<script type=blazor-boot>-->1 < 2 <<script type=blazor-boot>old</script>" ++
    "&amp;<SCRIPT type='BLAZOR-BOOT '>rest"

theorem render_replaces_twiceMarked :
    ∃ page, render twiceMarked { mainAssembly := "App.exe" } = .ok page ∧
      page.bootTagFound = true ∧
      (tokens twiceMarked).countP (fun token => IsBootTag token) = 2 ∧
      (tokens page.html).countP (fun token => IsBootTag token) = 1 ∧
      ∃ pre post text, page.html = pre ++ text ++ post ∧
        tokens page.html = (tokens pre).filter (· ≠ .endOfInput) ++
          ((tokens text).filter (· ≠ .endOfInput) ++ tokens post) := by
  have twice : (tokens twiceMarked).countP (fun token => IsBootTag token) = 2 := by decide +kernel
  have done : (render twiceMarked { mainAssembly := "App.exe" }).toOption.map
      Rendered.bootTagFound = some true := by decide +kernel
  cases hrender : render twiceMarked { mainAssembly := "App.exe" } with
  | error failure =>
    rw [hrender] at done
    cases done
  | ok page =>
    rw [hrender] at done
    have found : page.bootTagFound = true := Option.some.inj done
    obtain ⟨pre, _, _, post, text, -, -, -, hhtml, htokens, hcount, -⟩ :=
      (render_replaces hrender).2.2 found
    rw [twice] at hcount
    exact ⟨page, rfl, found, twice, (Nat.succ.inj hcount).symm, pre, post, text, hhtml, htokens⟩

end MarkupTree.Page
