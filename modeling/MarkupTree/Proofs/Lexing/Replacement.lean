import MarkupTree.Proofs.Lexing.Printing
import MarkupTree.Proofs.Lexing.Seam

/-!
# Replacing what follows a place

Where a tag opens, a text may be cut off and another that opens markup put in its place: nothing
changes for the lexer before the place. No reader looks past the `<` there. It ends a name, white
space and a value without quotes as any other text would that is no part of them; it is neither the
`=` of a value nor the `>` of a tag; and no close tag and no end of a comment has a `<` inside. So a
reader that leaves a text from its `<` on leaves any other from its `<` on.

## Main results

* `readPart_replace`, `readBody_replace` : the inside of a start tag.
* `next_replace` : one step of the lexer.
* `Steps.replace` : several steps.
* `steps_before_startTag` : what stands before a start tag.
-/

namespace MarkupTree

variable {s t u rest : List Char}

/-! ### Runs of characters -/

/-- A word without a `<` in it, at the head of a text, ends before the `<`. -/
theorem exists_of_lt_notMem {word after : List Char} (hw : '<' ∉ word)
    (h : s ++ '<' :: t = word ++ after) : ∃ more, s = word ++ more ∧ after = more ++ '<' :: t := by
  rcases List.append_eq_append_iff.1 h with ⟨beyond, rfl, hbeyond⟩ | ⟨more, hs, hafter⟩
  · cases beyond with
    | nil => exact ⟨[], by simp, hbeyond.symm⟩
    | cons c cs =>
      obtain rfl : '<' = c := (List.cons.inj hbeyond).1
      exact absurd (List.mem_append_right s List.mem_cons_self) hw
  · exact ⟨more, hs, hafter⟩

theorem takeWhile_replace {p : Char → Bool}
    (h : (s ++ '<' :: t).dropWhile p = rest ++ '<' :: t) (u : List Char) :
    (s ++ '<' :: u).takeWhile p = (s ++ '<' :: t).takeWhile p ∧
      (s ++ '<' :: u).dropWhile p = rest ++ '<' :: u := by
  obtain ⟨htake, hdrop⟩ := takeWhile_of_append h
  have inside : ∀ c ∈ s.takeWhile p, p c = true := fun c hc => List.mem_takeWhile_imp hc
  have first := List.head?_dropWhile_not p (s ++ '<' :: t)
  rw [h] at first
  obtain ⟨c, hc, cs, hcs⟩ : ∃ c, p c = false ∧ ∃ cs, rest ++ '<' :: u = c :: cs := by
    cases rest with
    | nil => exact ⟨'<', by simpa using first, u, rfl⟩
    | cons c cs => exact ⟨c, by simpa using first, _, rfl⟩
  have stops : ¬p c = true := by
    rw [hc]
    exact Bool.false_ne_true
  have run : s ++ '<' :: u = s.takeWhile p ++ c :: cs := by
    rw [← hcs, ← hdrop, ← List.append_assoc, List.takeWhile_append_dropWhile]
  rw [run, List.takeWhile_append_of_pos inside, List.dropWhile_append_of_pos inside,
    List.takeWhile_cons_of_neg stops, List.dropWhile_cons_of_neg stops, List.append_nil, htake, hcs]
  exact ⟨rfl, rfl⟩

/-- The same for a run with one more character after it. -/
theorem takeWhile_replace_drop {p : Char → Bool}
    (h : ((s ++ '<' :: t).dropWhile p).drop 1 = rest ++ '<' :: t) (u : List Char) :
    (s ++ '<' :: u).takeWhile p = (s ++ '<' :: t).takeWhile p ∧
      ((s ++ '<' :: u).dropWhile p).take 1 = ((s ++ '<' :: t).dropWhile p).take 1 ∧
      ((s ++ '<' :: u).dropWhile p).drop 1 = rest ++ '<' :: u := by
  cases hd : (s ++ '<' :: t).dropWhile p with
  | nil =>
    rw [hd] at h
    exact absurd h.symm (List.append_ne_nil_of_right_ne_nil rest (List.cons_ne_nil _ _))
  | cons c cs =>
    obtain rfl : cs = rest ++ '<' :: t := by rw [hd] at h; exact h
    have left : (s ++ '<' :: t).dropWhile p = (c :: rest) ++ '<' :: t := hd
    obtain ⟨htake, hdrop⟩ := takeWhile_replace left u
    rw [htake, hdrop]
    exact ⟨rfl, rfl, rfl⟩

/-- A text is cut at the same place, if no place before the `<` passes the test because of what
comes after it. -/
theorem breakWhere_replace {stop : List Char → Bool} {before : List Char}
    (hl : ∀ x, x ≠ [] → stop (x ++ '<' :: u) = stop (x ++ '<' :: t))
    (h : Text.breakWhere stop (s ++ '<' :: t) = (before, rest ++ '<' :: t))
    (hr : rest = [] → stop ('<' :: u) = true) :
    Text.breakWhere stop (s ++ '<' :: u) = (before, rest ++ '<' :: u) := by
  have whole : before ++ (rest ++ '<' :: t) = s ++ '<' :: t := by
    have parts := @Text.breakWhere_append stop (s ++ '<' :: t)
    rwa [h] at parts
  obtain rfl : before ++ rest = s := by
    rw [← List.append_assoc] at whole
    exact List.append_cancel_right whole
  rw [List.append_assoc]
  refine Text.breakWhere_eq (fun early late hsplit hlate => ?_) (.inr ?_)
  · have first : (Text.breakWhere stop (before ++ rest ++ '<' :: t)).1 = early ++ late := by
      rw [h, hsplit]
    have passed := Text.stop_of_breakWhere first hlate
    have some : late ++ rest ≠ [] := List.append_ne_nil_of_left_ne_nil hlate rest
    rw [h, ← List.append_assoc] at passed
    rw [← List.append_assoc, hl _ some, passed]
  · by_cases hrest : rest = []
    · rw [hrest]
      exact hr hrest
    · have stops := @Text.stop_breakWhere stop (before ++ rest ++ '<' :: t)
      rw [h] at stops
      rw [hl rest hrest]
      exact stops (List.append_ne_nil_of_left_ne_nil hrest _)

/-! ### Attributes -/

theorem readQuoted_replace {quote : Char}
    (h : (readQuoted quote (s ++ '<' :: t)).rest = rest ++ '<' :: t) (u : List Char) :
    readQuoted quote (s ++ '<' :: u) =
      { readQuoted quote (s ++ '<' :: t) with rest := rest ++ '<' :: u } := by
  obtain ⟨htake, hquote, hdrop⟩ := takeWhile_replace_drop h u
  simp only [readQuoted, htake, hquote, hdrop]

theorem endsBareValue_replace {x : List Char} (hx : x ≠ []) (t u : List Char) :
    endsBareValue (x ++ '<' :: u) = endsBareValue (x ++ '<' :: t) := by
  obtain ⟨c, cs, rfl⟩ := List.exists_cons_of_ne_nil hx
  have head : (cs ++ '<' :: u).head? = (cs ++ '<' :: t).head? := by cases cs <;> rfl
  rw [Bool.eq_iff_iff, List.cons_append, List.cons_append, endsBareValue_cons, endsBareValue_cons,
    head]

theorem readBare_replace (h : (readBare (s ++ '<' :: t)).rest = rest ++ '<' :: t)
    (u : List Char) :
    readBare (s ++ '<' :: u) = { readBare (s ++ '<' :: t) with rest := rest ++ '<' :: u } := by
  simp only [readBare] at h ⊢
  have cut : Text.breakWhere endsBareValue (s ++ '<' :: t) =
      ((Text.breakWhere endsBareValue (s ++ '<' :: t)).1, rest ++ '<' :: t) := by rw [← h]
  rw [breakWhere_replace (fun _ hx => endsBareValue_replace hx t u) cut ?_]
  rintro rfl
  -- A value goes on where a `<` stands.
  have stops := @Text.stop_breakWhere endsBareValue (s ++ '<' :: t)
  rw [h] at stops
  exact stops (List.cons_ne_nil _ _)

theorem readValue_replace (h : (readValue (s ++ '<' :: t)).rest = rest ++ '<' :: t)
    (u : List Char) :
    readValue (s ++ '<' :: u) = { readValue (s ++ '<' :: t) with rest := rest ++ '<' :: u } := by
  cases s with
  | nil => exact readBare_replace (s := []) h u
  | cons c cs =>
    by_cases hdouble : c = '"'
    · obtain rfl := hdouble
      exact congrArg (fun q : Reading String => { q with source := '"' :: q.source })
        (readQuoted_replace h u)
    by_cases hsingle : c = '\x27'
    · obtain rfl := hsingle
      exact congrArg (fun q : Reading String => { q with source := '\x27' :: q.source })
        (readQuoted_replace h u)
    rw [List.cons_append, readValue_of_ne hdouble hsingle] at h ⊢
    rw [List.cons_append, readValue_of_ne hdouble hsingle]
    exact readBare_replace (s := c :: cs) h u

theorem readGiven?_eq_none_iff :
    readGiven? s = none ↔ (s.dropWhile Ascii.isBlank).head? ≠ some '=' := by
  unfold readGiven?
  split
  · next heq => simp [heq]
  · next hne =>
    refine ⟨fun _ hhead => ?_, fun _ => rfl⟩
    obtain ⟨after, hafter⟩ := List.head?_eq_some_iff.1 hhead
    exact hne after hafter

theorem readGiven?_none_replace (h : readGiven? (s ++ '<' :: t) = none) (u : List Char) :
    readGiven? (s ++ '<' :: u) = none := by
  have same : ((s ++ '<' :: u).dropWhile Ascii.isBlank).head? =
      ((s ++ '<' :: t).dropWhile Ascii.isBlank).head? := by
    rw [List.dropWhile_append, List.dropWhile_append]
    cases s.dropWhile Ascii.isBlank <;> rfl
  rw [readGiven?_eq_none_iff] at h ⊢
  rwa [same]

theorem readGiven?_replace {given : Reading String}
    (h : readGiven? (s ++ '<' :: t) = some given) (hr : given.rest = rest ++ '<' :: t)
    (u : List Char) :
    readGiven? (s ++ '<' :: u) = some { given with rest := rest ++ '<' :: u } := by
  unfold readGiven? at h
  split at h
  · next v hv =>
    obtain rfl := Option.some.inj h
    have value := readValue_append (v.dropWhile Ascii.isBlank)
    rw [hr] at value
    obtain ⟨w, rfl⟩ : ∃ w, v = w ++ '<' :: t :=
      exists_append_of_suffix ((List.suffix_append _ _).trans
        (value ▸ List.dropWhile_suffix Ascii.isBlank))
    rw [← List.append_assoc] at value
    have left : (s ++ '<' :: t).dropWhile Ascii.isBlank = ('=' :: w) ++ '<' :: t := hv
    obtain ⟨htake, hdrop⟩ := takeWhile_replace left u
    obtain ⟨htake', hdrop'⟩ := takeWhile_replace value.symm u
    have read := readValue_replace (value ▸ hr) u
    unfold readGiven?
    rw [hdrop]
    simp only [List.cons_append, htake, htake', hdrop', read, value]
  · cases h

theorem readAttribute_replace (h : (readAttribute (s ++ '<' :: t)).rest = rest ++ '<' :: t)
    (u : List Char) :
    readAttribute (s ++ '<' :: u) =
      { readAttribute (s ++ '<' :: t) with rest := rest ++ '<' :: u } := by
  simp only [readAttribute] at h ⊢
  generalize hafter : (s ++ '<' :: t).dropWhile isNameChar = after at h
  cases hgiven : readGiven? after with
  | none =>
    rw [hgiven] at h
    obtain rfl : after = rest ++ '<' :: t := h
    obtain ⟨htake, hdrop⟩ := takeWhile_replace hafter u
    rw [htake, hdrop, readGiven?_none_replace hgiven]
  | some given =>
    rw [hgiven] at h
    have whole := readGiven?_append hgiven
    rw [show given.rest = rest ++ '<' :: t from h, ← List.append_assoc] at whole
    rw [← whole] at hafter hgiven
    obtain ⟨htake, hdrop⟩ := takeWhile_replace hafter u
    rw [htake, hdrop, readGiven?_replace hgiven h u]

/-! ### The inside of a start tag -/

theorem readPart_slash_replace {cs : List Char}
    (h : (readPart '/' (cs ++ '<' :: t)).rest = rest ++ '<' :: t) (u : List Char) :
    readPart '/' (cs ++ '<' :: u) =
      { readPart '/' (cs ++ '<' :: t) with rest := rest ++ '<' :: u } := by
  by_cases hclose : cs.head? = some '>'
  · obtain ⟨ds, rfl⟩ := List.head?_eq_some_iff.1 hclose
    obtain rfl : ds = rest := List.append_cancel_right h
    rfl
  · have stray (v : List Char) : (cs ++ '<' :: v).head? ≠ some '>' := by
      cases cs with
      | nil =>
        intro hhead
        cases Option.some.inj hhead
      | cons c cs => exact hclose
    rw [readPart_slash (stray t)] at h ⊢
    obtain rfl : cs = rest := List.append_cancel_right h
    rw [readPart_slash (stray u)]

/-- A part of a start tag. -/
theorem readPart_replace {c : Char} {cs : List Char}
    (h : (readPart c (cs ++ '<' :: t)).rest = rest ++ '<' :: t) (u : List Char) :
    readPart c (cs ++ '<' :: u) =
      { readPart c (cs ++ '<' :: t) with rest := rest ++ '<' :: u } := by
  by_cases hslash : c = '/'
  · obtain rfl := hslash
    exact readPart_slash_replace h u
  unfold readPart at h ⊢
  rw [if_neg hslash] at h ⊢
  rw [if_neg hslash]
  split_ifs at h ⊢ with hclose hname
  · obtain rfl : cs = rest := List.append_cancel_right h
    rfl
  · exact readAttribute_replace (s := c :: cs) h u
  · obtain rfl : cs = rest := List.append_cancel_right h
    rfl

/-- The inside of a start tag that is closed. -/
theorem readBody_replace (h : (readBody (s ++ '<' :: t)).rest = rest ++ '<' :: t)
    (u : List Char) :
    readBody (s ++ '<' :: u) = { readBody (s ++ '<' :: t) with rest := rest ++ '<' :: u } := by
  generalize hn : s.length = n
  induction n using Nat.strong_induction_on generalizing s with | _ n ih => ?_
  subst hn
  cases s with
  | nil =>
    have short := length_readBody_rest_lt '<' t
    rw [show (readBody ('<' :: t)).rest = rest ++ '<' :: t from h, List.length_append] at short
    omega
  | cons c cs =>
    rw [List.cons_append] at h ⊢
    rw [List.cons_append]
    by_cases hclose : ∃ bySlash, (readPart c (cs ++ '<' :: t)).value = .close bySlash
    · obtain ⟨bySlash, hclose⟩ := hclose
      rw [readBody_of_close hclose] at h ⊢
      have read := readPart_replace h u
      rw [readBody_of_close (by rw [read, hclose]), read]
    · have hopen := not_exists.1 hclose
      rw [readBody_of_not_close hopen] at h ⊢
      obtain ⟨inside, hinside⟩ :
          ∃ inside, (readPart c (cs ++ '<' :: t)).rest = inside ++ '<' :: t :=
        exists_append_of_suffix ⟨_, h ▸ readBody_append (readPart c (cs ++ '<' :: t)).rest⟩
      rw [hinside] at h ⊢
      have read := readPart_replace hinside u
      have shorter : inside.length < (c :: cs).length := by
        have short := length_readPart_rest_lt c (cs ++ '<' :: t)
        rw [hinside, ← List.cons_append, List.length_append, List.length_append] at short
        omega
      have later := ih inside.length shorter h rfl
      rw [readBody_of_not_close (by rwa [read]), read]
      simp only [later]

/-! ### Steps -/

theorem lexDeclaration_replace {opening : List Char} {make : List Char → Token}
    (h : (lexDeclaration opening make (s ++ '<' :: t)).rest = rest ++ '<' :: t) (u : List Char) :
    lexDeclaration opening make (s ++ '<' :: u) =
      ⟨(lexDeclaration opening make (s ++ '<' :: t)).lexemes, rest ++ '<' :: u⟩ := by
  obtain ⟨htake, hclose, hdrop⟩ := takeWhile_replace_drop h u
  simp only [lexDeclaration, htake, hclose, hdrop]

theorem endsComment_replace (s t u : List Char) :
    endsComment (s ++ '<' :: u) = endsComment (s ++ '<' :: t) := by
  have kept {t : List Char} (u : List Char) (h : endsComment (s ++ '<' :: t) = true) :
      endsComment (s ++ '<' :: u) = true := by
    obtain ⟨after, hafter⟩ := endsComment_iff.1 h
    obtain ⟨more, rfl, -⟩ := exists_of_lt_notMem (show '<' ∉ ['-', '-', '>'] by decide) hafter
    rfl
  exact Bool.eq_iff_iff.2 ⟨kept t, kept u⟩

theorem lexComment_replace (h : (lexComment (s ++ '<' :: t)).rest = rest ++ '<' :: t)
    (u : List Char) :
    lexComment (s ++ '<' :: u) = ⟨(lexComment (s ++ '<' :: t)).lexemes, rest ++ '<' :: u⟩ := by
  simp only [lexComment] at h ⊢
  generalize hcut : Text.breakWhere endsComment (s ++ '<' :: t) = parts at h ⊢
  obtain ⟨body, after⟩ := parts
  have some : after ≠ [] := by
    rintro rfl
    exact absurd h.symm (List.append_ne_nil_of_right_ne_nil rest (List.cons_ne_nil _ _))
  obtain ⟨_, rfl⟩ : ∃ more, after = '-' :: '-' :: '>' :: more := by
    have left : (Text.breakWhere endsComment (s ++ '<' :: t)).2 ≠ [] := by rwa [hcut]
    have stops := Text.stop_breakWhere (s ++ '<' :: t) left
    rw [hcut] at stops
    exact endsComment_iff.1 stops
  obtain rfl := h
  have cut : Text.breakWhere endsComment (s ++ '<' :: u) =
      (body, ('-' :: '-' :: '>' :: rest) ++ '<' :: u) :=
    breakWhere_replace (fun x _ => endsComment_replace x t u) hcut fun hnil =>
      absurd hnil (List.cons_ne_nil _ _)
  rw [cut]
  rfl

theorem lexEndTag_replace (h : (lexEndTag (s ++ '<' :: t)).rest = rest ++ '<' :: t)
    (u : List Char) :
    lexEndTag (s ++ '<' :: u) = ⟨(lexEndTag (s ++ '<' :: t)).lexemes, rest ++ '<' :: u⟩ := by
  simp only [lexEndTag] at h ⊢
  generalize hafter : (s ++ '<' :: t).dropWhile isNameChar = after at h ⊢
  obtain ⟨v, rfl⟩ : ∃ v, after = v ++ '<' :: t := by
    have left : rest ++ '<' :: t <:+ after := by
      rw [← h]
      exact (List.drop_suffix 1 _).trans (List.dropWhile_suffix _)
    exact exists_append_of_suffix left
  obtain ⟨htake, hdrop⟩ := takeWhile_replace hafter u
  rw [htake, hdrop, lexDeclaration_replace h u]

/-- A close tag that starts before a `<` ends before it too. -/
theorem exists_of_closeTag? {name : String} {source after : List Char} (hn : isTagName name)
    (hs : s ≠ []) (h : closeTag? name (s ++ '<' :: t) = some (source, after)) :
    ∃ more, s = source ++ more := by
  obtain ⟨spelled, blanks, hl, hb, hsource, hwhole⟩ := closeTag?_eq_some_iff.1 h
  have plain := lt_notMem_tail_closeTag hn hl hb
  rw [← hsource] at plain
  obtain ⟨c, cs, rfl⟩ := List.exists_cons_of_ne_nil hs
  cases source with
  | nil => simp at hsource
  | cons d ds =>
    obtain ⟨rfl, hrest⟩ := List.cons.inj hwhole
    obtain ⟨more, rfl, -⟩ := exists_of_lt_notMem plain hrest
    exact ⟨more, rfl⟩

theorem isSome_closeTag?_replace {name : String} (hn : isTagName name) (hs : s ≠ [])
    (t u : List Char) :
    (closeTag? name (s ++ '<' :: u)).isSome = (closeTag? name (s ++ '<' :: t)).isSome := by
  have kept {t : List Char} (u : List Char) (h : (closeTag? name (s ++ '<' :: t)).isSome) :
      (closeTag? name (s ++ '<' :: u)).isSome := by
    obtain ⟨⟨source, after⟩, hclose⟩ := Option.isSome_iff_exists.1 h
    obtain ⟨more, rfl⟩ := exists_of_closeTag? hn hs hclose
    obtain ⟨spelled, blanks, hl, hb, hsource, -⟩ := closeTag?_eq_some_iff.1 hclose
    rw [List.append_assoc, closeTag?_eq_some_iff.2 ⟨spelled, blanks, hl, hb, hsource, rfl⟩,
      Option.isSome_some]
  exact Bool.eq_iff_iff.2 ⟨kept t, kept u⟩

theorem lexRawText_replace {name : String} (hn : isTagName name)
    (h : (lexRawText name (s ++ '<' :: t)).rest = rest ++ '<' :: t) (u : List Char) :
    lexRawText name (s ++ '<' :: u) =
      ⟨(lexRawText name (s ++ '<' :: t)).lexemes, rest ++ '<' :: u⟩ := by
  simp only [lexRawText] at h ⊢
  generalize hcut : breakRawText name (s ++ '<' :: t) = parts at h ⊢
  obtain ⟨body, after⟩ := parts
  cases hclose : closeTag? name after with
  | none =>
    rw [hclose] at h
    obtain rfl : after = rest ++ '<' :: t := h
    have stops := @closeTag?_breakRawText name (s ++ '<' :: t)
    rw [hcut, hclose] at stops
    cases stops (List.append_ne_nil_of_right_ne_nil rest (List.cons_ne_nil _ _))
  | some close =>
    obtain ⟨source, _⟩ := close
    rw [hclose] at h
    obtain rfl := h
    obtain ⟨spelled, blanks, hl, hb, hsource, hafter⟩ := closeTag?_eq_some_iff.1 hclose
    rw [← List.append_assoc] at hafter
    obtain rfl := hafter
    have cut : breakRawText name (s ++ '<' :: u) = (body, (source ++ rest) ++ '<' :: u) :=
      breakWhere_replace (fun _ hx => isSome_closeTag?_replace hn hx t u) hcut (by simp [hsource])
    have found : closeTag? name (source ++ rest ++ '<' :: u) = some (source, rest ++ '<' :: u) :=
      closeTag?_eq_some_iff.2 ⟨spelled, blanks, hl, hb, hsource, List.append_assoc _ _ _⟩
    rw [cut]
    simp only [found]

theorem isTagName_of_hasRawText {name : String} (h : hasRawText name) : isTagName name := by
  rcases Bool.or_eq_true_iff.1 h with h | h <;>
  · rw [beq_iff_eq.1 h]
    rfl

theorem lexTagBody_replace {name : String} {opening : List Char}
    (h : (lexTagBody name opening (s ++ '<' :: t)).rest = rest ++ '<' :: t) (u : List Char) :
    lexTagBody name opening (s ++ '<' :: u) =
      ⟨(lexTagBody name opening (s ++ '<' :: t)).lexemes, rest ++ '<' :: u⟩ := by
  simp only [lexTagBody] at h ⊢
  split at h
  · next hraw =>
    have left : (lexRawText name (readBody (s ++ '<' :: t)).rest).rest = rest ++ '<' :: t := h
    obtain ⟨v, hv⟩ : ∃ v, (readBody (s ++ '<' :: t)).rest = v ++ '<' :: t :=
      exists_append_of_suffix (left ▸ (lexRawText_reads name _).suffix)
    rw [hv] at left
    rw [readBody_replace hv u, if_pos hraw, if_pos hraw, hv,
      lexRawText_replace (isTagName_of_hasRawText hraw.2) left u]
  · next hraw => rw [readBody_replace h u, if_neg hraw, if_neg hraw]

theorem lexStartTag_replace (h : (lexStartTag (s ++ '<' :: t)).rest = rest ++ '<' :: t)
    (u : List Char) :
    lexStartTag (s ++ '<' :: u) =
      ⟨(lexStartTag (s ++ '<' :: t)).lexemes, rest ++ '<' :: u⟩ := by
  simp only [lexStartTag] at h ⊢
  generalize hafter : (s ++ '<' :: t).dropWhile isNameChar = after at h ⊢
  obtain ⟨v, rfl⟩ : ∃ v, after = v ++ '<' :: t := by
    rw [rest_lexTagBody] at h
    exact exists_append_of_suffix (h ▸ (lexTagBody_reads _ [] after).suffix)
  obtain ⟨htake, hdrop⟩ := takeWhile_replace hafter u
  rw [htake, hdrop, lexTagBody_replace h u]

theorem opensMarkup_replace (hs : s ≠ []) (t u : List Char) :
    opensMarkup (s ++ '<' :: u) = opensMarkup (s ++ '<' :: t) := by
  obtain ⟨c, cs, rfl⟩ := List.exists_cons_of_ne_nil hs
  by_cases hc : c = '<'
  · obtain rfl := hc
    cases cs <;> rfl
  · rw [List.cons_append, List.cons_append, opensMarkup_of_ne hc, opensMarkup_of_ne hc]

theorem lexText_replace {c : Char} {cs : List Char}
    (h : (lexText c (cs ++ '<' :: t)).rest = rest ++ '<' :: t) (hu : opensMarkup ('<' :: u)) :
    lexText c (cs ++ '<' :: u) = ⟨(lexText c (cs ++ '<' :: t)).lexemes, rest ++ '<' :: u⟩ := by
  simp only [lexText] at h ⊢
  have cut : Text.breakWhere opensMarkup (cs ++ '<' :: t) =
      ((Text.breakWhere opensMarkup (cs ++ '<' :: t)).1, rest ++ '<' :: t) := by rw [← h]
  rw [breakWhere_replace (fun _ hx => opensMarkup_replace hx t u) cut fun _ => hu]

theorem isSome_matchWord?_replace (s t u : List Char) :
    (Ascii.matchWord? "doctype".toList (s ++ '<' :: u)).isSome =
      (Ascii.matchWord? "doctype".toList (s ++ '<' :: t)).isSome := by
  have kept {t : List Char} (u : List Char)
      (h : (Ascii.matchWord? "doctype".toList (s ++ '<' :: t)).isSome) :
      (Ascii.matchWord? "doctype".toList (s ++ '<' :: u)).isSome := by
    obtain ⟨⟨word, after⟩, hm⟩ := Option.isSome_iff_exists.1 h
    have lower := Ascii.lower_of_matchWord? hm
    have plain : '<' ∉ word := fun hmem => by
      have letter := isAlpha_of_lower_eq lower '<' hmem
      cases letter
    obtain ⟨more, rfl, -⟩ := exists_of_lt_notMem plain (Ascii.matchWord?_append hm).symm
    rw [← lower, List.append_assoc, Ascii.matchWord?_spelled, Option.isSome_some]
  exact Bool.eq_iff_iff.2 ⟨kept t, kept u⟩

theorem next_bang_replace (h : (next '<' ('!' :: (s ++ '<' :: t))).rest = rest ++ '<' :: t)
    (u : List Char) :
    next '<' ('!' :: (s ++ '<' :: u)) =
      ⟨(next '<' ('!' :: (s ++ '<' :: t))).lexemes, rest ++ '<' :: u⟩ := by
  by_cases hcomment : ∃ body, s = '-' :: '-' :: body
  · obtain ⟨body, rfl⟩ := hcomment
    exact lexComment_replace h u
  · have plain (v after : List Char) : s ++ '<' :: v ≠ '-' :: '-' :: after := by
      intro heq
      obtain ⟨more, rfl, -⟩ := exists_of_lt_notMem (show '<' ∉ ['-', '-'] by decide) heq
      exact hcomment ⟨more, rfl⟩
    rw [next_declaration (plain t)] at h ⊢
    rw [next_declaration (plain u), isSome_matchWord?_replace s t u]
    split at h
    · next hword => rw [if_pos hword, if_pos hword, lexDeclaration_replace h u]
    · next hword => rw [if_neg hword, if_neg hword, lexDeclaration_replace h u]

theorem next_slash_replace (h : (next '<' ('/' :: (s ++ '<' :: t))).rest = rest ++ '<' :: t)
    (u : List Char) :
    next '<' ('/' :: (s ++ '<' :: u)) =
      ⟨(next '<' ('/' :: (s ++ '<' :: t))).lexemes, rest ++ '<' :: u⟩ := by
  have same : startsWithLetter (s ++ '<' :: u) = startsWithLetter (s ++ '<' :: t) := by
    cases s <;> rfl
  rw [next_slash] at h ⊢
  rw [next_slash, same]
  split at h
  · next hletter => rw [if_pos hletter, if_pos hletter, lexEndTag_replace h u]
  · next hletter => rw [if_neg hletter, if_neg hletter, lexDeclaration_replace h u]

/-- One step of the lexer. -/
theorem next_replace {c : Char} {cs : List Char}
    (h : (next c (cs ++ '<' :: t)).rest = rest ++ '<' :: t) (hu : opensMarkup ('<' :: u)) :
    next c (cs ++ '<' :: u) = ⟨(next c (cs ++ '<' :: t)).lexemes, rest ++ '<' :: u⟩ := by
  have same := opensMarkup_replace (List.cons_ne_nil c cs) t u
  rw [List.cons_append, List.cons_append] at same
  cases hopens : opensMarkup (c :: (cs ++ '<' :: t)) with
  | false =>
    rw [hopens] at same
    rw [next_of_not_opensMarkup hopens] at h ⊢
    rw [next_of_not_opensMarkup same]
    exact lexText_replace h hu
  | true =>
    obtain rfl := opensMarkup_head hopens
    cases cs with
    | nil => exact absurd h (ne_append_of_suffix (next_rest_suffix hopens))
    | cons d ds =>
      rw [List.cons_append] at h hopens ⊢
      rw [List.cons_append]
      by_cases hbang : d = '!'
      · obtain rfl := hbang
        exact next_bang_replace h u
      by_cases hquery : d = '?'
      · obtain rfl := hquery
        exact lexDeclaration_replace h u
      by_cases hslash : d = '/'
      · obtain rfl := hslash
        exact next_slash_replace h u
      have letter : d.isAlpha = true := by
        simpa [opensMarkup, hbang, hquery, hslash] using hopens
      rw [next_of_isAlpha letter] at h ⊢
      rw [next_of_isAlpha letter]
      exact lexStartTag_replace (s := d :: ds) h u

/-- Several steps of the lexer, before a place where markup opens. -/
theorem Steps.replace {ls : List Lexeme} (h : Steps s ls ('<' :: t)) (hu : opensMarkup ('<' :: u)) :
    Steps (sourceOf ls ++ '<' :: u) ls ('<' :: u) := by
  generalize hleft : '<' :: t = left at h
  induction h with
  | refl s => exact .refl _
  | @step c cs _ ls h ih =>
    obtain rfl := hleft
    have later := ih rfl
    obtain ⟨ds, hds, rfl⟩ : ∃ ds, sourceOf ((next c cs).lexemes ++ ls) = c :: ds ∧
        cs = ds ++ '<' :: t := by
      rw [sourceOf_append]
      refine exists_cons_of_append ?_ (next_source_ne_nil c cs)
      rw [h.append]
      exact next_reads c cs
    have left : (next c (ds ++ '<' :: t)).rest = sourceOf ls ++ '<' :: t := h.append.symm
    have read := next_replace left hu
    rw [hds, List.cons_append]
    have further : Steps (next c (ds ++ '<' :: u)).rest ls ('<' :: u) := by rwa [read]
    have all := further.step
    rwa [read] at all

theorem exists_lt_of_lex {ms : List Lexeme} {tag : Lexeme} (h : lex s = tag :: ms)
    (ht : tag.token.kind = .startTag) : ∃ t, s = '<' :: t := by
  cases s with
  | nil =>
    rw [lex_nil] at h
    obtain ⟨rfl, -⟩ := List.cons.inj h
    cases ht
  | cons c cs =>
    cases hopens : opensMarkup (c :: cs) with
    | true => exact ⟨cs, by rw [opensMarkup_head hopens]⟩
    | false =>
      rw [lex_cons, next_of_not_opensMarkup hopens] at h
      obtain ⟨rfl, -⟩ := List.cons.inj h
      cases ht

/-- Before a start tag the lexer is between two steps: the lexemes up to there are those of the text
up to there, and they stay the same if any other markup follows them. -/
theorem steps_before_startTag {ls ms : List Lexeme} {tag : Lexeme} (h : lex s = ls ++ tag :: ms)
    (ht : tag.token.kind = .startTag) :
    lex (sourceOf ls) = ls ++ [⟨.endOfInput, []⟩] ∧ lex (sourceOf (tag :: ms)) = tag :: ms ∧
      ∀ u, opensMarkup ('<' :: u) → Steps (sourceOf ls ++ '<' :: u) ls ('<' :: u) := by
  obtain ⟨steps, row⟩ := exists_steps h (List.cons_ne_nil tag ms) fun _ => ⟨tag, ms, rfl, ht⟩
  have short : Steps (sourceOf ls ++ []) ls [] := Steps.of_append steps fun _ => rfl
  rw [List.append_nil] at short
  obtain ⟨t, hsource⟩ := exists_lt_of_lex row ht
  refine ⟨by rw [short.lex_eq, lex_nil], row, fun u hu => ?_⟩
  rw [hsource] at steps
  exact steps.replace hu

end MarkupTree
