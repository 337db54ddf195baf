import MarkupTree.Proofs.Lexing.Spelling

/-!
# Reading a text that is cut short

What is read off the head of a text does not depend on what comes long after it. If a reader of the
text `s ++ t` leaves all of `t`, and `rest` before it, then it reads the same off the text `s` and
leaves `rest`. Only what stops at a place because of the two characters there asks for more: a value
without quotes stops before `/>`, ordinary text before `<` and a letter, and these may not be cut in
two.

## Main results

* `readPart_of_append`, `readBody_of_append` : the inside of a start tag.
* `next_of_append` : one step of the lexer.
-/

namespace MarkupTree

variable {s t rest : List Char}

/-! ### Runs of characters -/

theorem takeWhile_of_append {p : Char → Bool} (h : (s ++ t).dropWhile p = rest ++ t) :
    s.takeWhile p = (s ++ t).takeWhile p ∧ s.dropWhile p = rest := by
  have whole : (s ++ t).takeWhile p ++ (rest ++ t) = s ++ t := by
    rw [← h, List.takeWhile_append_dropWhile]
  have inside : ∀ c ∈ (s ++ t).takeWhile p, p c = true := fun c hc => List.mem_takeWhile_imp hc
  have first := List.head?_dropWhile_not p (s ++ t)
  rw [h] at first
  generalize (s ++ t).takeWhile p = run at whole inside ⊢
  obtain rfl : run ++ rest = s := by
    rw [← List.append_assoc] at whole
    exact List.append_cancel_right whole
  rw [List.takeWhile_append_of_pos inside, List.dropWhile_append_of_pos inside]
  cases rest with
  | nil => exact ⟨List.append_nil run, rfl⟩
  | cons c cs =>
    have stops : ¬p c = true := by simpa using first
    rw [List.takeWhile_cons_of_neg stops, List.dropWhile_cons_of_neg stops]
    exact ⟨List.append_nil run, rfl⟩

/-- The same for a run with one more character after it. -/
theorem takeWhile_of_append_drop (ht : t ≠ []) {p : Char → Bool}
    (h : ((s ++ t).dropWhile p).drop 1 = rest ++ t) :
    s.takeWhile p = (s ++ t).takeWhile p ∧
      (s.dropWhile p).take 1 = ((s ++ t).dropWhile p).take 1 ∧ (s.dropWhile p).drop 1 = rest := by
  cases hd : (s ++ t).dropWhile p with
  | nil =>
    rw [hd] at h
    exact absurd (List.append_eq_nil_iff.1 h.symm).2 ht
  | cons c cs =>
    obtain rfl : cs = rest ++ t := by rw [hd] at h; exact h
    have cut : (s ++ t).dropWhile p = (c :: rest) ++ t := hd
    obtain ⟨htake, hdrop⟩ := takeWhile_of_append cut
    rw [htake, hdrop]
    exact ⟨rfl, rfl, rfl⟩

/-- A suffix of what is left leaves a beginning of the whole. -/
theorem exists_append_of_suffix {whole : List Char} (h : rest ++ t <:+ whole) :
    ∃ u, whole = u ++ t := by
  obtain ⟨u, rfl⟩ := h
  exact ⟨u ++ rest, (List.append_assoc u rest t).symm⟩

/-! ### Attribute values -/

theorem readQuoted_of_append (ht : t ≠ []) {quote : Char}
    (h : (readQuoted quote (s ++ t)).rest = rest ++ t) :
    readQuoted quote s = { readQuoted quote (s ++ t) with rest := rest } := by
  obtain ⟨htake, hquote, hdrop⟩ := takeWhile_of_append_drop ht h
  simp only [readQuoted, htake, hquote, hdrop]

theorem endsBareValue_cons {c : Char} {cs : List Char} :
    endsBareValue (c :: cs) = true ↔
      (c = '/' ∧ cs.head? = some '>') ∨ Ascii.isBlank c = true ∨ c = '>' := by
  unfold endsBareValue
  split
  · next heq => cases heq
  · next heq =>
    obtain ⟨rfl, rfl⟩ := List.cons.inj heq
    simp
  · next hne heq =>
    obtain ⟨rfl, rfl⟩ := List.cons.inj heq
    have notSlash : ¬(c = '/' ∧ cs.head? = some '>') := by
      rintro ⟨rfl, hhead⟩
      obtain ⟨ds, rfl⟩ := List.head?_eq_some_iff.1 hhead
      exact hne ds rfl rfl
    simp [notSlash]

theorem readBare_of_append (ht : t ≠ []) (h : (readBare (s ++ t)).rest = rest ++ t)
    (hs : rest = ['/'] → t.head? ≠ some '>') :
    readBare s = { readBare (s ++ t) with rest := rest } := by
  have more {u : List Char} (hu : u ≠ []) (hstop : endsBareValue u = true) :
      endsBareValue (u ++ t) = true := by
    obtain ⟨c, cs, rfl⟩ := List.exists_cons_of_ne_nil hu
    rw [List.cons_append, endsBareValue_cons]
    rcases endsBareValue_cons.1 hstop with ⟨hc, hhead⟩ | hstop
    · obtain ⟨ds, rfl⟩ := List.head?_eq_some_iff.1 hhead
      exact .inl ⟨hc, rfl⟩
    · exact .inr hstop
  have stops : endsBareValue (rest ++ t) = true := by
    rw [← h]
    refine Text.stop_breakWhere (s ++ t) fun hnil => ht ?_
    exact (List.append_eq_nil_iff.1 (h.symm.trans hnil)).2
  have here : rest = [] ∨ endsBareValue rest = true := by
    cases rest with
    | nil => exact .inl rfl
    | cons c cs =>
      refine .inr (endsBareValue_cons.2 ?_)
      rcases endsBareValue_cons.1 stops with ⟨hc, hhead⟩ | hstop
      · cases cs with
        | nil => exact absurd hhead (hs (by rw [hc]))
        | cons d ds => exact .inl ⟨hc, hhead⟩
      · exact .inr hstop
  simp only [readBare] at h ⊢
  have cut : Text.breakWhere endsBareValue (s ++ t) =
      ((Text.breakWhere endsBareValue (s ++ t)).1, rest ++ t) := by rw [← h]
  rw [Text.breakWhere_of_append cut (fun _ hu hstop => more hu hstop) here]

theorem readValue_of_ne {c : Char} (h : c ≠ '"') (h' : c ≠ '\x27') (cs : List Char) :
    readValue (c :: cs) = readBare (c :: cs) := by
  unfold readValue
  split
  · next heq => exact absurd (List.cons.inj heq).1 h
  · next heq => exact absurd (List.cons.inj heq).1 h'
  · rfl

theorem length_readQuoted_rest_le (quote : Char) (s : List Char) :
    (readQuoted quote s).rest.length ≤ s.length := by
  have whole := congrArg List.length (readQuoted_append quote s)
  rw [List.length_append] at whole
  omega

/-- A value between quotes takes its first quote at least. -/
theorem readValue_eq_readBare (h : (readValue s).rest = rest ++ s) : readValue s = readBare s := by
  have short (quote : Char) (cs : List Char) :
      (readQuoted quote cs).rest ≠ rest ++ quote :: cs := by
    intro heq
    have length := congrArg List.length heq
    have := length_readQuoted_rest_le quote cs
    rw [List.length_append, List.length_cons] at length
    omega
  unfold readValue at h ⊢
  split at h
  · exact absurd h (short _ _)
  · exact absurd h (short _ _)
  · rfl

theorem readValue_of_append (ht : t ≠ []) (h : (readValue (s ++ t)).rest = rest ++ t)
    (hs : rest = ['/'] → t.head? ≠ some '>') :
    readValue s = { readValue (s ++ t) with rest := rest } := by
  cases s with
  | nil =>
    have bare : readValue ([] ++ t) = readBare ([] ++ t) := readValue_eq_readBare h
    rw [bare] at h ⊢
    exact readBare_of_append ht h hs
  | cons c cs =>
    by_cases hdouble : c = '"'
    · obtain rfl := hdouble
      exact congrArg (fun q : Reading String => { q with source := '"' :: q.source })
        (readQuoted_of_append ht h)
    by_cases hsingle : c = '\x27'
    · obtain rfl := hsingle
      exact congrArg (fun q : Reading String => { q with source := '\x27' :: q.source })
        (readQuoted_of_append ht h)
    rw [List.cons_append, readValue_of_ne hdouble hsingle] at h ⊢
    rw [readValue_of_ne hdouble hsingle]
    exact readBare_of_append ht h hs

/-! ### Attributes -/

/-- A text that gives no value to a name gives none if it is cut short. -/
theorem readGiven?_none_of_append (h : readGiven? (s ++ t) = none) : readGiven? s = none := by
  unfold readGiven? at h ⊢
  split
  · next u hu =>
    have more : (s ++ t).dropWhile Ascii.isBlank = '=' :: (u ++ t) := by
      rw [List.dropWhile_append, hu]
      rfl
    rw [more] at h
    cases h
  · rfl

theorem readGiven?_of_append (ht : t ≠ []) {given : Reading String}
    (h : readGiven? (s ++ t) = some given) (hr : given.rest = rest ++ t)
    (hs : rest = ['/'] → t.head? ≠ some '>') :
    readGiven? s = some { given with rest := rest } := by
  unfold readGiven? at h
  split at h
  · next u hu =>
    obtain rfl := Option.some.inj h
    have value := readValue_append (u.dropWhile Ascii.isBlank)
    rw [hr] at value
    obtain ⟨v, rfl⟩ : ∃ v, u = v ++ t :=
      exists_append_of_suffix ((List.suffix_append _ _).trans
        (value ▸ List.dropWhile_suffix Ascii.isBlank))
    rw [← List.append_assoc] at value
    have cut : (s ++ t).dropWhile Ascii.isBlank = ('=' :: v) ++ t := hu
    obtain ⟨htake, hdrop⟩ := takeWhile_of_append cut
    obtain ⟨htake', hdrop'⟩ := takeWhile_of_append value.symm
    have read := readValue_of_append ht (value ▸ hr) hs
    unfold readGiven?
    rw [hdrop]
    simp only [htake, htake', hdrop', read, value]
  · cases h

theorem readAttribute_of_append (ht : t ≠ []) (h : (readAttribute (s ++ t)).rest = rest ++ t)
    (hs : rest = ['/'] → t.head? ≠ some '>') :
    readAttribute s = { readAttribute (s ++ t) with rest := rest } := by
  simp only [readAttribute] at h ⊢
  generalize hafter : (s ++ t).dropWhile isNameChar = after at h
  cases hgiven : readGiven? after with
  | none =>
    rw [hgiven] at h
    obtain rfl : after = rest ++ t := h
    obtain ⟨htake, hdrop⟩ := takeWhile_of_append hafter
    rw [htake, hdrop, readGiven?_none_of_append hgiven]
  | some given =>
    rw [hgiven] at h
    have whole := readGiven?_append hgiven
    rw [show given.rest = rest ++ t from h, ← List.append_assoc] at whole
    rw [← whole] at hafter hgiven
    obtain ⟨htake, hdrop⟩ := takeWhile_of_append hafter
    rw [htake, hdrop, readGiven?_of_append ht hgiven h hs]

/-! ### The inside of a start tag -/

/-- A slash that is not before `>` adds nothing to a start tag. -/
theorem readPart_slash {cs : List Char} (h : cs.head? ≠ some '>') :
    readPart '/' cs = ⟨.filler, ['/'], cs⟩ := by
  have notClose : '/' ≠ '>' := by decide
  unfold readPart
  rw [if_neg notClose, if_pos rfl]
  split
  · exact absurd rfl h
  · rfl

theorem readPart_slash_of_append {cs : List Char} (h : (readPart '/' (cs ++ t)).rest = rest ++ t) :
    readPart '/' cs = { readPart '/' (cs ++ t) with rest := rest } := by
  by_cases hclose : (cs ++ t).head? = some '>'
  · cases cs with
    | nil =>
      obtain ⟨after, rfl⟩ := List.head?_eq_some_iff.1 hclose
      have length := congrArg List.length (show after = rest ++ '>' :: after from h)
      rw [List.length_append, List.length_cons] at length
      omega
    | cons d ds =>
      obtain rfl : d = '>' := Option.some.inj hclose
      obtain rfl : ds = rest := List.append_cancel_right h
      rfl
  · have short : cs.head? ≠ some '>' := by
      intro hhead
      obtain ⟨after, rfl⟩ := List.head?_eq_some_iff.1 hhead
      exact hclose rfl
    rw [readPart_slash hclose] at h ⊢
    obtain rfl : cs = rest := List.append_cancel_right h
    rw [readPart_slash short]

/-- A part of a start tag. If it is not the last one, a `/>` after it may not be cut in two. -/
theorem readPart_of_append {c : Char} {cs : List Char}
    (h : (readPart c (cs ++ t)).rest = rest ++ t)
    (hs : (∀ bySlash, (readPart c (cs ++ t)).value ≠ .close bySlash) → rest = ['/'] →
      t.head? ≠ some '>') :
    readPart c cs = { readPart c (cs ++ t) with rest := rest } := by
  by_cases ht : t = []
  · obtain rfl := ht
    rw [List.append_nil, List.append_nil] at h
    rw [List.append_nil, ← h]
  by_cases hslash : c = '/'
  · obtain rfl := hslash
    exact readPart_slash_of_append h
  unfold readPart at h hs ⊢
  rw [if_neg hslash] at h hs ⊢
  split_ifs at h hs ⊢ with hclose hname
  · obtain rfl : cs = rest := List.append_cancel_right h
    rfl
  · refine readAttribute_of_append ht h (hs fun bySlash hvalue => ?_)
    simp only [readAttribute] at hvalue
    split at hvalue <;> cases hvalue
  · obtain rfl : cs = rest := List.append_cancel_right h
    rfl

/-- Where a start tag ends before `t`, the `>` at the start of `t` does not make an end of it. -/
theorem head?_ne_of_readBody_slash (h : (readBody ('/' :: t)).rest = rest ++ t) :
    t.head? ≠ some '>' := by
  intro hhead
  obtain ⟨after, rfl⟩ := List.head?_eq_some_iff.1 hhead
  have closes : (readPart '/' ('>' :: after)).value = .close true := rfl
  rw [readBody_of_close closes] at h
  have length := congrArg List.length (show after = rest ++ '>' :: after from h)
  rw [List.length_append, List.length_cons] at length
  omega

/-- The inside of a start tag that is closed. -/
theorem readBody_of_append (ht : t ≠ []) (h : (readBody (s ++ t)).rest = rest ++ t) :
    readBody s = { readBody (s ++ t) with rest := rest } := by
  generalize hn : s.length = n
  induction n using Nat.strong_induction_on generalizing s with | _ n ih => ?_
  subst hn
  cases s with
  | nil =>
    obtain ⟨c, cs, rfl⟩ := List.exists_cons_of_ne_nil ht
    have short := length_readBody_rest_lt c cs
    rw [show (readBody (c :: cs)).rest = rest ++ c :: cs from h, List.length_append] at short
    omega
  | cons c cs =>
    rw [List.cons_append] at h ⊢
    by_cases hclose : ∃ bySlash, (readPart c (cs ++ t)).value = .close bySlash
    · obtain ⟨bySlash, hclose⟩ := hclose
      rw [readBody_of_close hclose] at h ⊢
      have read := readPart_of_append h fun hopen => absurd hclose (hopen bySlash)
      rw [readBody_of_close (by rw [read, hclose]), read]
    · have hopen := not_exists.1 hclose
      rw [readBody_of_not_close hopen] at h ⊢
      obtain ⟨inside, hinside⟩ : ∃ inside, (readPart c (cs ++ t)).rest = inside ++ t :=
        exists_append_of_suffix ⟨_, h ▸ readBody_append (readPart c (cs ++ t)).rest⟩
      rw [hinside] at h ⊢
      -- A slash alone before `t` is read next, and the tag does not end with it.
      have read := readPart_of_append hinside fun _ hslash => by
        rw [hslash] at h
        exact head?_ne_of_readBody_slash h
      have shorter : inside.length < (c :: cs).length := by
        have short := length_readPart_rest_lt c cs
        rwa [read] at short
      have later := ih inside.length shorter h rfl
      rw [readBody_of_not_close (by rwa [read]), read]
      simp only [later]

/-! ### Steps -/

theorem Step.Reads.suffix {step : Step} (h : step.Reads s) : step.rest <:+ s := ⟨_, h⟩

theorem lexDeclaration_of_append (ht : t ≠ []) {opening : List Char} {make : List Char → Token}
    (h : (lexDeclaration opening make (s ++ t)).rest = rest ++ t) :
    lexDeclaration opening make s = ⟨(lexDeclaration opening make (s ++ t)).lexemes, rest⟩ := by
  obtain ⟨htake, hclose, hdrop⟩ := takeWhile_of_append_drop ht h
  simp only [lexDeclaration, htake, hclose, hdrop]

theorem endsComment_iff : endsComment s = true ↔ ∃ after, s = '-' :: '-' :: '>' :: after := by
  unfold endsComment
  split
  · simp
  · next hne => simpa using hne

theorem lexComment_of_append (ht : t ≠ []) (h : (lexComment (s ++ t)).rest = rest ++ t) :
    lexComment s = ⟨(lexComment (s ++ t)).lexemes, rest⟩ := by
  simp only [lexComment] at h ⊢
  generalize hcut : Text.breakWhere endsComment (s ++ t) = parts at h ⊢
  obtain ⟨body, after⟩ := parts
  have some : after ≠ [] := by
    rintro rfl
    exact ht (List.append_eq_nil_iff.1 h.symm).2
  obtain ⟨_, rfl⟩ : ∃ more, after = '-' :: '-' :: '>' :: more := by
    have left : (Text.breakWhere endsComment (s ++ t)).2 ≠ [] := by rwa [hcut]
    have stops := Text.stop_breakWhere (s ++ t) left
    rw [hcut] at stops
    exact endsComment_iff.1 stops
  obtain rfl := h
  have more (u : List Char) (_ : u ≠ []) (hstop : endsComment u = true) :
      endsComment (u ++ t) = true := by
    obtain ⟨after, rfl⟩ := endsComment_iff.1 hstop
    rfl
  have cut : Text.breakWhere endsComment s = (body, '-' :: '-' :: '>' :: rest) :=
    Text.breakWhere_of_append hcut more (.inr rfl)
  rw [cut]
  rfl

theorem lexEndTag_of_append (ht : t ≠ []) (h : (lexEndTag (s ++ t)).rest = rest ++ t) :
    lexEndTag s = ⟨(lexEndTag (s ++ t)).lexemes, rest⟩ := by
  simp only [lexEndTag] at h ⊢
  generalize hafter : (s ++ t).dropWhile isNameChar = after at h ⊢
  obtain ⟨u, rfl⟩ : ∃ u, after = u ++ t := by
    have left : rest ++ t <:+ after := by
      rw [← h]
      exact (List.drop_suffix 1 _).trans (List.dropWhile_suffix _)
    exact exists_append_of_suffix left
  obtain ⟨htake, hdrop⟩ := takeWhile_of_append hafter
  rw [htake, hdrop, lexDeclaration_of_append ht h]

theorem closeTag?_append_right {name : String} {source after : List Char}
    (h : closeTag? name s = some (source, after)) (t : List Char) :
    closeTag? name (s ++ t) = some (source, after ++ t) := by
  obtain ⟨spelled, blanks, hl, hb, hsource, rfl⟩ := closeTag?_eq_some_iff.1 h
  exact closeTag?_eq_some_iff.2 ⟨spelled, blanks, hl, hb, hsource, List.append_assoc _ _ _⟩

theorem closeTag?_of_append {name : String} {source : List Char}
    (h : closeTag? name (source ++ rest ++ t) = some (source, rest ++ t)) :
    closeTag? name (source ++ rest) = some (source, rest) := by
  obtain ⟨spelled, blanks, hl, hb, hsource, -⟩ := closeTag?_eq_some_iff.1 h
  exact closeTag?_eq_some_iff.2 ⟨spelled, blanks, hl, hb, hsource, rfl⟩

theorem lexRawText_of_append (ht : t ≠ []) {name : String}
    (h : (lexRawText name (s ++ t)).rest = rest ++ t) :
    lexRawText name s = ⟨(lexRawText name (s ++ t)).lexemes, rest⟩ := by
  simp only [lexRawText] at h ⊢
  generalize hcut : breakRawText name (s ++ t) = parts at h ⊢
  obtain ⟨body, after⟩ := parts
  cases hclose : closeTag? name after with
  | none =>
    rw [hclose] at h
    have some : after ≠ [] := fun hnil => ht (List.append_eq_nil_iff.1 (h.symm.trans hnil)).2
    have left : (breakRawText name (s ++ t)).2 ≠ [] := by rwa [hcut]
    have stops := closeTag?_breakRawText left
    rw [hcut, hclose] at stops
    cases stops
  | some close =>
    obtain ⟨source, _⟩ := close
    rw [hclose] at h
    obtain rfl := h
    have whole := closeTag?_append hclose
    rw [← List.append_assoc] at whole
    obtain rfl := whole.symm
    have found := closeTag?_of_append hclose
    have more (u : List Char) (_ : u ≠ []) (hstop : (closeTag? name u).isSome = true) :
        (closeTag? name (u ++ t)).isSome = true := by
      obtain ⟨⟨source, after⟩, hsome⟩ := Option.isSome_iff_exists.1 hstop
      rw [closeTag?_append_right hsome]
      rfl
    have cut : breakRawText name s = (body, source ++ rest) :=
      Text.breakWhere_of_append hcut more (.inr (by rw [found]; rfl))
    rw [cut]
    simp only [found]

theorem lexTagBody_of_append (ht : t ≠ []) {name : String} {opening : List Char}
    (h : (lexTagBody name opening (s ++ t)).rest = rest ++ t) :
    lexTagBody name opening s = ⟨(lexTagBody name opening (s ++ t)).lexemes, rest⟩ := by
  simp only [lexTagBody] at h ⊢
  split at h
  · next hraw =>
    have left : (lexRawText name (readBody (s ++ t)).rest).rest = rest ++ t := h
    obtain ⟨u, hu⟩ : ∃ u, (readBody (s ++ t)).rest = u ++ t :=
      exists_append_of_suffix (left ▸ (lexRawText_reads name _).suffix)
    rw [hu] at h
    rw [readBody_of_append ht hu, if_pos hraw, if_pos hraw, hu, lexRawText_of_append ht h]
  · next hraw => rw [readBody_of_append ht h, if_neg hraw, if_neg hraw]

theorem lexStartTag_of_append (ht : t ≠ []) (h : (lexStartTag (s ++ t)).rest = rest ++ t) :
    lexStartTag s = ⟨(lexStartTag (s ++ t)).lexemes, rest⟩ := by
  simp only [lexStartTag] at h ⊢
  generalize hafter : (s ++ t).dropWhile isNameChar = after at h ⊢
  obtain ⟨u, rfl⟩ : ∃ u, after = u ++ t := by
    rw [rest_lexTagBody] at h
    exact exists_append_of_suffix (h ▸ (lexTagBody_reads _ [] after).suffix)
  obtain ⟨htake, hdrop⟩ := takeWhile_of_append hafter
  rw [htake, hdrop, lexTagBody_of_append ht h]

theorem opensMarkup_append (h : opensMarkup s = true) (t : List Char) :
    opensMarkup (s ++ t) = true := by
  unfold opensMarkup at h
  split at h
  · exact h
  · cases h

theorem lexText_of_append {c : Char} {cs : List Char}
    (h : (lexText c (cs ++ t)).rest = rest ++ t) (hr : endsText (rest ++ t) → endsText rest) :
    lexText c cs = ⟨(lexText c (cs ++ t)).lexemes, rest⟩ := by
  have stops : endsText rest := hr (h ▸ endsText_lexText c (cs ++ t))
  simp only [lexText] at h ⊢
  have cut : Text.breakWhere opensMarkup (cs ++ t) =
      ((Text.breakWhere opensMarkup (cs ++ t)).1, rest ++ t) := by rw [← h]
  rw [Text.breakWhere_of_append cut (fun _ _ hstop => opensMarkup_append hstop t)
    (by simpa [endsText] using stops)]

theorem next_declaration (h : ∀ after, s ≠ '-' :: '-' :: after) :
    next '<' ('!' :: s) =
      if (Ascii.matchWord? "doctype".toList s).isSome then lexDeclaration ['<', '!'] doctype s
      else lexDeclaration ['<', '!'] bogusComment s := by
  have opens : opensMarkup ('<' :: '!' :: s) = true := rfl
  unfold next
  rw [if_pos opens]
  split
  · next after heq => exact absurd (List.cons.inj heq).2 (h after)
  · next heq => rw [(List.cons.inj heq).2]
  · next heq => cases heq
  · next heq => cases heq
  · next hbang _ _ => exact absurd rfl (hbang s)

theorem next_slash (s : List Char) :
    next '<' ('/' :: s) =
      if startsWithLetter s then lexEndTag s else lexDeclaration ['<', '/'] bogusComment s := rfl

/-- Whether a declaration is a document type declaration is known before its `>`. -/
theorem isSome_matchWord?_of_append {make : List Char → Token}
    (h : (lexDeclaration ['<', '!'] make (s ++ t)).rest = rest ++ t) :
    (Ascii.matchWord? "doctype".toList s).isSome =
      (Ascii.matchWord? "doctype".toList (s ++ t)).isSome := by
  rw [Bool.eq_iff_iff, Option.isSome_iff_exists, Option.isSome_iff_exists]
  constructor
  · rintro ⟨⟨word, after⟩, hm⟩
    have lower := Ascii.lower_of_matchWord? hm
    obtain rfl := Ascii.matchWord?_append hm
    rw [List.append_assoc, ← lower]
    exact ⟨_, Ascii.matchWord?_spelled word (after ++ t)⟩
  · rintro ⟨⟨word, after⟩, hm⟩
    have lower := Ascii.lower_of_matchWord? hm
    have whole := Ascii.matchWord?_append hm
    have inside : ∀ c ∈ word, (c != '>') = true := by
      intro c hc
      refine bne_iff_ne.2 ?_
      rintro rfl
      have small : '>' ∈ "doctype".toList := lower ▸ List.mem_map_of_mem (f := Char.toLower) hc
      revert small
      decide
    obtain ⟨u, rfl⟩ : ∃ u, after = u ++ t := by
      have left : rest ++ t <:+ after := by
        rw [← h, ← whole, lexDeclaration, List.dropWhile_append_of_pos inside]
        exact (List.drop_suffix 1 _).trans (List.dropWhile_suffix _)
      exact exists_append_of_suffix left
    obtain rfl : word ++ u = s := by
      rw [← List.append_assoc] at whole
      exact List.append_cancel_right whole
    rw [← lower]
    exact ⟨_, Ascii.matchWord?_spelled word u⟩

theorem lexDeclaration_rest_suffix (opening : List Char) (make : List Char → Token)
    (s : List Char) : (lexDeclaration opening make s).rest <:+ s :=
  (List.drop_suffix 1 _).trans (List.dropWhile_suffix _)

theorem lexComment_rest_suffix (s : List Char) : (lexComment s).rest <:+ s :=
  (List.drop_suffix 3 _).trans ⟨_, Text.breakWhere_append s⟩

theorem lexEndTag_rest_suffix (s : List Char) :
    (lexEndTag s).rest <:+ s.dropWhile isNameChar :=
  lexDeclaration_rest_suffix _ _ _

theorem lexStartTag_rest_suffix (s : List Char) :
    (lexStartTag s).rest <:+ s.dropWhile isNameChar := by
  rw [lexStartTag, rest_lexTagBody]
  exact (lexTagBody_reads _ [] _).suffix

/-- What opens markup is two characters at least. -/
theorem next_rest_suffix {c : Char} {cs : List Char} (h : opensMarkup ('<' :: c :: cs) = true) :
    (next '<' (c :: cs)).rest <:+ cs := by
  unfold next
  rw [if_pos h]
  split
  · next s heq =>
    obtain ⟨-, rfl⟩ := List.cons.inj heq
    exact (lexComment_rest_suffix s).trans (List.suffix_append ['-', '-'] s)
  · next s _ heq =>
    obtain ⟨-, rfl⟩ := List.cons.inj heq
    split <;> exact lexDeclaration_rest_suffix _ _ _
  · next s heq =>
    obtain ⟨-, rfl⟩ := List.cons.inj heq
    exact lexDeclaration_rest_suffix _ _ _
  · next s heq =>
    obtain ⟨-, rfl⟩ := List.cons.inj heq
    split
    · exact (lexEndTag_rest_suffix _).trans (List.dropWhile_suffix _)
    · exact lexDeclaration_rest_suffix _ _ _
  · next hbang hquery hslash =>
    have letter : c.isAlpha = true := startsWithLetter_of_opensMarkup h hbang hquery hslash
    have left := lexStartTag_rest_suffix (c :: cs)
    rw [List.dropWhile_cons_of_pos (isNameChar_of_isAlpha letter)] at left
    exact left.trans (List.dropWhile_suffix _)

/-- What is left is not all that stood there, if one character more was read. -/
theorem ne_append_of_suffix {c : Char} {cs left : List Char} (h : left <:+ cs) :
    left ≠ rest ++ c :: cs := by
  rintro rfl
  have length := h.length_le
  rw [List.length_append, List.length_cons] at length
  omega

theorem next_bang_of_append (ht : t ≠ []) (h : (next '<' ('!' :: (s ++ t))).rest = rest ++ t) :
    next '<' ('!' :: s) = ⟨(next '<' ('!' :: (s ++ t))).lexemes, rest⟩ := by
  by_cases hcomment : ∃ after, s ++ t = '-' :: '-' :: after
  · obtain ⟨after, hafter⟩ := hcomment
    rw [hafter] at h ⊢
    obtain ⟨u, rfl⟩ : ∃ u, after = u ++ t :=
      exists_append_of_suffix (h ▸ lexComment_rest_suffix after)
    obtain rfl : s = '-' :: '-' :: u := List.append_cancel_right hafter
    exact lexComment_of_append ht h
  · have plain := not_exists.1 hcomment
    have short (after : List Char) : s ≠ '-' :: '-' :: after := by
      rintro rfl
      exact plain (after ++ t) rfl
    rw [next_declaration plain] at h ⊢
    rw [next_declaration short]
    split at h
    · next hword =>
      rw [isSome_matchWord?_of_append h, if_pos hword, if_pos hword,
        lexDeclaration_of_append ht h]
    · next hword =>
      rw [isSome_matchWord?_of_append h, if_neg hword, if_neg hword,
        lexDeclaration_of_append ht h]

theorem next_slash_of_append (ht : t ≠ []) (h : (next '<' ('/' :: (s ++ t))).rest = rest ++ t) :
    next '<' ('/' :: s) = ⟨(next '<' ('/' :: (s ++ t))).lexemes, rest⟩ := by
  rw [next_slash] at h ⊢
  rw [next_slash]
  split at h
  · next hletter =>
    have short : startsWithLetter s = true := by
      cases s with
      | nil =>
        obtain ⟨c, cs, rfl⟩ := List.exists_cons_of_ne_nil ht
        have left := lexEndTag_rest_suffix (c :: cs)
        rw [List.dropWhile_cons_of_pos (isNameChar_of_isAlpha hletter)] at left
        exact absurd h (ne_append_of_suffix (left.trans (List.dropWhile_suffix _)))
      | cons c cs => exact hletter
    rw [if_pos hletter, if_pos short, lexEndTag_of_append ht h]
  · next hletter =>
    have short : ¬startsWithLetter s = true := by
      cases s with
      | nil => exact Bool.false_ne_true
      | cons c cs => exact hletter
    rw [if_neg hletter, if_neg short, lexDeclaration_of_append ht h]

/-- One step of the lexer. If it is ordinary text, markup may not open after it only because of
`t`. -/
theorem next_of_append (ht : t ≠ []) {c : Char} {cs : List Char}
    (h : (next c (cs ++ t)).rest = rest ++ t) (hr : endsText (rest ++ t) → endsText rest) :
    next c cs = ⟨(next c (cs ++ t)).lexemes, rest⟩ := by
  cases hopens : opensMarkup (c :: (cs ++ t)) with
  | false =>
    have closed : opensMarkup (c :: cs) = false := by
      rw [← Bool.not_eq_true] at hopens ⊢
      exact fun hshort => hopens (opensMarkup_append hshort t)
    rw [next_of_not_opensMarkup hopens] at h ⊢
    rw [next_of_not_opensMarkup closed]
    exact lexText_of_append h hr
  | true =>
    obtain rfl := opensMarkup_head hopens
    cases cs with
    | nil =>
      obtain ⟨d, ds, rfl⟩ := List.exists_cons_of_ne_nil ht
      exact absurd h (ne_append_of_suffix (next_rest_suffix hopens))
    | cons d ds =>
      rw [List.cons_append] at h hopens ⊢
      by_cases hbang : d = '!'
      · obtain rfl := hbang
        exact next_bang_of_append ht h
      by_cases hquery : d = '?'
      · obtain rfl := hquery
        exact lexDeclaration_of_append ht h
      by_cases hslash : d = '/'
      · obtain rfl := hslash
        exact next_slash_of_append ht h
      have letter : d.isAlpha = true := by
        simpa [opensMarkup, hbang, hquery, hslash] using hopens
      rw [next_of_isAlpha letter] at h ⊢
      rw [next_of_isAlpha letter]
      exact lexStartTag_of_append ht h

end MarkupTree
