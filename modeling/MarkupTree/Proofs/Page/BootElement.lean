import MarkupTree.Page.BootTag

/-!
# The boot element of a template

What `Page.findBootTag` finds, in terms of the tokens of a template alone. A boot tag is a start tag
of a script that has the boot type, letter case and white space around the type aside. The boot
element goes on from the first boot tag to its end tag: it is the tag alone if that closes itself,
and it takes all the rest of the template if there is no end tag.

## Main definitions

* `Page.IsBootTag` : the boot tags.
* `Page.IsBootElement` : a boot tag with what belongs to it, and what follows.
* `Page.IsFirstBoot` : the first boot element of a template.

## Main results

* `Page.findBootTag_eq_none_iff` : where there is no boot tag.
* `Page.findBootTag_eq_some_iff` : the first boot element.
-/

namespace MarkupTree.Page

variable {ls before inside after marked : List Lexeme} {carried : List Attribute} {token : Token}

/-! ### Boot tags -/

/-- Some type among attributes is that of a boot tag, letter case and white space around it
aside. -/
def HaveBootType (attributes : List Attribute) : Prop :=
  ∃ a ∈ attributes, a.name = "type" ∧ ∃ value, a.value = some value ∧
    Ascii.lower (White.trim value.toList) = "blazor-boot".toList

/-- A start tag that marks the place of the loader. -/
def IsBootTag (token : Token) : Prop :=
  ∃ attributes ending, token = .startTag "script" attributes ending ∧ HaveBootType attributes

theorem hasBootType_iff {attributes : List Attribute} :
    hasBootType attributes ↔ HaveBootType attributes := by
  have small : Ascii.lower bootType.toList = "blazor-boot".toList := rfl
  simp only [hasBootType, HaveBootType, List.any_eq_true, Bool.and_eq_true, beq_iff_eq,
    Option.any_eq_true, Ascii.equalFold_iff, White.toList_trimmed, small]

theorem bootAttributes?_eq_some_iff :
    bootAttributes? token = some carried ↔
      (∃ ending, token = .startTag "script" carried ending) ∧ HaveBootType carried := by
  cases token with
  | startTag name attributes ending =>
    by_cases h : name = "script" ∧ hasBootType attributes
    · obtain ⟨rfl, hboot⟩ := h
      have found : bootAttributes? (.startTag "script" attributes ending) = some attributes :=
        if_pos ⟨rfl, hboot⟩
      rw [found, Option.some_inj]
      constructor
      · rintro rfl
        exact ⟨⟨ending, rfl⟩, hasBootType_iff.1 hboot⟩
      · rintro ⟨⟨_, htoken⟩, -⟩
        injection htoken
    · rw [bootAttributes?, if_neg h]
      refine ⟨nofun, ?_⟩
      rintro ⟨⟨_, htoken⟩, hboot⟩
      injection htoken with hname hattributes
      exact absurd ⟨hname, hattributes ▸ hasBootType_iff.2 hboot⟩ h
  | _ => exact ⟨nofun, fun h => nomatch h.1⟩

theorem isSome_bootAttributes?_iff : (bootAttributes? token).isSome ↔ IsBootTag token := by
  rw [Option.isSome_iff_exists]
  simp only [bootAttributes?_eq_some_iff, IsBootTag]
  constructor
  · rintro ⟨carried, ⟨ending, rfl⟩, hboot⟩
    exact ⟨carried, ending, rfl, hboot⟩
  · rintro ⟨carried, ending, rfl, hboot⟩
    exact ⟨carried, ⟨ending, rfl⟩, hboot⟩

instance : DecidablePred IsBootTag := fun _ => decidable_of_iff _ isSome_bootAttributes?_iff

/-! ### The end of the element -/

/-- A boot tag with attributes `carried` and what belongs to it, before what follows. -/
inductive IsBootElement (carried : List Attribute) : (marked after : List Lexeme) → Prop
  | alone {source : List Char} {after : List Lexeme} :
      IsBootElement carried [⟨.startTag "script" carried .selfClosing, source⟩] after
  | closed {ending : TagEnd} {source close : List Char} {inside after : List Lexeme}
      (he : ending ≠ .selfClosing) (hi : ∀ l ∈ inside, l.token ≠ .endTag "script") :
      IsBootElement carried (⟨.startTag "script" carried ending, source⟩ ::
        (inside ++ [⟨.endTag "script", close⟩])) after
  | unclosed {ending : TagEnd} {source : List Char} {inside : List Lexeme}
      (he : ending ≠ .selfClosing) (hi : ∀ l ∈ inside, l.token ≠ .endTag "script") :
      IsBootElement carried (⟨.startTag "script" carried ending, source⟩ :: inside) []

/-- The element starts with the tag. -/
theorem IsBootElement.exists_tag (h : IsBootElement carried marked after) :
    ∃ ending source others, marked = ⟨.startTag "script" carried ending, source⟩ :: others := by
  cases h with
  | alone => exact ⟨_, _, _, rfl⟩
  | closed => exact ⟨_, _, _, rfl⟩
  | unclosed => exact ⟨_, _, _, rfl⟩

theorem cutAfterEnd_of_close (hi : ∀ l ∈ inside, l.token ≠ .endTag "script")
    (close : List Char) (after : List Lexeme) :
    cutAfterEnd (inside ++ ⟨.endTag "script", close⟩ :: after) =
      (inside ++ [⟨.endTag "script", close⟩], after) := by
  induction inside with
  | nil => rfl
  | cons l ls ih =>
    obtain ⟨first, others⟩ := List.forall_mem_cons.1 hi
    rw [List.cons_append, cutAfterEnd, if_neg first, ih others]
    rfl

theorem cutAfterEnd_of_not_close (hi : ∀ l ∈ ls, l.token ≠ .endTag "script") :
    cutAfterEnd ls = (ls, []) := by
  induction ls with
  | nil => rfl
  | cons l ls ih =>
    obtain ⟨first, others⟩ := List.forall_mem_cons.1 hi
    rw [cutAfterEnd, if_neg first, ih others]

/-- The first end tag of a script, if there is one. -/
theorem exists_close (ls : List Lexeme) :
    (∃ inside close after, ls = inside ++ ⟨.endTag "script", close⟩ :: after ∧
      ∀ l ∈ inside, l.token ≠ .endTag "script") ∨ ∀ l ∈ ls, l.token ≠ .endTag "script" := by
  induction ls with
  | nil => exact .inr nofun
  | cons l ls ih =>
    by_cases hl : l.token = .endTag "script"
    · obtain ⟨_, close⟩ := l
      obtain rfl := hl
      exact .inl ⟨[], close, ls, rfl, nofun⟩
    · rcases ih with ⟨inside, close, after, rfl, hi⟩ | hi
      · exact .inl ⟨l :: inside, close, after, rfl, List.forall_mem_cons.2 ⟨hl, hi⟩⟩
      · exact .inr (List.forall_mem_cons.2 ⟨hl, hi⟩)

/-! ### The first element -/

theorem findBootTag_cons_of_not {l : Lexeme} (h : ¬IsBootTag l.token) :
    findBootTag (l :: ls) =
      (findBootTag ls).map fun tag => { tag with before := l :: tag.before } := by
  have none : bootAttributes? l.token = none := by
    rw [← Option.not_isSome_iff_eq_none, isSome_bootAttributes?_iff]
    exact h
  rw [findBootTag, none]

theorem findBootTag_cons_of_boot {ending : TagEnd} {source : List Char}
    (h : HaveBootType carried) :
    findBootTag (⟨.startTag "script" carried ending, source⟩ :: ls) =
      if ending = .selfClosing then
        some ⟨[], carried, [⟨.startTag "script" carried ending, source⟩], ls⟩
      else
        some ⟨[], carried, ⟨.startTag "script" carried ending, source⟩ :: (cutAfterEnd ls).1,
          (cutAfterEnd ls).2⟩ := by
  have found : bootAttributes? (.startTag "script" carried ending) = some carried :=
    bootAttributes?_eq_some_iff.2 ⟨⟨ending, rfl⟩, h⟩
  rw [findBootTag, found]
  cases ending <;> rfl

/-- Where there is no boot tag. -/
theorem findBootTag_eq_none_iff : findBootTag ls = none ↔ ∀ l ∈ ls, ¬IsBootTag l.token := by
  induction ls with
  | nil => exact ⟨fun _ => nofun, fun _ => rfl⟩
  | cons l ls ih =>
    rw [List.forall_mem_cons, ← ih]
    by_cases h : IsBootTag l.token
    · obtain ⟨token, source⟩ := l
      obtain ⟨carried, ending, rfl, hboot⟩ := h
      rw [findBootTag_cons_of_boot hboot]
      refine ⟨fun hnone => ?_, fun hnot => absurd ⟨carried, ending, rfl, hboot⟩ hnot.1⟩
      split at hnone <;> cases hnone
    · rw [findBootTag_cons_of_not h, Option.map_eq_none_iff]
      exact ⟨fun hnone => ⟨h, hnone⟩, And.right⟩

/-- Where a boot tag is, its element is found. -/
theorem isBootElement_of_findBootTag {ending : TagEnd} {source : List Char} {tag : BootTag}
    (hb : HaveBootType carried)
    (h : findBootTag (⟨.startTag "script" carried ending, source⟩ :: ls) = some tag) :
    tag.before = [] ∧ tag.attributes = carried ∧
      IsBootElement tag.attributes tag.marked tag.after := by
  rw [findBootTag_cons_of_boot hb] at h
  split at h
  · next he =>
    obtain rfl := Option.some.inj h
    obtain rfl := he
    exact ⟨rfl, rfl, .alone⟩
  · next he =>
    obtain rfl := Option.some.inj h
    rcases exists_close ls with ⟨inside, close, after, rfl, hi⟩ | hi
    · rw [cutAfterEnd_of_close hi]
      exact ⟨rfl, rfl, .closed he hi⟩
    · rw [cutAfterEnd_of_not_close hi]
      exact ⟨rfl, rfl, .unclosed he hi⟩

theorem findBootTag_of_isBootElement (hb : HaveBootType carried)
    (h : IsBootElement carried marked after) :
    findBootTag (marked ++ after) = some ⟨[], carried, marked, after⟩ := by
  cases h with
  | alone =>
    rw [List.singleton_append, findBootTag_cons_of_boot hb, if_pos rfl]
  | closed he hi =>
    rw [List.cons_append, List.append_assoc, findBootTag_cons_of_boot hb, if_neg he,
      List.singleton_append, cutAfterEnd_of_close hi]
  | unclosed he hi =>
    rw [List.append_nil, findBootTag_cons_of_boot hb, if_neg he, cutAfterEnd_of_not_close hi]

/-- The first boot element among lexemes. -/
theorem findBootTag_eq_some_iff :
    findBootTag ls = some ⟨before, carried, marked, after⟩ ↔
      ls = before ++ (marked ++ after) ∧ (∀ l ∈ before, ¬IsBootTag l.token) ∧
        HaveBootType carried ∧ IsBootElement carried marked after := by
  constructor
  · intro h
    induction ls generalizing before with
    | nil => cases h
    | cons l ls ih =>
      by_cases hl : IsBootTag l.token
      · obtain ⟨token, source⟩ := l
        obtain ⟨attributes, ending, rfl, hboot⟩ := hl
        obtain ⟨rfl, rfl, element⟩ := isBootElement_of_findBootTag hboot h
        have whole := findBootTag_append h
        exact ⟨by simpa using whole.symm, nofun, hboot, element⟩
      · rw [findBootTag_cons_of_not hl] at h
        obtain ⟨tag, htag, heq⟩ := Option.map_eq_some_iff.1 h
        obtain ⟨before, _, _, _⟩ := tag
        injection heq with hbefore hattributes hmarked hafter
        subst hbefore hattributes hmarked hafter
        obtain ⟨rfl, others, rest⟩ := ih htag
        exact ⟨rfl, List.forall_mem_cons.2 ⟨hl, others⟩, rest⟩
  · rintro ⟨rfl, others, hboot, element⟩
    induction before with
    | nil => exact findBootTag_of_isBootElement hboot element
    | cons l ls ih =>
      obtain ⟨first, others⟩ := List.forall_mem_cons.1 others
      rw [List.cons_append, findBootTag_cons_of_not first, ih others]
      rfl

/-! ### In a template -/

/-- The first boot element of a template, with attributes `carried`, in its surroundings. -/
inductive IsFirstBoot (template : String) : (pre : String) → (carried : List Attribute) →
    (boot post : String) → Prop
  | intro {before marked after : List Lexeme} {carried : List Attribute}
      (h : lex template.toList = before ++ (marked ++ after))
      (hn : ∀ l ∈ before, ¬IsBootTag l.token) (hb : HaveBootType carried)
      (he : IsBootElement carried marked after) :
      IsFirstBoot template (String.ofList (sourceOf before)) carried
        (String.ofList (sourceOf marked)) (String.ofList (sourceOf after))

theorem IsFirstBoot.append {template pre boot post : String}
    (h : IsFirstBoot template pre carried boot post) : template = pre ++ boot ++ post := by
  obtain ⟨hrow, -, -, -⟩ := h
  rw [← String.ofList_append, ← String.ofList_append, List.append_assoc, ← sourceOf_append,
    ← sourceOf_append, ← hrow, lex_append, String.ofList_toList]

theorem IsFirstBoot.exists_bootTag {template pre boot post : String}
    (h : IsFirstBoot template pre carried boot post) :
    ∃ token ∈ tokens template, IsBootTag token := by
  obtain ⟨hrow, -, hboot, element⟩ := h
  obtain ⟨ending, source, others, rfl⟩ := element.exists_tag
  refine ⟨.startTag "script" carried ending, ?_, carried, ending, rfl, hboot⟩
  rw [tokens, hrow]
  simp

/-- A template has only one first boot element. -/
theorem IsFirstBoot.unique {template pre pre' boot boot' post post' : String}
    {carried' : List Attribute} (h : IsFirstBoot template pre carried boot post)
    (h' : IsFirstBoot template pre' carried' boot' post') :
    pre = pre' ∧ carried = carried' ∧ boot = boot' ∧ post = post' := by
  obtain ⟨hrow, hn, hb, he⟩ := h
  obtain ⟨hrow', hn', hb', he'⟩ := h'
  have found := findBootTag_eq_some_iff.2 ⟨hrow, hn, hb, he⟩
  have found' := findBootTag_eq_some_iff.2 ⟨hrow', hn', hb', he'⟩
  injection found.symm.trans found' with same
  injection same with hbefore hcarried hmarked hafter
  rw [hbefore, hcarried, hmarked, hafter]
  exact ⟨rfl, rfl, rfl, rfl⟩

/-- A template with a boot tag has a first boot element. -/
theorem exists_isFirstBoot {template : String} (h : ∃ token ∈ tokens template, IsBootTag token) :
    ∃ pre carried boot post, IsFirstBoot template pre carried boot post := by
  cases hfound : findBootTag (lex template.toList) with
  | none =>
    obtain ⟨token, hmem, hboot⟩ := h
    obtain ⟨l, hl, rfl⟩ := List.mem_map.1 hmem
    exact absurd hboot (findBootTag_eq_none_iff.1 hfound l hl)
  | some tag =>
    obtain ⟨before, carried, marked, after⟩ := tag
    obtain ⟨hrow, hn, hb, he⟩ := findBootTag_eq_some_iff.1 hfound
    exact ⟨_, carried, _, _, .intro hrow hn hb he⟩

end MarkupTree.Page
