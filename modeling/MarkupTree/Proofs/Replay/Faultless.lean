import MarkupTree.Proofs.Replay.CheckedStack

/-!
# Replays meet no fault

On a stack that is checked (`CheckedStack`) a replay would stop with a fault in a state that it is
not made for. It gets into none: the stack builds what the replay builds, or fails as it fails
(`CheckedStack.build_eq`). Between two children the two are in the same state, including which start
tag is pending (`CheckedStack.IsSettledFor`), and from there they agree token by token.

So it is known of every state of the stack what it looks like (`CheckedStack.faultless`). The last
entry is the root, and all others are elements with names that are read as they are written; a start
tag is pending only between two children, and only that of the innermost element. Then the next
markup node is read with this tag as its first token. And where a markup node ends inside a start
tag, the tag is that of the innermost element.

## Main definitions

* `CheckedStack.IsSettledFor` : a stack and a replay in the same state between two children.
* `CheckedStack.IsNested`, `CheckedStack.IsSettled` : what a stack looks like, always and between
  two children.

## Main results

* `CheckedStack.inStep_receiveTaken`, `CheckedStack.settles_addChild` : a stack and a replay over
  some tokens of a markup node, and over a child.
* `CheckedStack.build_eq` : the replay on the stack is the replay.
* `CheckedStack.faultless` : what holds of every state of the stack.
-/

namespace MarkupTree.CheckedStack

variable {s : CheckedStack} {b c : Builder} {e : Entry} {es : List Entry} {fs : List Frame}
  {root : List Node} {rules : TextRules} {name : String} {pending : Option String}

/-! ### Tokens of a markup node -/

theorem Mirrors.isTagName_head (h : Mirrors es fs root)
    (hn : (fs.map Frame.name).head? = some name) : isTagName name := by
  cases h with
  | root => cases hn
  | element _ _ named _ =>
    obtain rfl := Option.some.inj hn
    exact named

/-- What a replay does with the first tokens of a markup node. -/
def receiveTaken (rules : TextRules) (b : Builder) : (pending : Option String) → List Token →
    Except Halt Builder
  | none, taken => b.receiveAll rules taken
  | some _, [] => .ok b
  | some _, first :: taken => do (← b.receiveContinued rules first).receiveAll rules taken

/-- The first tokens of a markup node. If it goes on inside a start tag, then the very first is that
tag. -/
theorem inStep_receiveTaken (rules : TextRules) (h : Agrees s b)
    (hp : ∀ name ∈ pending, b.trail.names.head? = some name) {text : String}
    {taken left : List Token} (hread : tokens (textRead pending text) = taken ++ left) :
    InStep (s.receiveRun rules pending taken) (receiveTaken rules b pending taken) := by
  have named : ∀ token ∈ taken, token.HasNames ∧ token.HasEndName := fun token htoken =>
    Trail.hasNames_of_mem_tokens _ token (hread ▸ List.mem_append_left left htoken)
  cases pending with
  | none => exact inStep_receiveAll rules h named
  | some name =>
    have head := hp name rfl
    obtain ⟨attributes, ending, others, heq, -⟩ := exists_tagRestTokens name text
    cases taken with
    | nil => exact .ok h
    | cons first taken =>
      rw [textRead, tokens_resumed (h.mirrors.isTagName_head head), heq] at hread
      obtain ⟨rfl, -⟩ := List.cons.inj hread
      have counted : Agrees s.countToken b.countToken :=
        ⟨h.mirrors, h.tail, congrArg Stats.countToken h.stats⟩
      rw [receiveRun, if_pos rfl]
      exact (counted.inStep_continueTag head attributes ending).bind fun _ _ agrees =>
        inStep_receiveAll rules agrees (List.forall_mem_cons.1 named).2

/-- What a replay does with all tokens of a markup node. -/
theorem receiveTaken_tokens (hp : ∀ name ∈ pending, isTagName name) (text : String) :
    receiveTaken rules b pending (tokens (textRead pending text)) =
      b.receiveRun rules pending text := by
  cases pending with
  | none => rfl
  | some name =>
    rw [textRead, tokens_resumed (hp name rfl), Builder.receiveRun]
    cases tagRestTokens name text <;> rfl

/-! ### Where a markup node begins and ends -/

/-- A stack and a replay in the same state between two children. The start tag of the innermost
entry may be pending, if that is an element. -/
inductive IsSettledFor (b : Builder) : CheckedStack → Prop
  | intro {e : Entry} {es : List Entry} (mirrors : Mirrors (e :: es) b.frames b.root)
      (tail : e.textTail = b.textTail) (named : b.tagPending = true → b.frames ≠ []) :
      IsSettledFor b ⟨{ e with tagPending := b.tagPending } :: es, b.stats⟩

/-- An entry whose start tag is not pending, with that said. -/
theorem Mirrors.eq_top (h : Mirrors (e :: es) fs root) : { e with tagPending := false } = e := by
  obtain ⟨name?, children, textTail, _⟩ := e
  cases h with
  | root _ calm => exact congrArg _ calm.symm
  | element _ calm _ _ => exact congrArg _ calm.symm

/-- Between two children the start tag that is pending is that of an element. -/
theorem IsSettledFor.beginRun (h : IsSettledFor b s) :
    ∃ begun, s.beginRun = .ok (b.pendingName?, begun) ∧
      Agrees begun { b with tagPending := false, stats := b.stats.countRun } := by
  obtain ⟨root, frames, tail, pending, stats⟩ := b
  cases h with
  | @intro e es mirrors htail named =>
    refine ⟨⟨{ e with tagPending := false } :: es, stats.countRun⟩, ?_, ?_⟩
    · cases pending with
      | false => rfl
      | true =>
        obtain ⟨f, fs, rfl⟩ := List.exists_cons_of_ne_nil (named rfl)
        have hname : e.name? = some f.name := mirrors.name?_eq
        obtain ⟨name?, children, textTail, calm⟩ := e
        obtain rfl : name? = some f.name := hname
        rfl
    · rw [mirrors.eq_top]
      exact ⟨mirrors, by simpa using htail, rfl⟩

theorem Mirrors.withTail (h : Mirrors (e :: es) fs root) (tail : Bool) :
    Mirrors ({ e with textTail := tail } :: es) fs root := by
  cases h with
  | root hname calm => exact .root (e := { e with textTail := tail }) hname calm
  | element hname calm named below =>
    exact .element (e := { e with textTail := tail }) hname calm named below

/-- A markup node that ends inside a start tag leaves the tag of an element pending. -/
theorem Agrees.endRun (h : Agrees s b) {insideTag : Bool} (hp : b.tagPending = insideTag)
    (hn : insideTag = true → b.frames ≠ []) :
    ∃ ended, s.endRun insideTag = .ok ended ∧ IsSettledFor { b with textTail := false } ended := by
  obtain ⟨entries, stats⟩ := s
  obtain ⟨root, frames, tail, pending, _⟩ := b
  obtain ⟨mirrors, -, rfl⟩ := h
  obtain rfl : pending = _ := hp
  obtain ⟨e, es, rfl⟩ := List.exists_cons_of_ne_nil mirrors.ne_nil
  have calmed := mirrors.withTail false
  refine ⟨_, ?_, .intro calmed rfl hn⟩
  cases pending with
  | false =>
    rw [calmed.eq_top]
    rfl
  | true =>
    obtain ⟨f, fs, rfl⟩ := List.exists_cons_of_ne_nil (hn rfl)
    have hname : e.name? = some f.name := mirrors.name?_eq
    exact if_neg (by rw [hname]; exact Bool.false_ne_true)

/-! ### Start tags that are cut off -/

/-- After the tokens of a text a start tag is pending if the text ended inside one, and that is then
the tag of the innermost element. -/
theorem cutOff_foldlM_pass {ts : List Token} (ho : Orderly ts) {t t' : Trail}
    (ht : t.tagPending = false) (h : ts.foldlM Trail.pass t = .ok t') :
    t'.tagPending = ts.any Token.isCutOff ∧
      ∀ name attributes, .startTag name attributes .cutOff ∈ ts → t'.names.head? = some name := by
  induction ho generalizing t with
  | finish =>
    obtain rfl := Except.ok.inj h
    exact ⟨ht, by simp⟩
  | cutOff name attributes =>
    obtain rfl := Except.ok.inj h
    refine ⟨rfl, fun found others hmem => ?_⟩
    simp only [List.mem_cons, Token.startTag.injEq, reduceCtorEq, List.not_mem_nil, or_false,
      and_true] at hmem
    rw [hmem.1]
    rfl
  | @cons token others whole hs ih =>
    rw [List.foldlM_cons] at h
    obtain ⟨_, hfirst, h⟩ := bind_eq_ok_iff.1 h
    obtain rfl := Trail.eq_after_of_pass hfirst
    obtain ⟨pending, head⟩ := ih (Trail.tagPending_after whole.isCutOff ht) h
    rw [List.any_cons, whole.isCutOff, Bool.false_or]
    refine ⟨pending, fun name attributes hmem => ?_⟩
    rcases List.mem_cons.1 hmem with rfl | hmem
    · cases whole.isCutOff
    · exact head name attributes hmem

theorem tagPending_afterResumedTag {ending : TagEnd} (h : ending ≠ .cutOff) {t : Trail} :
    (t.afterResumedTag name ending).tagPending = false := by
  rw [Trail.afterResumedTag]
  split
  · rfl
  · exact beq_eq_false_iff_ne.2 h

/-- So it is after a markup node. -/
theorem cutOff_receiveRun
    (hp : ∀ name ∈ pending, isTagName name ∧ b.trail.names.head? = some name)
    (hb : b.tagPending = false) {text : String} (h : b.receiveRun rules pending text = .ok c) :
    c.tagPending = endsInsideTag (textRead pending text) ∧
      ∀ name attributes, .startTag name attributes .cutOff ∈ tokens (textRead pending text) →
        c.trail.names.head? = some name := by
  have along {d : Builder} {ts : List Token} (hd : d.receiveAll rules ts = .ok c) :
      ts.foldlM Trail.pass d.trail = .ok c.trail := by
    obtain ⟨t, ht, rfl⟩ := (Builder.parallel_receiveAll rules d ts).exists_of_ok_left hd
    exact ht
  cases pending with
  | none => exact cutOff_foldlM_pass (orderly_tokens text) hb (along h)
  | some name =>
    obtain ⟨named, head⟩ := hp name rfl
    obtain ⟨attributes, ending, others, heq, orderly⟩ := exists_tagRestTokens name text
    have read : tokens (textRead (some name) text) = .startTag name attributes ending :: others :=
      (tokens_resumed named text).trans heq
    rw [endsInsideTag, read]
    simp only [Builder.receiveRun, heq] at h
    have rest := along h
    rw [Builder.trail_continueTag, Builder.trail_countToken] at rest
    generalize hrow : Token.startTag name attributes ending :: others = row at orderly
    cases orderly with
    | finish => cases hrow
    | cutOff =>
      obtain ⟨htag, rfl⟩ := List.cons.inj hrow
      injection htag with hname hattributes hending
      subst hname hattributes hending
      have ended : c.trail = { b.trail with tagPending := true } := (Except.ok.inj rest).symm
      refine ⟨congrArg Trail.tagPending ended, fun found given hmem => ?_⟩
      rw [ended]
      rcases List.mem_cons.1 hmem with hfirst | hmem
      · injection hfirst with hname
        rw [hname]
        exact head
      · simp at hmem
    | cons whole orderly =>
      obtain ⟨rfl, rfl⟩ := List.cons.inj hrow
      obtain ⟨pending, later⟩ :=
        cutOff_foldlM_pass orderly (tagPending_afterResumedTag whole.1) rest
      rw [List.any_cons, whole.isCutOff, Bool.false_or]
      refine ⟨pending, fun found given hmem => ?_⟩
      rcases List.mem_cons.1 hmem with hfirst | hmem
      · injection hfirst with _ _ hending
        exact absurd hending.symm whole.1
      · exact later found given hmem

/-! ### Children of both -/

/-- A step of a stack and one of a replay between children: they fail alike, or lead to the same
state again. -/
abbrev Settles : Except Stop CheckedStack → Except Halt Builder → Prop :=
  Parallel (fun stop halt => stop = .halt halt) fun s b => IsSettledFor b s

/-- A start tag that is pending between children is that of the innermost element. -/
theorem IsSettledFor.head?_of_pendingName? (h : IsSettledFor b s) :
    ∀ name ∈ b.pendingName?, isTagName name ∧ b.trail.names.head? = some name := by
  intro name hname
  rw [← Builder.trail_pendingName?] at hname
  have head := Trail.head?_of_pendingName? hname
  cases h with
  | intro mirrors => exact ⟨mirrors.isTagName_head head, head⟩

/-- A text that ends inside a start tag has a token for that tag. -/
theorem exists_of_endsInsideTag {text : String} (h : endsInsideTag text = true) :
    ∃ name attributes, .startTag name attributes .cutOff ∈ tokens text := by
  obtain ⟨token, hmem, hcut⟩ := List.any_eq_true.1 h
  cases token with
  | startTag name attributes ending =>
    obtain rfl := beq_iff_eq.1 hcut
    exact ⟨name, attributes, hmem⟩
  | _ => cases hcut

/-- One markup node. -/
theorem IsSettledFor.settles_addRun (h : IsSettledFor b s) (rules : TextRules) (text : String) :
    Settles (s.addRun rules text) (b.addRun rules text) := by
  obtain ⟨begun, hbegun, agrees⟩ := h.beginRun
  have head := h.head?_of_pendingName?
  have received := inStep_receiveTaken rules agrees (fun name hname => (head name hname).2)
    (List.append_nil (tokens (textRead b.pendingName? text))).symm
  rw [receiveTaken_tokens fun name hname => (head name hname).1] at received
  rw [addRun, hbegun, Builder.addRun]
  refine received.with_eq.bind fun ended c both => ?_
  obtain ⟨agrees, -, hc⟩ := both
  obtain ⟨pending, inside⟩ := cutOff_receiveRun
    (b := { b with tagPending := false, stats := b.stats.countRun }) head rfl hc
  obtain ⟨settled, hend, hsettled⟩ := agrees.endRun pending fun hinside none => by
    obtain ⟨name, attributes, hmem⟩ := exists_of_endsInsideTag hinside
    have found := inside name attributes hmem
    rw [Builder.trail_names, none] at found
    cases found
  rw [hend]
  exact .ok hsettled

theorem IsSettledFor.settles_push (h : IsSettledFor b s) (node : Node) :
    Settles (s.mapTop (Entry.push node)) (.ok (b.push node)) := by
  cases h with
  | @intro e es mirrors tail named =>
    have pushed := mirrors.inStep_push (s := ⟨e :: es, b.stats⟩) rfl node
    cases pushed with
    | ok agrees =>
      have flag : (b.push node).tagPending = b.tagPending :=
        congrArg Trail.tagPending (Builder.trail_push node b)
      have names : (b.push node).frames.map Frame.name = b.frames.map Frame.name :=
        congrArg Trail.names (Builder.trail_push node b)
      have settled := IsSettledFor.intro agrees.mirrors (agrees.tail _ rfl) fun hflag none => by
        rw [none, List.map_nil] at names
        exact named (flag ▸ hflag) (List.map_eq_nil_iff.1 names.symm)
      rw [flag, ← agrees.stats] at settled
      exact .ok settled

/-- One child. -/
theorem settles_addChild (rules : TextRules) (h : IsSettledFor b s) (child : Node) :
    Settles (s.addChild rules child) (b.addChild rules child) := by
  cases child with
  | markup pieces => exact h.settles_addRun rules (String.join pieces)
  | attr name parts =>
    have pushed := h.settles_push (.attr name parts)
    cases h with
    | @intro e es mirrors tail named =>
      have nameless : e.name?.isNone = b.frames.isEmpty := by
        rw [mirrors.name?_eq]
        cases b.frames <;> rfl
      change Settles (if e.name?.isNone then Except.error _ else mapTop _ _) _
      rw [nameless, Builder.addChild]
      split
      · exact .error rfl
      · exact pushed
  | _ => exact h.settles_push _

theorem settles_finish (h : IsSettledFor b s) :
    Parallel (fun stop halt => stop = .halt halt) (fun built c => built = ⟨c.root.reverse, c.stats⟩)
      s.finish b.finish := by
  obtain ⟨root, frames, tail, pending, stats⟩ := b
  cases h with
  | @intro e es mirrors tail named =>
    have names := mirrors.names
    cases mirrors with
    | root => exact .ok rfl
    | element hname calm _ below =>
      obtain ⟨next, es, rfl⟩ := List.exists_cons_of_ne_nil below.ne_nil
      exact .error (congrArg (fun names => Stop.halt ⟨.unbalancedTree names.reverse, stats⟩) names)

/-- Children from the first. -/
theorem settles_addChildren (rules : TextRules) (stats : Stats) (children : List Node) :
    Settles (children.foldlM (addChild rules) { stats })
      (children.foldlM (Builder.addChild rules) { stats }) := by
  have start : IsSettledFor { stats } ({ stats } : CheckedStack) :=
    .intro (e := {}) (.root rfl rfl) rfl nofun
  exact Parallel.foldlM_same (fun _ _ child h => settles_addChild rules h child) children start

/-- The replay on a stack is the replay: it meets no fault, and builds the same or fails alike. -/
theorem build_eq (rules : TextRules) (stats : Stats) (children : List Node) :
    build rules stats children =
      (MarkupTree.build rules stats children).mapError Stop.halt := by
  have alike : Parallel (fun stop halt => stop = .halt halt) Eq (build rules stats children)
      (MarkupTree.build rules stats children) := by
    refine (settles_addChildren rules stats children).bind fun ended b settled => ?_
    have finished := settles_finish settled
    generalize ended.finish = x, b.finish = y at finished
    cases finished with
    | error h => exact .error h
    | ok h => exact .ok h
  exact alike.eq_mapError

/-! ### What stacks look like -/

/-- The last entry is the root, which has no name, and all others are elements with names that are
read as they are written. -/
def IsNested (s : CheckedStack) : Prop :=
  ∃ names : List String, s.entries.map Entry.name? = names.map some ++ [none] ∧
    ∀ name ∈ names, isTagName name

/-- Between two children no start tag is pending but that of the innermost entry, which is then an
element. -/
structure IsSettled (s : CheckedStack) : Prop where
  nested : s.IsNested
  top : ∀ e ∈ s.entries.head?, e.tagPending = true → ∃ name, e.name? = some name
  others : ∀ e ∈ s.entries.tail, e.tagPending = false

/-- The name of the innermost entry, if its start tag is pending. -/
def pendingName? (s : CheckedStack) : Option String :=
  s.entries.head?.bind fun e => if e.tagPending then e.name? else none

theorem Mirrors.exists_names (h : Mirrors es fs root) :
    ∃ names : List String, es.map Entry.name? = names.map some ++ [none] ∧
      ∀ name ∈ names, isTagName name := by
  induction h with
  | root hname => exact ⟨[], by simp [hname], nofun⟩
  | @element e es name fs root hname _ named _ ih =>
    obtain ⟨names, hnames, hall⟩ := ih
    refine ⟨name :: names, ?_, List.forall_mem_cons.2 ⟨named, hall⟩⟩
    rw [List.map_cons, hname, hnames, List.map_cons, List.cons_append]

theorem Mirrors.calm (h : Mirrors es fs root) : ∀ e ∈ es, e.tagPending = false := by
  induction h with
  | root _ calm => exact List.forall_mem_singleton.2 calm
  | element _ calm _ _ ih => exact List.forall_mem_cons.2 ⟨calm, ih⟩

theorem IsSettledFor.isSettled (h : IsSettledFor b s) : s.IsSettled := by
  cases h with
  | @intro e es mirrors tail named =>
    refine ⟨mirrors.exists_names, ?_, fun other hother => ?_⟩
    · rintro _ ⟨⟩ hpending
      obtain ⟨f, fs, hframes⟩ := List.exists_cons_of_ne_nil (named hpending)
      exact ⟨f.name, by rw [mirrors.name?_eq, hframes]; rfl⟩
    · exact mirrors.calm other (List.mem_cons_of_mem e hother)

theorem IsSettledFor.pendingName?_eq (h : IsSettledFor b s) : s.pendingName? = b.pendingName? := by
  cases h with
  | @intro e es mirrors tail named =>
    have same : e.name? = b.frames.head?.map Frame.name := by
      rw [mirrors.name?_eq, List.head?_map]
    rw [Builder.pendingName?, ← same]
    rfl

/-- A markup node that ends inside a start tag leaves that tag pending, as the one of the innermost
element. -/
theorem IsSettledFor.pending_of_addRun (h : IsSettledFor b s) {text : String} {ended : CheckedStack}
    (hended : s.addRun rules text = .ok ended)
    (hinside : endsInsideTag (textRead s.pendingName? text) = true) :
    ∃ name attributes, .startTag name attributes .cutOff ∈ tokens (textRead s.pendingName? text) ∧
      ended.pendingName? = some name := by
  obtain ⟨d, hd, settled⟩ := (h.settles_addRun rules text).exists_of_ok_left hended
  rw [h.pendingName?_eq] at hinside ⊢
  obtain ⟨name, attributes, hmem⟩ := exists_of_endsInsideTag hinside
  obtain ⟨c, hc, hlast⟩ := bind_eq_ok_iff.1 hd
  obtain rfl := Except.ok.inj hlast
  obtain ⟨hpending, head⟩ := cutOff_receiveRun
    (b := { b with tagPending := false, stats := b.stats.countRun }) h.head?_of_pendingName? rfl hc
  refine ⟨name, attributes, hmem, ?_⟩
  rw [settled.pendingName?_eq, ← Builder.trail_pendingName?, Trail.pendingName?]
  exact (if_pos (hpending.trans hinside)).trans (head name attributes hmem)

/-- No replay meets a fault, and this is what its stacks look like. The last entry is the root, and
all others are elements; between two children no start tag is pending but that of the innermost of
them. If one is, then the next markup node is read with this tag as its first token. If a markup
node ends inside a start tag, then that tag is pending afterwards, as the one of the innermost
element. -/
theorem faultless (rules : TextRules) (stats : Stats) :
    (∀ children, build rules stats children =
      (MarkupTree.build rules stats children).mapError Stop.halt) ∧
    ∀ (children : List Node) (s : CheckedStack),
      children.foldlM (addChild rules) { stats } = .ok s →
      s.IsSettled ∧
      (∀ name ∈ s.pendingName?, ∀ text, ∃ attributes ending others,
        tokens (resumed name text) = .startTag name attributes ending :: others) ∧
      ∀ text, ∃ begun, s.beginRun = .ok (s.pendingName?, begun) ∧
        (∀ taken left reached, tokens (textRead s.pendingName? text) = taken ++ left →
          begun.receiveRun rules s.pendingName? taken = .ok reached → reached.IsNested) ∧
        ∀ ended, s.addRun rules text = .ok ended →
          endsInsideTag (textRead s.pendingName? text) = true →
          ∃ name attributes, .startTag name attributes .cutOff ∈
            tokens (textRead s.pendingName? text) ∧ ended.pendingName? = some name := by
  refine ⟨build_eq rules stats, fun children s h => ?_⟩
  obtain ⟨b, -, settled⟩ := (settles_addChildren rules stats children).exists_of_ok_left h
  have head := settled.head?_of_pendingName?
  have same := settled.pendingName?_eq
  refine ⟨settled.isSettled, fun name hname text => ?_, fun text => ?_⟩
  · obtain ⟨attributes, ending, others, heq, -⟩ := exists_tagRestTokens name text
    exact ⟨attributes, ending, others,
      (tokens_resumed (head name (same ▸ hname)).1 text).trans heq⟩
  · obtain ⟨begun, hbegun, agrees⟩ := settled.beginRun
    refine ⟨begun, same ▸ hbegun, fun taken left reached hread hreached => ?_, fun ended =>
      settled.pending_of_addRun⟩
    obtain ⟨c, -, agrees⟩ := (inStep_receiveTaken rules agrees
      (fun name hname => (head name (same ▸ hname)).2) hread).exists_of_ok_left hreached
    exact agrees.mirrors.exists_names

/-- A start tag that two markup nodes share, and one that the second does not end. -/
theorem faultless_sharedTag :
    ∃ s ended, [Node.markup ["a<p"]].foldlM (addChild ⟨true, false⟩) {} = .ok s ∧ s.IsSettled ∧
      s.pendingName? = some "p" ∧
      (∃ attributes ending others,
        tokens (resumed "p" " id>b<i") = .startTag "p" attributes ending :: others) ∧
      s.addRun ⟨true, false⟩ " id>b<i" = .ok ended ∧ ∃ name attributes,
        .startTag name attributes .cutOff ∈ tokens (resumed "p" " id>b<i") ∧
          ended.pendingName? = some name := by
  obtain ⟨s, hs, hpending⟩ := exists_of_toOption_map (show
    ([Node.markup ["a<p"]].foldlM (addChild ⟨true, false⟩) {}).toOption.map pendingName? =
      some (some "p") by decide +kernel)
  have more : (([Node.markup ["a<p"]].foldlM (addChild ⟨true, false⟩) {}).bind fun s =>
      s.addRun ⟨true, false⟩ " id>b<i").toOption.isSome := by decide +kernel
  rw [hs] at more
  obtain ⟨settled, first, runs⟩ := (faultless ⟨true, false⟩ {}).2 _ s hs
  obtain ⟨begun, -, -, last⟩ := runs " id>b<i"
  rw [hpending] at first last
  cases hended : s.addRun ⟨true, false⟩ " id>b<i" with
  | error stop =>
    rw [Except.bind, hended] at more
    cases more
  | ok ended =>
    exact ⟨s, ended, hs, settled, hpending, first "p" rfl " id>b<i", hended,
      last ended hended (by decide +kernel)⟩

end MarkupTree.CheckedStack
