import MarkupTree.Proofs.Lexing.NormalForm
import MarkupTree.Proofs.Pass.Appending
import MarkupTree.Proofs.Pass.Respelling

/-!
# Elements whose content is interrupted

The content of an element may be interrupted by nodes that are not markup: the start tag is in one
markup node, the end tag in a later one, and the other nodes stand between them. The element stays
open from one markup node to the next, so the nodes that interrupt it become its children, in their
places.

Elements with raw text are the exception. The lexer implies their end tag at the end of the markup
node that has their start tag, so the nodes that follow stand behind the element, and the end tag
that comes with the last markup node has nothing to close. The pass fails for it, however the
content is divided (`restructure_interrupted`).

## Main definitions

* `OpensElement` : a text starts with the start tag of an element, in any spelling.
* `interrupted` : the markup nodes and the nodes between them, from the first of these on.
* `contentText` : the text that some characters of content make.

## Main results

* `tokens_of_opensElement` : the tokens of the first markup node.
* `completesNodes_interrupted` : a list of children from the first interruption on.
* `foldlM_passChild_interrupted` : the same list where the element has been ended before.
* `restructure_interrupted` : the pass over an element that is interrupted.
-/

namespace MarkupTree

variable {policy : Policy} {rules : TextRules} {name : String} {attributes : List Attribute}
  {body : List Char}

/-! ### Tokens -/

/-- The text starts with the start tag of an element `name`, in any spelling, which has `attributes`
and does not close itself. What follows the tag is `body`. -/
def OpensElement (name : String) (attributes : List Attribute) (body text : List Char) : Prop :=
  ∃ s, text = '<' :: s ∧ startsWithLetter s = true ∧
    Ascii.lowercase (String.ofList (s.takeWhile isNameChar)) = name ∧
    (readBody (s.dropWhile isNameChar)).value = ⟨attributes, .plain⟩ ∧
    (readBody (s.dropWhile isNameChar)).rest = body

/-- The text of some characters, and no text for none. -/
def contentText (body : List Char) : Option String :=
  if body.isEmpty then none else some (Reference.decoded body)

/-- The tokens of ordinary text, and of what follows it. -/
theorem lex_body (hs : '<' ∉ body) (rest : List Char) (hr : endsText rest) :
    (lex (body ++ rest)).map Lexeme.token =
      (contentText body).toList.map Token.text ++ (lex rest).map Lexeme.token := by
  cases body with
  | nil => rfl
  | cons c cs =>
    rw [lex_of_lt_notMem (List.cons_ne_nil c cs) hs hr]
    rfl

theorem tokens_body {text : String} (hs : '<' ∉ text.toList) :
    tokens text = (contentText text.toList).toList.map Token.text ++ [.endOfInput] := by
  have read := lex_body hs [] rfl
  rwa [List.append_nil, lex_nil] at read

/-- The tokens of ordinary text before an end tag. -/
theorem tokens_lastRun {text : String} (hn : isTagName name) (hs : '<' ∉ text.toList) :
    tokens (text ++ String.ofList (spellEndTag name)) =
      (contentText text.toList).toList.map Token.text ++ [.endTag name, .endOfInput] := by
  have close := lex_spellEndTag hn []
  rw [List.append_nil, lex_nil] at close
  rw [tokens, String.toList_append, String.toList_ofList, lex_body hs _ rfl, close]
  rfl

theorem OpensElement.isTagName {text : List Char}
    (h : OpensElement name attributes body text) : isTagName name := by
  obtain ⟨s, -, hletter, rfl, -, -⟩ := h
  exact isTagName_lowercase hletter

/-- The tokens of a markup node that opens an element without raw text. -/
theorem tokens_of_opensElement {text : String}
    (h : OpensElement name attributes body text.toList) (hraw : hasRawText name = false)
    (hs : '<' ∉ body) :
    tokens text = .startTag name attributes (TagEnd.plain.ofName name) ::
      ((contentText body).toList.map Token.text ++ [.endOfInput]) := by
  obtain ⟨s, htext, hletter, hname, hvalue, hrest⟩ := h
  have content := lex_body hs [] rfl
  rw [List.append_nil, lex_nil] at content
  rw [tokens, htext, lex_of_startsWithLetter hletter, hname, tagRestTokens_eq hraw, hvalue, hrest,
    content]
  rfl

theorem closeTag?_of_lt_notMem (name : String) (hs : '<' ∉ body) : closeTag? name body = none := by
  cases h : closeTag? name body with
  | none => rfl
  | some close =>
    obtain ⟨source, rest⟩ := close
    obtain ⟨spelled, blanks, hl, -, rfl, rfl⟩ := closeTag?_eq_some_iff.1 h
    cases spelled with
    | nil => cases hl
    | cons c cs =>
      obtain rfl := (toLower_eq_iff rfl).1 (List.cons.inj hl).1
      exact absurd (by simp) hs

/-- In raw text without `<` there is no close tag, so nothing is left after it. -/
theorem rest_lexRawText (name : String) (hs : '<' ∉ body) : (lexRawText name body).rest = [] := by
  have whole : breakRawText name (body ++ []) = (body, []) := by
    refine Text.breakWhere_eq ?_ (.inl rfl)
    intro before after hbody _
    rw [List.append_nil, closeTag?_of_lt_notMem name]
    · rfl
    · exact fun hlt => hs (hbody ▸ List.mem_append_right before hlt)
  rw [List.append_nil] at whole
  have none : closeTag? name [] = none := rfl
  simp only [lexRawText, whole, none]

/-- The tokens of a markup node that opens an element with raw text: its end tag is among them. -/
theorem tokens_of_opensRawText {text : String}
    (h : OpensElement name attributes body text.toList) (hraw : hasRawText name = true)
    (hv : isVoid name = false) (hs : '<' ∉ body) :
    ∃ content : Option String, tokens text = .startTag name attributes .plain ::
      (content.toList.map Token.text ++ [.endTag name, .endOfInput]) := by
  obtain ⟨s, htext, hletter, hname, hvalue, hrest⟩ := h
  have plain : (readBody (s.dropWhile isNameChar)).value.ending.ofName name = .plain ∧
      hasRawText name = true := by
    rw [hvalue]
    exact ⟨by simp [TagEnd.ofName, hv], hraw⟩
  obtain ⟨content, -, hcontent⟩ := exists_lexRawText name body
  refine ⟨content, ?_⟩
  rw [tokens, htext, lex_of_startsWithLetter hletter, hname, tagRestTokens_of_raw plain, hvalue,
    hrest, rest_lexRawText name hs, hcontent, lex_nil]
  cases content <;> rfl

/-! ### Replaying -/

/-- The text of content as nodes. -/
def contentNodes (body : List Char) : List Node := (contentText body).toList.map .text

/-- The nodes that interrupt an element and the text after each, the last text with the end tag. -/
def interrupted (name : String) : (parts : List (Node × String)) → List Node
  | [] => []
  | [(n, text)] => [n, .markup [text ++ String.ofList (spellEndTag name)]]
  | (n, text) :: part :: parts => n :: .markup [text] :: interrupted name (part :: parts)

/-- Markup nodes whose tokens leave the stack `s'` where there was `s`. -/
theorem CompletesNodes.markup {built nodes : List Node} {s s' : Stack} {text : String}
    (h : CompletesNodes rules built none nodes s')
    (ht : ∀ b : Builder, b.stack = s → b.tagPending = false → b.textTail = false →
      ∃ c, b.receiveAll rules (tokens text) = .ok c ∧ c.stack = s' ∧ c.tagPending = false) :
    CompletesNodes rules built none (.markup [text] :: nodes) s := by
  intro b hs htail hp
  obtain ⟨c, hc, hcs, hcp⟩ := ht { b with tagPending := false, stats := b.stats.countRun } hs rfl
    htail
  have added : b.addChild rules (.markup [text]) = .ok { c with textTail := false } := by
    have joined : String.join [text] = text := by simp [String.join]
    rw [Builder.addChild, joined, Builder.addRun, hp, Builder.receiveRun, hc]
    rfl
  rw [List.foldlM_cons, added]
  exact h { c with textTail := false } hcs rfl (by simp [Builder.pendingName?, hcp])

/-- The texts of content are put into the innermost element. -/
theorem exists_receiveAll_content (rules : TextRules) {b : Builder} {s : Stack}
    {children : List Node} (hs : b.stack = s.enter name children) (hp : b.tagPending = false)
    (ht : b.textTail = false) (content : Option String) :
    ∃ c, b.receiveAll rules (content.toList.map .text) = .ok c ∧ c.tagPending = false ∧
      c.stack = s.enter name ((content.toList.map Node.text).reverse ++ children) := by
  cases content with
  | none => exact ⟨b, rfl, hp, hs⟩
  | some text =>
    have inside : b.frames = [] → rules.drops (.text text) = false := by
      rw [Builder.frames_of_stack_enter hs]
      exact nofun
    have received := Builder.receive_text ht inside
    refine ⟨{ b.countToken.push (.text text) with textTail := true }, ?_, ?_, ?_⟩
    · simp only [Builder.receiveAll, Option.toList_some, List.map_cons, List.map_nil,
        List.foldlM_cons, received]
      rfl
    · exact (Builder.tagPending_push _ b.countToken).trans hp
    · have pushed := Builder.stack_push (.text text) b.countToken
      have stack : b.countToken.stack = s.enter name children := hs
      rw [stack] at pushed
      exact pushed

section Nodes

variable {built nodes children : List Node} {s : Stack} {text : String}

/-- A markup node inside an element: its text becomes a child. -/
theorem CompletesNodes.content
    (h : CompletesNodes rules built none nodes
      (s.enter name ((contentNodes text.toList).reverse ++ children)))
    (hs : '<' ∉ text.toList) :
    CompletesNodes rules built none (.markup [text] :: nodes) (s.enter name children) := by
  refine h.markup fun b hb hp ht => ?_
  obtain ⟨c, hc, hcp, hcs⟩ := exists_receiveAll_content rules hb hp ht
    (contentText text.toList)
  refine ⟨c.countToken, ?_, hcs, hcp⟩
  rw [Builder.receiveAll] at hc
  rw [tokens_body hs, Builder.receiveAll, List.foldlM_append, hc]
  rfl

/-- A markup node that ends an element after some text. -/
theorem CompletesNodes.lastContent
    (h : CompletesNodes rules built none nodes
      (s.push (.element name (children.reverse ++ contentNodes text.toList))))
    (hn : isTagName name) (hs : '<' ∉ text.toList) :
    CompletesNodes rules built none (.markup [text ++ String.ofList (spellEndTag name)] :: nodes)
      (s.enter name children) := by
  refine h.markup fun b hb hp ht => ?_
  obtain ⟨c, hc, hcp, hcs⟩ := exists_receiveAll_content rules hb hp ht
    (contentText text.toList)
  have closed : ∃ d, c.receive rules (.endTag name) = .ok d ∧ d.tagPending = false ∧
      d.stack = s.push (.element name (children.reverse ++ contentNodes text.toList)) := by
    have root : c.countToken.root = s.root := congrArg Stack.root hcs
    refine ⟨_, Builder.receive_endTag (Builder.frames_of_stack_enter hcs), ?_, ?_⟩
    · exact (Builder.tagPending_push _ _).trans hcp
    · rw [Builder.stack_push, Builder.stack, root, List.reverse_append, List.reverse_reverse]
      rfl
  obtain ⟨d, hd, hdp, hds⟩ := closed
  refine ⟨d.countToken, ?_, hds, hdp⟩
  rw [Builder.receiveAll] at hc
  rw [tokens_lastRun hn hs, Builder.receiveAll, List.foldlM_append, hc]
  change List.foldlM (Builder.receive rules) c [.endTag name, .endOfInput] = _
  rw [List.foldlM_cons, hd]
  rfl

/-- A markup node that opens an element without raw text. -/
theorem CompletesNodes.opening
    (h : CompletesNodes rules built none nodes
      (s.enter name ((contentNodes body).reverse ++ (attributes.map Node.ofAttribute).reverse)))
    (ht : OpensElement name attributes body text.toList) (hraw : hasRawText name = false)
    (hv : isVoid name = false) (hs : '<' ∉ body) :
    CompletesNodes rules built none (.markup [text] :: nodes) s := by
  refine h.markup fun b hb _ _ => ?_
  have plain : TagEnd.plain.ofName name = .plain := by simp [TagEnd.ofName, hv]
  have opened : ∃ c, b.receive rules (.startTag name attributes .plain) = .ok c ∧
      c.tagPending = false ∧ c.textTail = false ∧
      c.stack = s.enter name (attributes.map Node.ofAttribute).reverse := by
    have stays : ¬(TagEnd.plain = .selfClosing ∧ isVoid name = true) := by simp
    refine ⟨_, rfl, ?_, ?_, ?_⟩ <;> rw [Builder.openElement, Builder.closeIfVoid, if_neg stays]
    · rfl
    · rw [← hb]
      rfl
  obtain ⟨c, hc, hcp, hct, hcs⟩ := opened
  obtain ⟨d, hd, hdp, hds⟩ := exists_receiveAll_content rules hcs hcp hct
    (contentText body)
  refine ⟨d.countToken, ?_, hds, hdp⟩
  rw [Builder.receiveAll] at hd
  rw [tokens_of_opensElement ht hraw hs, plain, Builder.receiveAll, List.foldlM_cons, hc]
  change List.foldlM (Builder.receive rules) c _ = _
  rw [List.foldlM_append, hd]
  rfl

/-- A node that is carried along into an element. -/
theorem CompletesNodes.carried {n : Node}
    (h : CompletesNodes rules built none nodes (s.enter name (n :: children)))
    (hm : n.isMarkup = false) (ha : n.isAttr = false) :
    CompletesNodes rules built none (n :: nodes) (s.enter name children) := by
  intro b hs _ hp
  rw [List.foldlM_cons, Builder.addChild_eq_push rules b hm ha]
  refine h (b.push n) ?_ (Builder.textTail_push n b) ?_
  · rw [Builder.stack_push, hs, Stack.push_enter]
  · rw [Builder.pendingName?_push, hp]

/-- Nothing is left, and no element is open. -/
theorem CompletesNodes.nil (hf : s.frames = []) : CompletesNodes rules s.root none [] s :=
  fun b hs _ _ => ⟨b, rfl, (congrArg Stack.frames hs).trans hf, congrArg Stack.root hs⟩

end Nodes

/-- The nodes that interrupt an element can: they are carried along, and the text after each is
ordinary. -/
def AreInterruptions (parts : List (Node × String)) : Prop :=
  ∀ part ∈ parts, part.1.isAttr = false ∧ part.1.containsMarkup = false ∧ '<' ∉ part.2.toList

/-- What interrupts an element and the texts between, as its children. -/
def interruptedContent (parts : List (Node × String)) : List Node :=
  parts.flatMap fun part => part.1 :: contentNodes part.2.toList

/-- The rest of an element that is interrupted: all goes into the element, which then ends. -/
theorem completesNodes_interrupted (hn : isTagName name) :
    {parts : List (Node × String)} → (children : List Node) → parts ≠ [] →
    AreInterruptions parts →
    CompletesNodes rules [.element name (children.reverse ++ interruptedContent parts)] none
      (interrupted name parts) (({} : Stack).enter name children)
  | [(n, text)], children, _, h => by
    obtain ⟨ha, hm, ht⟩ := h (n, text) List.mem_cons_self
    refine CompletesNodes.carried (.lastContent ?_ hn ht) (Node.isMarkup_of_containsMarkup hm) ha
    have same : (n :: children).reverse ++ contentNodes text.toList =
        children.reverse ++ interruptedContent [(n, text)] := by
      simp [interruptedContent]
    rw [same]
    exact .nil rfl
  | (n, text) :: part :: parts, children, _, h => by
    obtain ⟨⟨ha, hm, ht⟩, others⟩ := List.forall_mem_cons.1 h
    have later : CompletesNodes rules _ none _ _ := completesNodes_interrupted hn
      ((contentNodes text.toList).reverse ++ n :: children) (List.cons_ne_nil part parts) others
    have same : ((contentNodes text.toList).reverse ++ n :: children).reverse ++
          interruptedContent (part :: parts) =
        children.reverse ++ interruptedContent ((n, text) :: part :: parts) := by
      simp [interruptedContent]
    rw [same] at later
    exact CompletesNodes.carried (.content later ht) (Node.isMarkup_of_containsMarkup hm) ha

/-! ### Raw text -/

/-- Past texts, the walk stays where it is. -/
theorem foldlM_pass_content (t : Trail) (content : Option String) (more : List Token) :
    (content.toList.map Token.text ++ more).foldlM Trail.pass t = more.foldlM Trail.pass t := by
  cases content <;> rfl

theorem passRun_of_empty (text : String) :
    ({} : Trail).passRun text = (tokens text).foldlM Trail.pass {} := rfl

/-- After the markup node that opens an element with raw text, no element is open. -/
theorem passRun_of_opensRawText {text : String}
    (h : OpensElement name attributes body text.toList) (hraw : hasRawText name = true)
    (hv : isVoid name = false) (hs : '<' ∉ body) : ({} : Trail).passRun text = .ok {} := by
  obtain ⟨content, read⟩ := tokens_of_opensRawText h hraw hv hs
  have opened : ({} : Trail).pass (.startTag name attributes .plain) = .ok ⟨[name], false⟩ := rfl
  have closed : (⟨[name], false⟩ : Trail).pass (.endTag name) = .ok {} := by
    simp [Trail.pass, Trail.violation?, Trail.after]
  rw [passRun_of_empty, read, List.foldlM_cons, opened]
  change List.foldlM Trail.pass ⟨[name], false⟩ _ = _
  rw [foldlM_pass_content, List.foldlM_cons, closed]
  rfl

/-- Where no element is open, a node that is carried along and ordinary text leave it so. -/
theorem passChild_of_isAttr (t : Trail) {n : Node} (hm : n.isMarkup = false)
    (ha : n.isAttr = false) : t.passChild n = .ok t := by
  cases n with
  | markup _ => cases hm
  | attr _ _ => cases ha
  | _ => rfl

/-- If no element is open where an element is interrupted, then its end tag closes nothing. -/
theorem foldlM_passChild_interrupted (hn : isTagName name) :
    {parts : List (Node × String)} → parts ≠ [] → AreInterruptions parts →
    (interrupted name parts).foldlM Trail.passChild {} = .error (.unbalancedClose none name)
  | [(n, text)], _, h => by
    obtain ⟨ha, hm, ht⟩ := h (n, text) List.mem_cons_self
    have joined : String.join [text ++ String.ofList (spellEndTag name)] =
        text ++ String.ofList (spellEndTag name) := by simp [String.join]
    rw [interrupted, List.foldlM_cons,
      passChild_of_isAttr _ (Node.isMarkup_of_containsMarkup hm) ha]
    change List.foldlM Trail.passChild {} _ = _
    rw [List.foldlM_cons, Trail.passChild, joined, passRun_of_empty, tokens_lastRun hn ht,
      foldlM_pass_content]
    rfl
  | (n, text) :: part :: parts, _, h => by
    obtain ⟨⟨ha, hm, ht⟩, others⟩ := List.forall_mem_cons.1 h
    have joined : String.join [text] = text := by simp [String.join]
    rw [interrupted, List.foldlM_cons,
      passChild_of_isAttr _ (Node.isMarkup_of_containsMarkup hm) ha]
    change List.foldlM Trail.passChild {} _ = _
    rw [List.foldlM_cons, Trail.passChild, joined, passRun_of_empty, tokens_body ht,
      foldlM_pass_content]
    exact foldlM_passChild_interrupted hn (List.cons_ne_nil part parts) others

/-! ### The pass -/

/-- The nodes of an element that is interrupted are finished, except for the markup. -/
theorem settles_interrupted (policy : Policy) (name : String) :
    {parts : List (Node × String)} → AreInterruptions parts →
    ∀ c ∈ interrupted name parts, Settles policy c c
  | [], _ => by simp [interrupted]
  | [(n, text)], h => by
    obtain ⟨-, hm, -⟩ := h (n, text) List.mem_cons_self
    simp [interrupted, settles_of_containsMarkup hm, settles_of_none (n := .markup _) rfl]
  | (n, text) :: part :: parts, h => by
    obtain ⟨⟨-, hm, -⟩, others⟩ := List.forall_mem_cons.1 h
    refine List.forall_mem_cons.2 ⟨settles_of_containsMarkup hm, ?_⟩
    exact List.forall_mem_cons.2 ⟨settles_of_none rfl, settles_interrupted policy name others⟩

/-- An element is interrupted once or more by nodes that are carried along; its texts are ordinary.
Unless the element has raw text, the pass succeeds, and what interrupts the element is among its
children, in its place between the texts. If the element has raw text, then the pass fails, and the
end tag that was given is why: the element has been ended before. -/
theorem restructure_interrupted (policy : Policy) (method : String) {text : String}
    {parts : List (Node × String)} (ht : OpensElement name attributes body text.toList)
    (hv : isVoid name = false) (hs : '<' ∉ body) (hp : parts ≠ []) (h : AreInterruptions parts) :
    (restructure policy (.method method (.markup [text] :: interrupted name parts))).failure =
        (if hasRawText name then some (.unbalancedClose none name) else none) ∧
      (restructure policy (.method method (.markup [text] :: interrupted name parts))).result =
        .method method
          (if hasRawText name then []
          else [.element name (attributes.map Node.ofAttribute ++ contentNodes body ++
            interruptedContent parts)]) := by
  have joined : String.join [text] = text := by simp [String.join]
  have settled : ∀ c ∈ .markup [text] :: interrupted name parts, Settles policy c c :=
    List.forall_mem_cons.2 ⟨settles_of_none rfl, settles_interrupted policy name h⟩
  by_cases hraw : hasRawText name = true
  · rw [if_pos hraw, if_pos hraw]
    have violation : check (.markup [text] :: interrupted name parts) =
        .error (.unbalancedClose none name) := by
      rw [check, List.foldlM_cons, Trail.passChild, joined, passRun_of_opensRawText ht hraw hv hs]
      change (do (← (interrupted name parts).foldlM Trail.passChild {}).finish) = _
      rw [foldlM_passChild_interrupted ht.isTagName hp h]
      rfl
    exact restructure_of_failsWith (failsWith_of_check rfl settled rfl violation)
  · rw [if_neg hraw, if_neg hraw]
    have completes : CompletesNodes (policy.rules (.method method [])) _ none _ _ :=
      completesNodes_interrupted ht.isTagName
        ((contentNodes body).reverse ++ (attributes.map Node.ofAttribute).reverse) hp h
    have opens := completes.opening ht (by simpa using hraw) hv hs
    obtain ⟨built, hb, hchildren⟩ := opens.build {}
    have settles : Settles policy (.method method (.markup [text] :: interrupted name parts))
        (.method method built.children) := by
      refine (settles_iff rfl).2 ⟨_, forall₂_settles_of settled, ?_⟩
      exact ⟨built, hb, rfl⟩
    obtain ⟨hf, hr⟩ := settles_iff_restructure.1 settles
    refine ⟨hf, hr.trans ?_⟩
    rw [hchildren]
    simp

/-- An expression with some text after it. -/
def expressionPart : Node × String := (.foreign "expr" "x" [], "b")

theorem areInterruptions_expressionPart : AreInterruptions [expressionPart] := by
  intro part hpart
  rw [List.mem_singleton.1 hpart]
  decide

/-- A paragraph can be interrupted by the expression, a script cannot. -/
theorem restructure_interrupted_expressionPart :
    (restructure {}
        (.method "show" (.markup ["<p>a"] :: interrupted "p" [expressionPart]))).result =
      .method "show" [.element "p" [.text "a", .foreign "expr" "x" [], .text "b"]] ∧
    (restructure {}
        (.method "show" (.markup ["<script>a"] :: interrupted "script" [expressionPart]))).failure =
      some (.unbalancedClose none "script") := by
  have plain : '<' ∉ "a".toList := by decide
  have paragraph : OpensElement "p" [] "a".toList "<p>a".toList :=
    ⟨"p>a".toList, rfl, rfl, by decide, by decide +kernel, by decide +kernel⟩
  have script : OpensElement "script" [] "a".toList "<script>a".toList :=
    ⟨"script>a".toList, rfl, rfl, by decide, by decide +kernel, by decide +kernel⟩
  have succeeds := restructure_interrupted {} "show" paragraph (by decide +kernel) plain
    (List.cons_ne_nil _ _) areInterruptions_expressionPart
  have fails := restructure_interrupted {} "show" script (by decide +kernel) plain
    (List.cons_ne_nil _ _) areInterruptions_expressionPart
  exact ⟨succeeds.2.trans (by decide +kernel), fails.1.trans (by decide +kernel)⟩

/-- So an expression inside a script is not kept in its place: the pass fails. -/
theorem script_interrupted_fails :
    (restructure {} (.method "show"
        [.markup ["<script>a"], .foreign "expr" "x" [], .markup ["b</script>"]])).failure =
      some (.unbalancedClose none "script") := by
  decide +kernel

end MarkupTree
