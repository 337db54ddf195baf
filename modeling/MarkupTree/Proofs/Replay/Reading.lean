import MarkupTree.Proofs.Lexing.Pieces
import MarkupTree.Proofs.Replay.Fidelity

/-!
# What is tokenized

A markup node that comes while a start tag is pending goes on inside that tag. Its text is then read
as if the tag began anew: after `<`, the name of the element and a space (`Trail.textRead`). This is
a whole text again, with tokens of its own, since the name of an open element comes from a start tag
and is read as it is written (`Trail.HasNames`).

## Main definitions

* `Trail.textRead` : the text that is tokenized for a markup node.
* `Trail.textsRead` : the texts that are tokenized for a list of children.
* `Trail.HasNames` : the open elements have names that are read as they are written.

## Main results

* `tokens_resumed` : the rest of a start tag is read as if the tag began anew.
* `Trail.HasNames.afterChild` : names stay such over a child.
-/

namespace MarkupTree

variable {name : String}

/-- A text that goes on inside the start tag of the element `name`, with the tag begun anew. -/
def resumed (name text : String) : String := "<" ++ name ++ " " ++ text

/-- The rest of a start tag is read as if the tag began anew. -/
theorem tokens_resumed (hn : isTagName name) (text : String) :
    tokens (resumed name text) = tagRestTokens name text := by
  have whole : (resumed name text).toList = '<' :: (name.toList ++ ' ' :: text.toList) := by
    simp [resumed, String.toList_append]
  obtain ⟨hvalue, hrest⟩ := readBody_of_isBlank (c := ' ') rfl text.toList
  rw [tokens, whole, lex_startTag hn rfl, tagRestTokens, tagRestTokens, lexTagRest, lexTagRest,
    String.toList_ofList]
  simp only [lexTagBody, hvalue, hrest]
  split <;> rfl

namespace Trail

variable {t : Trail}

/-! ### Names of open elements -/

/-- The open elements have names that are read as they are written. -/
def HasNames (t : Trail) : Prop := ∀ name ∈ t.names, isTagName name

theorem hasNames_empty : HasNames {} := nofun

theorem HasNames.after (h : t.HasNames) {token : Token} (ht : token.HasNames) :
    (t.after token).HasNames := by
  cases token with
  | startTag name attributes ending =>
    rw [Trail.after, Trail.afterStartTag]
    split
    · exact h
    · exact List.forall_mem_cons.2 ⟨ht.1, h⟩
  | endTag name => exact fun n hn => h n (List.mem_of_mem_tail hn)
  | _ => exact h

theorem HasNames.foldl_after (h : t.HasNames) {tokens : List Token}
    (ht : ∀ token ∈ tokens, token.HasNames) : (tokens.foldl Trail.after t).HasNames := by
  induction tokens generalizing t with
  | nil => exact h
  | cons token others ih =>
    obtain ⟨first, later⟩ := List.forall_mem_cons.1 ht
    exact ih (h.after first) later

theorem HasNames.afterResumedTag (h : t.HasNames) (name : String) (ending : TagEnd) :
    (t.afterResumedTag name ending).HasNames := by
  rw [Trail.afterResumedTag]
  split
  · exact fun n hn => h n (List.mem_of_mem_tail hn)
  · exact h

theorem HasNames.isTagName (h : t.HasNames) (hn : t.pendingName? = some name) :
    isTagName name :=
  h name (List.mem_of_mem_head? (head?_of_pendingName? hn))

/-! ### Texts -/

/-- The text that is tokenized for the text of a markup node. If a start tag is pending, the tag
begins anew. -/
def textRead (t : Trail) (text : String) : String :=
  match t.pendingName? with
  | none => text
  | some name => resumed name text

/-- The texts that are tokenized for a list of children, one for each markup node. -/
def textsRead : (t : Trail) → List Node → List String
  | _, [] => []
  | t, child :: others =>
    (child.markupText?.map t.textRead).toList ++ (t.afterChild child).textsRead others

theorem textRead_of_none (hn : t.pendingName? = none) (text : String) :
    t.textRead text = text := by
  rw [textRead, hn]

theorem HasNames.tokens_textRead (h : t.HasNames) (hn : t.pendingName? = some name)
    (text : String) : tokens (t.textRead text) = tagRestTokens name text := by
  rw [textRead, hn]
  exact tokens_resumed (h.isTagName hn) text

theorem hasNames_of_mem_tokens (s : String) :
    ∀ token ∈ tokens s, token.HasNames ∧ token.HasEndName := by
  intro token ht
  obtain ⟨l, hl, rfl⟩ := List.mem_map.1 ht
  exact hasNames_lex s.toList l hl

/-- The names of the open elements stay such over a child. -/
theorem HasNames.afterChild (h : t.HasNames) (child : Node) : (t.afterChild child).HasNames := by
  cases child with
  | markup pieces =>
    have read (token : Token) (h : token ∈ tokens (t.textRead (String.join pieces))) :
        token.HasNames := (hasNames_of_mem_tokens _ token h).1
    rw [Trail.afterChild, start]
    cases hn : t.pendingName? with
    | none =>
      rw [textRead_of_none hn] at read
      have settled : HasNames { t with tagPending := false } := h
      exact settled.foldl_after read
    | some name =>
      obtain ⟨attributes, ending, others, heq, -⟩ := exists_tagRestTokens name (String.join pieces)
      rw [h.tokens_textRead hn, heq] at read
      simp only [heq]
      exact (h.afterResumedTag name ending).foldl_after (List.forall_mem_cons.1 read).2
  | _ => exact h

/-- The texts that are tokenized are as many as the markup nodes. -/
theorem length_textsRead (t : Trail) (children : List Node) :
    (t.textsRead children).length = children.countP Node.isMarkup := by
  induction children generalizing t with
  | nil => rfl
  | cons child others ih =>
    rw [textsRead, List.length_append, ih, List.countP_cons, Nat.add_comm]
    cases child <;> rfl

end Trail

/-- A start tag in three markup nodes, around an attribute. -/
example :
    Trail.textsRead {}
        [.markup ["a<p"], .markup [" id"], .attr "k" [], .markup [">b", "<br>"], .markup ["</p>"]] =
      ["a<p", "<p  id", "<p >b<br>", "</p>"] := by
  decide +kernel

end MarkupTree
