/-!
# Breaking a text at a place

A scanner reads up to the first place where something begins. The place is known by the text that
starts there, so the test is one on a text and not on a character alone.

## Main definitions

* `Text.breakWhere` : a text cut at the first place whose remaining text passes a test.
* `Text.after?` : what follows a given word.

## Main results

* `Text.breakWhere_append` : the two parts make up the text.
* `Text.stop_breakWhere` : the second part passes the test, or is empty.
* `Text.stop_of_breakWhere` : no earlier place passes it.
* `Text.breakWhere_eq` : so a text that is in two such parts is cut between them.
* `Text.breakWhere_of_append` : the cut does not depend on what comes long after it.
-/

namespace MarkupTree.Text

/-- Cuts a text at its first place whose remaining text passes `stop`, or at its end. -/
def breakWhere (stop : List Char → Bool) : List Char → List Char × List Char
  | [] => ([], [])
  | c :: cs =>
    if stop (c :: cs) then ([], c :: cs)
    else
      let parts := breakWhere stop cs
      (c :: parts.1, parts.2)

variable {stop : List Char → Bool}

@[simp] theorem breakWhere_nil : breakWhere stop [] = ([], []) := rfl

theorem breakWhere_cons (c : Char) (cs : List Char) :
    breakWhere stop (c :: cs) = if stop (c :: cs) then ([], c :: cs)
      else (c :: (breakWhere stop cs).1, (breakWhere stop cs).2) := rfl

theorem breakWhere_append (s : List Char) :
    (breakWhere stop s).1 ++ (breakWhere stop s).2 = s := by
  induction s with
  | nil => rfl
  | cons c cs ih => rw [breakWhere_cons]; split <;> simp [ih]

theorem stop_breakWhere (s : List Char) (h : (breakWhere stop s).2 ≠ []) :
    stop (breakWhere stop s).2 = true := by
  induction s with
  | nil => simp at h
  | cons c cs ih =>
    rw [breakWhere_cons] at h ⊢
    split
    · assumption
    · simp_all

/-- No place before the cut passes the test. -/
theorem stop_of_breakWhere {s before after : List Char}
    (h : (breakWhere stop s).1 = before ++ after) (ha : after ≠ []) :
    stop (after ++ (breakWhere stop s).2) = false := by
  induction s generalizing before with
  | nil => simp_all
  | cons c cs ih =>
    rw [breakWhere_cons] at h ⊢
    split at h
    · simp_all
    · next hc =>
      rw [if_neg hc]
      cases before with
      | nil =>
        obtain rfl : c :: (breakWhere stop cs).1 = after := h
        rw [List.cons_append, breakWhere_append]
        simpa using hc
      | cons b bs => exact ih (List.cons.inj h).2

/-- A text that goes on with `rest` is cut there, if `rest` passes the test or is empty and no
earlier place passes it. -/
theorem breakWhere_eq {s rest : List Char}
    (hs : ∀ before after, s = before ++ after → after ≠ [] → stop (after ++ rest) = false)
    (hr : rest = [] ∨ stop rest = true) : breakWhere stop (s ++ rest) = (s, rest) := by
  induction s with
  | nil =>
    cases rest with
    | nil => rfl
    | cons c cs =>
      have here : stop (c :: cs) = true := by simpa using hr
      rw [List.nil_append, breakWhere_cons, if_pos here]
  | cons c cs ih =>
    have first : stop (c :: (cs ++ rest)) = false := hs [] (c :: cs) rfl (List.cons_ne_nil c cs)
    have later := ih fun before after h ha => hs (c :: before) after (congrArg (c :: ·) h) ha
    rw [List.cons_append, breakWhere_cons, if_neg (by simp [first]), later]

/-- A text that is cut before `t` is cut at the same place without `t`, if no place passes the test
only because `t` is missing, and what is left passes it or is empty. -/
theorem breakWhere_of_append {s t before rest : List Char}
    (h : breakWhere stop (s ++ t) = (before, rest ++ t))
    (mono : ∀ u, u ≠ [] → stop u = true → stop (u ++ t) = true)
    (hr : rest = [] ∨ stop rest = true) : breakWhere stop s = (before, rest) := by
  have whole : before ++ (rest ++ t) = s ++ t := by
    have parts : (breakWhere stop (s ++ t)).1 ++ (breakWhere stop (s ++ t)).2 = s ++ t :=
      breakWhere_append (s ++ t)
    rwa [h] at parts
  obtain rfl : before ++ rest = s := by
    rw [← List.append_assoc] at whole
    exact List.append_cancel_right whole
  refine breakWhere_eq (fun early late hsplit hlate => ?_) hr
  have first : (breakWhere stop (before ++ rest ++ t)).1 = early ++ late := by rw [h, hsplit]
  have passed := stop_of_breakWhere first hlate
  rw [h, ← List.append_assoc] at passed
  cases hstop : stop (late ++ rest) with
  | false => rfl
  | true =>
    rw [mono _ (fun hnil => hlate (List.append_eq_nil_iff.1 hnil).1) hstop] at passed
    cases passed

theorem length_breakWhere_le (s : List Char) : (breakWhere stop s).2.length ≤ s.length := by
  have h : ((breakWhere stop s).1 ++ (breakWhere stop s).2).length = s.length := by
    rw [breakWhere_append]
  simp only [List.length_append] at h
  omega

/-- What follows `word` at the head of a text. -/
def after? : (word s : List Char) → Option (List Char)
  | [], s => some s
  | _ :: _, [] => none
  | w :: ws, c :: cs => if c == w then after? ws cs else none

@[simp] theorem after?_append (word s : List Char) : after? word (word ++ s) = some s := by
  induction word with
  | nil => rfl
  | cons w ws ih => simp [after?, ih]

theorem after?_eq_some_iff {word s rest : List Char} :
    after? word s = some rest ↔ s = word ++ rest := by
  constructor
  · intro h
    induction word generalizing s with
    | nil => simpa [after?] using h
    | cons w ws ih =>
      cases s with
      | nil => simp [after?] at h
      | cons c cs =>
        by_cases hc : c = w
        · simp_all [after?]
        · simp [after?, hc] at h
  · rintro rfl
    exact after?_append word rest

end MarkupTree.Text
