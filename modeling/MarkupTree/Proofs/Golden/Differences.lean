import MarkupTree.Golden.LineDiff
import Mathlib.Data.List.Infix

/-!
# The first difference of two lists of lines

Two lists differ first where the longest list ends that both begin with. The comparison of lists of
lines points there (`LineDiff.pointsAtDifference_shown`), but it compares lines as they are shown,
and a line that is missing is shown like a line with the text `<missing>`. So the lists that count
are those which are filled up with such lines to one length. This makes a difference only where one
list ends and the other goes on with this very line: then nothing is noticed before the next line
that differs, if there is one.

## Main definitions

* `LineDiff.IsLongestCommonPrefix` : what two lists both begin with.
* `LineDiff.shown` : a list filled up with missing lines.
* `LineDiff.IsWindow` : the lines around a number, as they are listed.
* `LineDiff.PointsAtDifference` : a report that shows the first difference of two lists.

## Main results

* `LineDiff.firstMismatch?_eq_none_iff`, `LineDiff.firstMismatch?_eq_some` : what the search finds.
* `LineDiff.pointsAtDifference_report` : which difference a report shows.
-/

namespace MarkupTree.LineDiff

variable {expected actual shared xs ys lines : List String} {i n : Nat}

/-! ### Common prefixes -/

/-- The longest list that two lists both begin with. -/
structure IsLongestCommonPrefix (shared xs ys : List String) : Prop where
  left : shared <+: xs
  right : shared <+: ys
  longest : ∀ other, other <+: xs → other <+: ys → other.length ≤ shared.length

theorem exists_isLongestCommonPrefix (xs ys : List String) :
    ∃ shared, IsLongestCommonPrefix shared xs ys := by
  induction xs generalizing ys with
  | nil => exact ⟨[], List.nil_prefix, List.nil_prefix, fun _ hleft _ => hleft.length_le⟩
  | cons x xs ih =>
    cases ys with
    | nil => exact ⟨[], List.nil_prefix, List.nil_prefix, fun _ _ hright => hright.length_le⟩
    | cons y ys =>
      by_cases same : x = y
      · subst same
        obtain ⟨shared, hleft, hright, longest⟩ := ih ys
        refine ⟨x :: shared, (List.prefix_cons_inj x).2 hleft, (List.prefix_cons_inj x).2 hright,
          fun other hother hother' => ?_⟩
        cases other with
        | nil => exact Nat.zero_le _
        | cons z other =>
          exact Nat.succ_le_succ (longest other (List.cons_prefix_cons.1 hother).2
            (List.cons_prefix_cons.1 hother').2)
      · refine ⟨[], List.nil_prefix, List.nil_prefix, fun other hother hother' => ?_⟩
        cases other with
        | nil => exact le_rfl
        | cons z other =>
          exact absurd ((List.cons_prefix_cons.1 hother).1.symm.trans
            (List.cons_prefix_cons.1 hother').1) same

/-- Different lists differ where their longest common prefix ends. -/
theorem IsLongestCommonPrefix.differ (h : IsLongestCommonPrefix shared xs ys) (hne : xs ≠ ys) :
    xs[shared.length]? ≠ ys[shared.length]? := by
  obtain ⟨⟨rest, rfl⟩, ⟨rest', rfl⟩, longest⟩ := h
  cases rest with
  | nil =>
    cases rest' with
    | nil => exact absurd rfl hne
    | cons y rest' => simp
  | cons x rest =>
    cases rest' with
    | nil => simp
    | cons y rest' =>
      intro same
      obtain rfl : x = y := by simpa using same
      have longer := longest (shared ++ [x]) ⟨rest, by simp⟩ ⟨rest', by simp⟩
      rw [List.length_append, List.length_singleton] at longer
      exact absurd longer (Nat.not_succ_le_self _)

/-- A common prefix is the longest if the lists differ where it ends. -/
theorem isLongestCommonPrefix_of_differ (hleft : shared <+: xs) (hright : shared <+: ys)
    (hne : xs[shared.length]? ≠ ys[shared.length]?) : IsLongestCommonPrefix shared xs ys := by
  refine ⟨hleft, hright, fun other hother hother' => ?_⟩
  by_contra! longer
  exact hne ((List.prefix_iff_getElem?.1 hother _ longer).trans
    (List.prefix_iff_getElem?.1 hother' _ longer).symm)

/-! ### Lists as they are shown -/

/-- A list filled up to `n` lines with missing ones. -/
def shown (n : Nat) (lines : List String) : List String :=
  lines ++ List.replicate (n - lines.length) missing

theorem getElem?_shown (h : lines.length ≤ n) (i : Nat) :
    (shown n lines)[i]? = if i < n then some (lineAt lines i) else none := by
  rw [shown, List.getElem?_append, List.getElem?_replicate, lineAt]
  by_cases inside : i < lines.length
  · rw [if_pos inside, if_pos (by omega), List.getElem?_eq_getElem inside, Option.getD_some]
  · rw [if_neg inside, List.getElem?_eq_none (Nat.not_lt.1 inside), Option.getD_none]
    exact if_congr (by omega) rfl rfl

/-- A line of both lists is shown in the same way, or neither has it. -/
theorem getElem?_shown_eq_iff : (shown (longer expected actual) expected)[i]? =
      (shown (longer expected actual) actual)[i]? ↔
    (i < longer expected actual → lineAt expected i = lineAt actual i) := by
  have left : expected.length ≤ longer expected actual := Nat.le_max_left _ _
  have right : actual.length ≤ longer expected actual := Nat.le_max_right _ _
  rw [getElem?_shown left, getElem?_shown right]
  split_ifs with h <;> simp [h]

/-- No line is found to differ if the lists are shown in the same way. -/
theorem firstMismatch?_eq_none_iff : firstMismatch? expected actual = none ↔
    shown (longer expected actual) expected = shown (longer expected actual) actual := by
  rw [firstMismatch?, List.find?_range_eq_none, List.ext_getElem?_iff]
  simp [getElem?_shown_eq_iff]

/-- Otherwise the line is found where their longest common prefix ends. -/
theorem firstMismatch?_eq_some
    (h : IsLongestCommonPrefix shared (shown (longer expected actual) expected)
      (shown (longer expected actual) actual))
    (hne : shown (longer expected actual) expected ≠ shown (longer expected actual) actual) :
    firstMismatch? expected actual = some shared.length := by
  have differs := mt getElem?_shown_eq_iff.2 (h.differ hne)
  push Not at differs
  refine List.find?_range_eq_some.2 ⟨by simpa using differs.2, List.mem_range.2 differs.1, ?_⟩
  intro j hj
  have same := (List.prefix_iff_getElem?.1 h.left j hj).trans
    (List.prefix_iff_getElem?.1 h.right j hj).symm
  simpa using getElem?_shown_eq_iff.1 same (hj.trans differs.1)

/-- Lists are shown with their own longest common prefix, unless one ends where the other goes on
with a line that looks like a missing one. -/
theorem IsLongestCommonPrefix.shown (h : IsLongestCommonPrefix shared expected actual)
    (hne : expected ≠ actual) (hexpected : ¬expected ++ [missing] <+: actual)
    (hactual : ¬actual ++ [missing] <+: expected) :
    IsLongestCommonPrefix shared (shown (longer expected actual) expected)
      (shown (longer expected actual) actual) := by
  refine isLongestCommonPrefix_of_differ (h.left.trans (List.prefix_append ..))
    (h.right.trans (List.prefix_append ..)) (mt getElem?_shown_eq_iff.1 ?_)
  have differ := h.differ hne
  obtain ⟨⟨rest, rfl⟩, ⟨rest', rfl⟩, -⟩ := h
  cases rest with
  | nil =>
    cases rest' with
    | nil => exact absurd rfl hne
    | cons y rest' =>
      have apart : missing ≠ y := by
        rintro rfl
        exact hexpected ⟨rest', by simp⟩
      simpa [lineAt, longer] using apart
  | cons x rest =>
    cases rest' with
    | nil =>
      have apart : x ≠ missing := by
        rintro rfl
        exact hactual ⟨rest, by simp⟩
      simpa [lineAt, longer] using apart
    | cons y rest' => simpa [lineAt, longer] using differ

/-! ### The report -/

/-- A line of both lists as it is listed: its number, what each list has there, and whether it is
marked. -/
structure Row where
  number : Nat
  expected : Option String
  actual : Option String
  marked : Bool

/-- The text of a row. -/
def Row.text (row : Row) : String :=
  let start := (if row.marked then "> " else "  ") ++ numberField row.number
  start ++ "  expected: " ++ row.expected.getD missing ++ "\n" ++
    start ++ "    actual: " ++ row.actual.getD missing ++ "\n"

/-- The rows around line `k`: from two lines before it to two lines after it, as far as there are
lines, with the lines of both lists. Line `k` alone is marked. -/
structure IsWindow (expected actual : List String) (k : Nat) (rows : List Row) : Prop where
  among : k ≤ longer expected actual
  numbers : rows.map Row.number = List.range' (max 1 (k - 2))
    (min (k + 2) (longer expected actual) + 1 - max 1 (k - 2))
  expected : ∀ row ∈ rows, row.expected = expected[row.number - 1]?
  actual : ∀ row ∈ rows, row.actual = actual[row.number - 1]?
  marked : ∀ row ∈ rows, row.marked = true ↔ row.number = k

/-- What a paragraph on a line that differs begins with. -/
def heading : String := "first mismatch at line "

/-- The paragraph on line `k`, with rows for the lines around it. -/
def paragraph (expected actual : List String) (k : Nat) (rows : List Row) : String :=
  heading ++ toString k ++ " (showing " ++ toString (max 1 (k - 2)) ++ "..=" ++
    toString (min (k + 2) (longer expected actual)) ++ "):\n" ++ String.join (rows.map Row.text)

/-- The last line of a report. -/
def summary (expected actual : List String) : String :=
  "expected " ++ toString expected.length ++ " lines, actual " ++ toString actual.length ++
    " lines\n"

/-- The row of a line, by its number from zero, where line `i` differs. -/
def rowAt (expected actual : List String) (i j : Nat) : Row where
  number := j + 1
  expected := expected[j]?
  actual := actual[j]?
  marked := j = i

theorem text_rowAt (expected actual : List String) (i j : Nat) :
    (rowAt expected actual i j).text = showLine expected actual i j := by
  simp only [showLine, Row.text, rowAt, lineAt, decide_eq_true_eq]

theorem isWindow_rows (h : i < longer expected actual) :
    IsWindow expected actual (i + 1)
      ((List.range' (i - 2) (min (i + 3) (longer expected actual) - (i - 2))).map
        (rowAt expected actual i)) := by
  refine ⟨h, ?_, ?_, ?_, ?_⟩
  · have count : min (i + 3) (longer expected actual) - (i - 2) =
        min (i + 1 + 2) (longer expected actual) + 1 - max 1 (i + 1 - 2) := by omega
    have first : 1 + (i - 2) = max 1 (i + 1 - 2) := by omega
    have numbers : Row.number ∘ rowAt expected actual i = fun j => 1 + j :=
      funext fun j => Nat.add_comm j 1
    rw [List.map_map, numbers, List.map_add_range', first, count]
  · exact List.forall_mem_map.2 fun j _ => rfl
  · exact List.forall_mem_map.2 fun j _ => rfl
  · exact List.forall_mem_map.2 fun j _ => by simp [rowAt]

/-- The paragraph of a report, in rows. -/
theorem showMismatch_eq (expected actual : List String) (i : Nat) :
    showMismatch expected actual i = paragraph expected actual (i + 1)
      ((List.range' (i - 2) (min (i + 3) (longer expected actual) - (i - 2))).map
        (rowAt expected actual i)) := by
  have first : i - 2 + 1 = max 1 (i + 1 - 2) := by omega
  have texts : Row.text ∘ rowAt expected actual i = showLine expected actual i :=
    funext (text_rowAt expected actual i)
  rw [paragraph, List.map_map, texts, ← first]
  rfl

theorem report_of_some (h : firstMismatch? expected actual = some i) :
    ∃ rows, IsWindow expected actual (i + 1) rows ∧
      report expected actual =
        paragraph expected actual (i + 1) rows ++ summary expected actual := by
  have inside : i < longer expected actual :=
    List.mem_range.1 (List.find?_range_eq_some.1 h).2.1
  refine ⟨_, isWindow_rows inside, ?_⟩
  rw [report, h, Option.elim_some, showMismatch_eq, summary]
  simp only [String.append_assoc]

theorem report_of_none (h : firstMismatch? expected actual = none) :
    report expected actual = summary expected actual := by
  rw [report, h, Option.elim_none, String.empty_append, summary]

/-- The last line of a report contains no heading. -/
theorem not_heading_infix_summary (expected actual : List String) :
    ¬heading.toList <:+: (summary expected actual).toList := by
  intro h
  have among : 'm' ∈ (summary expected actual).toList := h.subset (by decide)
  have digits (n : Nat) : 'm' ∉ Nat.toDigits 10 n := fun hm =>
    absurd (Nat.isDigit_of_mem_toDigits (by decide) (by decide) hm) (by decide)
  simp [summary, digits] at among

/-! ### What a report points at -/

/-- The report on two lists of lines points at the first difference of `xs` and `ys`: it contains a
paragraph if these differ, on the line after their longest common prefix. -/
structure PointsAtDifference (expected actual xs ys : List String) : Prop where
  heading : heading.toList <:+: (report expected actual).toList ↔ xs ≠ ys
  window : ∀ shared, IsLongestCommonPrefix shared xs ys → xs ≠ ys →
    ∃ rows, IsWindow expected actual (shared.length + 1) rows ∧
      report expected actual =
        paragraph expected actual (shared.length + 1) rows ++ summary expected actual

theorem pointsAtDifference_shown (expected actual : List String) :
    PointsAtDifference expected actual (shown (longer expected actual) expected)
      (shown (longer expected actual) actual) := by
  refine ⟨⟨fun hinfix same => ?_, fun hne => ?_⟩, fun shared hshared hne => ?_⟩
  · rw [report_of_none (firstMismatch?_eq_none_iff.2 same)] at hinfix
    exact not_heading_infix_summary expected actual hinfix
  · obtain ⟨i, hfound⟩ := Option.ne_none_iff_exists'.1 (mt firstMismatch?_eq_none_iff.1 hne)
    obtain ⟨rows, -, htext⟩ := report_of_some hfound
    rw [htext, paragraph]
    simp only [String.append_assoc, String.toList_append]
    exact (List.prefix_append ..).isInfix
  · exact report_of_some (firstMismatch?_eq_some hshared hne)

/-- Lists are shown in the same way only if they are equal, unless one ends where the other goes on
with a line that looks like a missing one. -/
theorem shown_eq_shown_iff (hexpected : ¬expected ++ [missing] <+: actual)
    (hactual : ¬actual ++ [missing] <+: expected) :
    shown (longer expected actual) expected = shown (longer expected actual) actual ↔
      expected = actual := by
  refine ⟨fun same => ?_, fun same => by rw [same]⟩
  by_contra hne
  obtain ⟨shared, hshared⟩ := exists_isLongestCommonPrefix expected actual
  have differ := hshared.differ hne
  have long : longer expected actual ≤ shared.length := by
    have whole := (hshared.shown hne hexpected hactual).longest _ (List.prefix_refl _)
      (same ▸ List.prefix_refl _)
    have filled : (shown (longer expected actual) expected).length = longer expected actual := by
      rw [shown, List.length_append, List.length_replicate]
      exact Nat.add_sub_cancel' (Nat.le_max_left _ _)
    rwa [filled] at whole
  rw [longer, Nat.max_le] at long
  rw [List.getElem?_eq_none long.1, List.getElem?_eq_none long.2] at differ
  exact differ rfl

/-- The report on two lists of lines points at the first difference of the lists as they are shown.
That is the first difference of the lists themselves, unless one of them ends where the other goes
on with a line that looks like a missing one. -/
theorem pointsAtDifference_report (expected actual : List String) :
    PointsAtDifference expected actual (shown (longer expected actual) expected)
      (shown (longer expected actual) actual) ∧
    (¬expected ++ [missing] <+: actual → ¬actual ++ [missing] <+: expected →
      PointsAtDifference expected actual expected actual) := by
  have points := pointsAtDifference_shown expected actual
  refine ⟨points, fun hexpected hactual => ?_⟩
  have same := shown_eq_shown_iff hexpected hactual
  refine ⟨points.heading.trans (not_congr same), fun shared hshared hne => ?_⟩
  exact points.window shared (hshared.shown hne hexpected hactual) (mt same.1 hne)

/-- Lists that differ in their second line. -/
theorem pointsAtDifference_report_secondLine :
    ∃ rows, IsWindow ["a", "b"] ["a", "c"] 2 rows ∧
      report ["a", "b"] ["a", "c"] =
        paragraph ["a", "b"] ["a", "c"] 2 rows ++ summary ["a", "b"] ["a", "c"] := by
  have shared : IsLongestCommonPrefix ["a"] ["a", "b"] ["a", "c"] :=
    isLongestCommonPrefix_of_differ (by decide) (by decide) (by decide)
  exact ((pointsAtDifference_report ["a", "b"] ["a", "c"]).2 (by decide) (by decide)).window ["a"]
    shared (by decide)

/-- Lists that differ, though nothing is pointed at. -/
theorem pointsAtDifference_report_unseen :
    [missing] ≠ [] ∧ ¬heading.toList <:+: (report [missing] []).toList := by
  decide +kernel

end MarkupTree.LineDiff
