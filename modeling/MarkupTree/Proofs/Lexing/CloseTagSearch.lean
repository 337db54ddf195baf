import MarkupTree.Markup.Void
import MarkupTree.Proofs.Lexing.Octets

/-!
# The search for a close tag, on bytes

Raw text is cut at the first place where its close tag stands (`breakRawText`), and the definition
tries all places. This file has the search as it is done on bytes. It jumps from one `<` to the
next, and gives up as soon as too few bytes are left for a close tag. Each *pass* of it makes one
jump, and then has found a close tag, or gives up, or goes on behind the `<`. The jumps are made by
a function that is not part of the library; all that is asked of it is that it finds the first
occurrence of a byte (`CloseTagSearch.FindsFirst`).

A pass leaves out no place where a close tag starts (`CloseTagSearch.isRight_pass`). So the search
finds the first close tag of any bytes, if there is one, and for the bytes of a text this is the
place where the text is cut.

## Main definitions

* `CloseTagSearch.ClosesAt` : where in a row of bytes a close tag stands.
* `CloseTagSearch.pass`, `CloseTagSearch.EndsAfter` : one pass, and the number of passes.
* `CloseTagSearch.search` : the search.

## Main results

* `CloseTagSearch.closeAt?_eq_some_iff` : a place is tested for a close tag.
* `CloseTagSearch.answers_searchFrom` : what the search finds from a place on.
* `CloseTagSearch.exists_endsAfter` : the number of passes is bounded by the occurrences of `<`.
* `CloseTagSearch.search_leftmost` : the search finds the first close tag, and raw text ends there.
-/

namespace MarkupTree.CloseTagSearch

open Octets

/-- How a close tag of the element `name` starts, in bytes. -/
def needle (name : String) : List UInt8 := ofText ('<' :: '/' :: name.toList)

/-- A row of bytes is a close tag: the needle in any letter case, white space, and `>`. -/
def IsCloseTag (needle source : List UInt8) : Prop :=
  ∃ spelled blanks, source = spelled ++ blanks ++ ['>'.toUInt8] ∧
    spelled.map lower = needle.map lower ∧ blanks.all isBlank

/-- A close tag stands in `bytes` from place `i` up to, and not with, place `e`. -/
def ClosesAt (needle bytes : List UInt8) (i e : Nat) : Prop :=
  ∃ before source after, bytes = before ++ source ++ after ∧ IsCloseTag needle source ∧
    before.length = i ∧ (before ++ source).length = e

/-! ### The search -/

/-- The needle stands at place `i`, letter case aside. -/
def startsAt (needle bytes : List UInt8) (i : Nat) : Bool :=
  ((bytes.drop i).take needle.length).map lower == needle.map lower

/-- The first place from `k` on that has no white space. -/
def skipBlanks (bytes : List UInt8) (k : Nat) : Nat :=
  k + ((bytes.drop k).takeWhile isBlank).length

/-- Where the close tag ends that starts at place `i`. -/
def closeAt? (needle bytes : List UInt8) (i : Nat) : Option Nat :=
  if startsAt needle bytes i then
    let k := skipBlanks bytes (i + needle.length)
    if bytes[k]? = some '>'.toUInt8 then some (k + 1) else none
  else none

/-- What one pass of the search leads to: the answer, or a place to go on from. -/
inductive Pass
  | ended (answer : Option (Nat × Nat))
  | goesOn (place : Nat)

/-- A function finds the first occurrence of a byte. -/
structure FindsFirst (firstIndex : UInt8 → List UInt8 → Option Nat) : Prop where
  eq_some_iff (b : UInt8) (bytes : List UInt8) (n : Nat) :
    firstIndex b bytes = some n ↔ bytes[n]? = some b ∧ ∀ m < n, bytes[m]? ≠ some b
  eq_none_iff (b : UInt8) (bytes : List UInt8) : firstIndex b bytes = none ↔ b ∉ bytes

theorem findsFirst_idxOf? : FindsFirst fun b bytes => bytes.idxOf? b where
  eq_some_iff b bytes n := by
    rw [List.idxOf?_eq_some_iff]
    constructor
    · rintro ⟨hlt, hb, hother⟩
      exact ⟨List.getElem?_eq_some_iff.2 ⟨hlt, hb⟩,
        fun m hm h => hother m hm (List.getElem?_eq_some_iff.1 h).2⟩
    · rintro ⟨h, hother⟩
      obtain ⟨hlt, hb⟩ := List.getElem?_eq_some_iff.1 h
      exact ⟨hlt, hb, fun m hm h => hother m hm (List.getElem?_eq_some_iff.2 ⟨_, h⟩)⟩
  eq_none_iff b bytes := List.idxOf?_eq_none_iff

section Search

variable (firstIndex : UInt8 → List UInt8 → Option Nat)

/-- One pass of the search, from place `i` on. -/
def pass (needle bytes : List UInt8) (i : Nat) : Pass :=
  if i + needle.length ≤ bytes.length then
    match firstIndex '<'.toUInt8 (bytes.drop i) with
    | none => .ended none
    | some skipped =>
      if bytes.length < i + skipped + needle.length then .ended none
      else
        match closeAt? needle bytes (i + skipped) with
        | some e => .ended (some (i + skipped, e))
        | none => .goesOn (i + skipped + 1)
  else .ended none

/-- From place `i` on, the search ends after a number of passes with an answer. -/
inductive EndsAfter (needle bytes : List UInt8) : (passes i : Nat) → Option (Nat × Nat) → Prop
  | ended {i : Nat} {answer : Option (Nat × Nat)}
      (h : pass firstIndex needle bytes i = .ended answer) : EndsAfter needle bytes 1 i answer
  | goesOn {i j passes : Nat} {answer : Option (Nat × Nat)}
      (h : pass firstIndex needle bytes i = .goesOn j)
      (more : EndsAfter needle bytes passes j answer) : EndsAfter needle bytes (passes + 1) i answer

variable {firstIndex} in
theorem pass_eq_goesOn {needle bytes : List UInt8} {i j : Nat}
    (h : pass firstIndex needle bytes i = .goesOn j) :
    ∃ skipped, firstIndex '<'.toUInt8 (bytes.drop i) = some skipped ∧ j = i + skipped + 1 ∧
      i + skipped + needle.length ≤ bytes.length := by
  unfold pass at h
  split at h
  · split at h
    · cases h
    · next skipped hskip =>
      split at h
      · cases h
      · next hlong =>
        split at h
        · cases h
        · cases h
          exact ⟨skipped, hskip, rfl, Nat.le_of_not_lt hlong⟩
  · cases h

/-- The search from place `i` on: one pass after the other, until one ends it. -/
def searchFrom (needle bytes : List UInt8) (i : Nat) : Option (Nat × Nat) :=
  match _h : pass firstIndex needle bytes i with
  | .ended answer => answer
  | .goesOn j => searchFrom needle bytes j
termination_by bytes.length + 1 - i
decreasing_by
  obtain ⟨skipped, -, rfl, inside⟩ := pass_eq_goesOn _h
  omega

/-- The search for a close tag: where it starts and where it ends. -/
def search (needle bytes : List UInt8) : Option (Nat × Nat) :=
  searchFrom firstIndex needle bytes 0

end Search

/-! ### Close tags, and what the search tests -/

section Tested

variable {needle bytes : List UInt8} {i e : Nat}

theorem ClosesAt.lt (h : ClosesAt needle bytes i e) : i + needle.length < e ∧ e ≤ bytes.length := by
  obtain ⟨before, _, after, rfl, ⟨spelled, blanks, rfl, hspelled, -⟩, rfl, rfl⟩ := h
  have length := congrArg List.length hspelled
  simp only [List.length_map, List.length_append, List.length_singleton] at length ⊢
  omega

/-- A close tag starts with a `<`, if its needle does. -/
theorem ClosesAt.getElem? {word : List UInt8}
    (h : ClosesAt ('<'.toUInt8 :: word) bytes i e) : bytes[i]? = some '<'.toUInt8 := by
  obtain ⟨before, _, after, rfl, ⟨spelled, blanks, rfl, hspelled, -⟩, rfl, -⟩ := h
  cases spelled with
  | nil => simp at hspelled
  | cons b spelled =>
    obtain rfl : b = '<'.toUInt8 := eq_of_lower_eq_lt (List.cons.inj hspelled).1
    simp

/-- What lies between a place and the end of the white space there. -/
theorem exists_blanks {b : UInt8} {k : Nat} (h : bytes[skipBlanks bytes k]? = some b) :
    ∃ blanks, blanks.all isBlank ∧ k + blanks.length = skipBlanks bytes k ∧
      bytes.drop k = blanks ++ b :: bytes.drop (skipBlanks bytes k + 1) := by
  obtain ⟨hlt, hb⟩ := List.getElem?_eq_some_iff.1 h
  have parts : (bytes.drop k).takeWhile isBlank ++ (bytes.drop k).dropWhile isBlank =
      bytes.drop k := List.takeWhile_append_dropWhile
  have rest : bytes.drop (skipBlanks bytes k) = (bytes.drop k).dropWhile isBlank := by
    rw [skipBlanks, ← List.drop_drop]
    exact (congrArg (List.drop _) parts.symm).trans List.drop_left
  refine ⟨(bytes.drop k).takeWhile isBlank, List.all_takeWhile, rfl, ?_⟩
  rw [← hb, ← List.drop_eq_getElem_cons hlt, rest, parts]

theorem closesAt_of_closeAt? (h : closeAt? needle bytes i = some e) :
    ClosesAt needle bytes i e := by
  unfold closeAt? at h
  split at h
  · next hstart =>
    dsimp only at h
    split at h
    · next hmark =>
      cases h
      obtain ⟨blanks, hblanks, hlength, hrest⟩ := exists_blanks hmark
      have inside := (List.getElem?_eq_some_iff.1 hmark).1
      have hspelled : ((bytes.drop i).take needle.length).map lower = needle.map lower :=
        beq_iff_eq.1 hstart
      have size : ((bytes.drop i).take needle.length).length = needle.length := by
        simpa only [List.length_map] using congrArg List.length hspelled
      have left : (bytes.take i).length = i := List.length_take_of_le (by omega)
      refine ⟨bytes.take i, _, bytes.drop (skipBlanks bytes (i + needle.length) + 1), ?_,
        ⟨_, blanks, rfl, hspelled, hblanks⟩, left, ?_⟩
      · calc bytes
            = bytes.take i ++ ((bytes.drop i).take needle.length ++
                bytes.drop (i + needle.length)) := by
              rw [← List.drop_drop, List.take_append_drop needle.length, List.take_append_drop]
          _ = _ := by rw [hrest]; simp
      · simp only [List.length_append, List.length_singleton, size, left]
        omega
    · cases h
  · cases h

theorem closeAt?_of_drop {spelled blanks after : List UInt8}
    (hspelled : spelled.map lower = needle.map lower) (hblanks : blanks.all isBlank)
    (hdrop : bytes.drop i = spelled ++ (blanks ++ '>'.toUInt8 :: after)) :
    closeAt? needle bytes i = some (i + spelled.length + blanks.length + 1) := by
  have size : needle.length = spelled.length := by
    simpa only [List.length_map] using (congrArg List.length hspelled).symm
  have start : startsAt needle bytes i = true := by
    rw [startsAt, hdrop, size, List.take_left]
    exact beq_iff_eq.2 hspelled
  have rest : bytes.drop (i + spelled.length) = blanks ++ '>'.toUInt8 :: after := by
    rw [← List.drop_drop, hdrop, List.drop_left]
  have mark : ('>'.toUInt8 :: after).takeWhile isBlank = [] := rfl
  have skip : skipBlanks bytes (i + needle.length) = i + spelled.length + blanks.length := by
    rw [skipBlanks, size, rest, List.takeWhile_append_of_pos (List.all_eq_true.1 hblanks), mark,
      List.append_nil]
  have found : bytes[i + spelled.length + blanks.length]? = some '>'.toUInt8 := by
    rw [← List.getElem?_drop, rest, List.getElem?_append_right le_rfl, Nat.sub_self,
      List.getElem?_cons_zero]
  rw [closeAt?, if_pos start]
  dsimp only
  rw [skip, if_pos found]

theorem closeAt?_of_closesAt (h : ClosesAt needle bytes i e) :
    closeAt? needle bytes i = some e := by
  obtain ⟨before, _, after, rfl, ⟨spelled, blanks, rfl, hspelled, hblanks⟩, rfl, rfl⟩ := h
  have behind : (before ++ (spelled ++ blanks ++ ['>'.toUInt8]) ++ after).drop before.length =
      spelled ++ (blanks ++ '>'.toUInt8 :: after) := by
    rw [List.append_assoc, List.drop_left]
    simp only [List.append_assoc, List.singleton_append]
  rw [closeAt?_of_drop hspelled hblanks behind]
  simp only [List.length_append, List.length_singleton, Nat.add_assoc]

/-- The test of a place finds the close tag that stands there. -/
theorem closeAt?_eq_some_iff : closeAt? needle bytes i = some e ↔ ClosesAt needle bytes i e :=
  ⟨closesAt_of_closeAt?, closeAt?_of_closesAt⟩

end Tested

/-! ### The first close tag -/

/-- What a search from place `i` on has to answer: the first close tag that starts there or
later. -/
def Answers (needle bytes : List UInt8) (i : Nat) : Option (Nat × Nat) → Prop
  | none => ∀ place stop, i ≤ place → ¬ClosesAt needle bytes place stop
  | some (found, e) => i ≤ found ∧ ClosesAt needle bytes found e ∧
      ∀ place stop, i ≤ place → ClosesAt needle bytes place stop → found ≤ place

section First

variable {firstIndex : UInt8 → List UInt8 → Option Nat} {word bytes : List UInt8} {i j : Nat}

/-- An answer from a later place on is one from `i` on, if no close tag starts in between. -/
theorem Answers.of_le {needle : List UInt8} {answer : Option (Nat × Nat)} (hij : i ≤ j)
    (hskip : ∀ place stop, i ≤ place → place < j → ¬ClosesAt needle bytes place stop)
    (h : Answers needle bytes j answer) : Answers needle bytes i answer := by
  have later (place stop : Nat) (hi : i ≤ place) (hc : ClosesAt needle bytes place stop) :
      j ≤ place := by
    by_contra hlt
    exact hskip place stop hi (Nat.lt_of_not_le hlt) hc
  match answer, h with
  | none, h => exact fun place stop hi hc => h place stop (later place stop hi hc) hc
  | some (found, e), ⟨hle, hclose, hfirst⟩ =>
    exact ⟨hij.trans hle, hclose, fun place stop hi hc =>
      hfirst place stop (later place stop hi hc) hc⟩

/-- Before the `<` that a pass jumps to, no close tag starts. -/
theorem FindsFirst.le_of_closesAt (hfirst : FindsFirst firstIndex) {skipped place stop : Nat}
    (h : firstIndex '<'.toUInt8 (bytes.drop i) = some skipped) (hi : i ≤ place)
    (hclose : ClosesAt ('<'.toUInt8 :: word) bytes place stop) : i + skipped ≤ place := by
  obtain ⟨ahead, rfl⟩ := Nat.exists_eq_add_of_le hi
  have here := hclose.getElem?
  rw [← List.getElem?_drop] at here
  by_contra hlt
  exact ((hfirst.eq_some_iff ..).1 h).2 ahead (by omega) here

/-- What a pass from place `i` on has to do: give the answer, or go on from a place before which no
close tag starts. -/
def Pass.IsRight (needle bytes : List UInt8) (i : Nat) : Pass → Prop
  | ended answer => Answers needle bytes i answer
  | goesOn j => ∀ place stop, i ≤ place → place < j → ¬ClosesAt needle bytes place stop

/-- Each pass gives the answer or leaves out no place where a close tag starts. -/
theorem isRight_pass (hfirst : FindsFirst firstIndex) (word bytes : List UInt8) (i : Nat) :
    (pass firstIndex ('<'.toUInt8 :: word) bytes i).IsRight ('<'.toUInt8 :: word) bytes i := by
  unfold pass
  split
  · split
    · next hnone =>
      -- No `<` is left.
      intro place stop hi hclose
      obtain ⟨ahead, rfl⟩ := Nat.exists_eq_add_of_le hi
      have here := hclose.getElem?
      rw [← List.getElem?_drop] at here
      exact (hfirst.eq_none_iff ..).1 hnone (List.mem_of_getElem? here)
    · next skipped hskip =>
      have later (place stop : Nat) (hi : i ≤ place) :
          ClosesAt ('<'.toUInt8 :: word) bytes place stop → i + skipped ≤ place :=
        hfirst.le_of_closesAt hskip hi
      split
      · next hshort =>
        intro place stop hi hclose
        have := later place stop hi hclose
        have := hclose.lt
        omega
      · split
        · next e hfound =>
          exact ⟨Nat.le_add_right .., closeAt?_eq_some_iff.1 hfound, later⟩
        · next hmiss =>
          intro place stop hi hlt hclose
          obtain rfl : place = i + skipped := by
            have := later place stop hi hclose
            omega
          rw [closeAt?_eq_some_iff.2 hclose] at hmiss
          cases hmiss
  · next hshort =>
    intro place stop hi hclose
    have := hclose.lt
    omega

/-- From each place on, the search finds the first close tag. -/
theorem answers_searchFrom (hfirst : FindsFirst firstIndex) (word bytes : List UInt8) (i : Nat) :
    Answers ('<'.toUInt8 :: word) bytes i
      (searchFrom firstIndex ('<'.toUInt8 :: word) bytes i) := by
  fun_induction searchFrom firstIndex ('<'.toUInt8 :: word) bytes i with
  | case1 i answer h =>
    have right := isRight_pass hfirst word bytes i
    rwa [h] at right
  | case2 i j h ih =>
    have right := isRight_pass hfirst word bytes i
    rw [h] at right
    obtain ⟨skipped, -, rfl, -⟩ := pass_eq_goesOn h
    exact ih.of_le (by omega) right

theorem count_drop_lt {b : UInt8} {k : Nat} (h : bytes[k]? = some b) (hi : i ≤ k) :
    (bytes.drop (k + 1)).count b < (bytes.drop i).count b := by
  obtain ⟨ahead, rfl⟩ := Nat.exists_eq_add_of_le hi
  obtain ⟨hlt, hb⟩ := List.getElem?_eq_some_iff.1 h
  calc (bytes.drop (i + ahead + 1)).count b
      < (bytes.drop (i + ahead)).count b := by
        rw [List.drop_eq_getElem_cons hlt, hb, List.count_cons_self]
        exact Nat.lt_succ_self _
    _ ≤ (bytes.drop i).count b := by
        rw [← List.drop_drop]
        exact (List.drop_sublist _ _).count_le b

/-- Each pass but the last uses up a `<`. -/
theorem exists_endsAfter (hfirst : FindsFirst firstIndex) (needle bytes : List UInt8) (i : Nat) :
    ∃ passes ≤ (bytes.drop i).count '<'.toUInt8 + 1,
      EndsAfter firstIndex needle bytes passes i (searchFrom firstIndex needle bytes i) := by
  fun_induction searchFrom firstIndex needle bytes i with
  | case1 i answer h => exact ⟨1, Nat.le_add_left .., .ended h⟩
  | case2 i j h ih =>
    obtain ⟨passes, hle, hends⟩ := ih
    obtain ⟨skipped, hskip, rfl, -⟩ := pass_eq_goesOn h
    have here := ((hfirst.eq_some_iff ..).1 hskip).1
    rw [List.getElem?_drop] at here
    have fewer := count_drop_lt here (Nat.le_add_right i skipped)
    exact ⟨passes + 1, by omega, .goesOn h hends⟩

theorem search_eq_some_iff (hfirst : FindsFirst firstIndex) {e : Nat} :
    search firstIndex ('<'.toUInt8 :: word) bytes = some (i, e) ↔
      ClosesAt ('<'.toUInt8 :: word) bytes i e ∧
        ∀ place stop, ClosesAt ('<'.toUInt8 :: word) bytes place stop → i ≤ place := by
  have answers := answers_searchFrom hfirst word bytes 0
  constructor
  · intro h
    rw [← search, h] at answers
    exact ⟨answers.2.1, fun place stop => answers.2.2 place stop place.zero_le⟩
  · rintro ⟨hclose, hfirst⟩
    cases h : search firstIndex ('<'.toUInt8 :: word) bytes with
    | none =>
      rw [← search, h] at answers
      exact absurd hclose (answers i e i.zero_le)
    | some found =>
      obtain ⟨j, stop⟩ := found
      rw [← search, h] at answers
      obtain ⟨-, hclose', hfirst'⟩ := answers
      obtain rfl := Nat.le_antisymm (hfirst' i e i.zero_le hclose) (hfirst j stop hclose')
      have same := (closeAt?_eq_some_iff.2 hclose').symm.trans (closeAt?_eq_some_iff.2 hclose)
      rw [Option.some.inj same]

theorem search_eq_none_iff (hfirst : FindsFirst firstIndex) :
    search firstIndex ('<'.toUInt8 :: word) bytes = none ↔
      ∀ place stop, ¬ClosesAt ('<'.toUInt8 :: word) bytes place stop := by
  have answers := answers_searchFrom hfirst word bytes 0
  rw [← search] at answers
  constructor
  · intro h place stop
    rw [h] at answers
    exact answers place stop place.zero_le
  · intro hnone
    cases h : search firstIndex ('<'.toUInt8 :: word) bytes with
    | none => rfl
    | some found =>
      rw [h] at answers
      exact absurd answers.2.1 (hnone _ _)

end First

/-! ### Texts -/

section Texts

variable {firstIndex : UInt8 → List UInt8 → Option Nat} {name : String} {s : List Char}

theorem needle_eq_cons (name : String) :
    needle name = '<'.toUInt8 :: ofText ('/' :: name.toList) := rfl

/-- The elements with raw text have ASCII names in small letters. -/
theorem isAscii_of_hasRawText (hraw : hasRawText name) :
    IsAscii ('<' :: '/' :: name.toList) ∧
      Ascii.lower ('<' :: '/' :: name.toList) = '<' :: '/' :: name.toList := by
  simp only [hasRawText, Bool.or_eq_true, beq_iff_eq] at hraw
  rcases hraw with rfl | rfl <;> exact ⟨by simp [IsAscii], by decide⟩

theorem map_lower_needle (hraw : hasRawText name) :
    (needle name).map lower = needle name := by
  obtain ⟨ascii, small⟩ := isAscii_of_hasRawText hraw
  rw [needle, ascii.map_lower_ofText, small]

theorem IsCloseTag.lt {source : List UInt8} (hraw : hasRawText name)
    (h : IsCloseTag (needle name) source) : ∀ b ∈ source, b.toNat < 128 := by
  obtain ⟨spelled, blanks, rfl, hspelled, hblanks⟩ := h
  have spelledAscii (b : UInt8) (hb : b ∈ spelled) : b.toNat < 128 := by
    have hlower : lower b ∈ needle name := by
      rw [← map_lower_needle hraw, ← hspelled]
      exact List.mem_map_of_mem hb
    exact lt_of_lower_lt ((isAscii_of_hasRawText hraw).1.lt_of_mem_ofText hlower)
  intro b hb
  simp only [List.mem_append, List.mem_singleton] at hb
  rcases hb with (hb | hb) | rfl
  · exact spelledAscii b hb
  · exact lt_of_isBlank (List.all_eq_true.1 hblanks b hb)
  · decide

/-- A text is a close tag exactly if its bytes are. -/
theorem isCloseTag_ofText_iff (hraw : hasRawText name) {source rest : List Char} :
    IsCloseTag (needle name) (ofText source) ↔
      closeTag? name (source ++ rest) = some (source, rest) := by
  rw [closeTag?_eq_some_iff]
  obtain ⟨ascii, small⟩ := isAscii_of_hasRawText hraw
  constructor
  · intro h
    have bytes := h.lt hraw
    obtain ⟨spelled, blanks, hsource, hspelled, hblanks⟩ := h
    rw [hsource] at bytes
    rw [List.append_assoc] at hsource
    obtain ⟨x, v, rfl, hx, rfl, hv⟩ :=
      exists_of_ofText_eq_ascii (fun b hb => bytes b (by simp [hb])) hsource
    obtain ⟨y, z, rfl, hy, rfl, hz⟩ :=
      exists_of_ofText_eq_ascii (fun b hb => bytes b (by simp [hb])) hv
    obtain rfl : z = ['>'] := ofText_injective hz
    rw [hx.map_lower_ofText, map_lower_needle hraw] at hspelled
    rw [hy.all_isBlank_ofText] at hblanks
    exact ⟨x, y, ofText_injective hspelled, hblanks, (List.append_assoc ..).symm, rfl⟩
  · rintro ⟨spelled, blanks, hlower, hblanks, rfl, -⟩
    have hspelled : IsAscii spelled := IsAscii.of_lower (hlower ▸ ascii)
    have hwhite : IsAscii blanks := IsAscii.of_all_isBlank hblanks
    refine ⟨ofText spelled, ofText blanks, by rw [ofText_append, ofText_append]; rfl, ?_, ?_⟩
    · rw [hspelled.map_lower_ofText, hlower, map_lower_needle hraw, needle]
    · rwa [hwhite.all_isBlank_ofText]

/-- Close tags among the bytes of a text are close tags in the text. -/
theorem closesAt_ofText_iff (hraw : hasRawText name) {i e : Nat} :
    ClosesAt (needle name) (ofText s) i e ↔
      ∃ before source rest, s = before ++ (source ++ rest) ∧
        closeTag? name (source ++ rest) = some (source, rest) ∧
        byteSize before = i ∧ byteSize before + byteSize source = e := by
  constructor
  · rintro ⟨before, source, after, hs, hsource, rfl, rfl⟩
    have bytes := hsource.lt hraw
    have split : ∃ u v, s = u ++ v ∧ ofText u = before ∧ ofText v = source ++ after := by
      cases source with
      | nil =>
        obtain ⟨spelled, blanks, hnil, -⟩ := hsource
        simp at hnil
      | cons b source =>
        rw [List.append_assoc] at hs
        exact exists_of_ofText_eq_append (bytes b List.mem_cons_self) hs
    obtain ⟨u, v, rfl, rfl, hv⟩ := split
    obtain ⟨x, y, rfl, -, rfl, -⟩ := exists_of_ofText_eq_ascii bytes hv
    refine ⟨u, x, y, rfl, (isCloseTag_ofText_iff hraw).1 hsource, (length_ofText u).symm, ?_⟩
    rw [List.length_append, length_ofText, length_ofText]
  · rintro ⟨before, source, rest, rfl, htag, rfl, rfl⟩
    refine ⟨ofText before, ofText source, ofText rest, by simp,
      (isCloseTag_ofText_iff hraw).2 htag, length_ofText before, ?_⟩
    rw [List.length_append, length_ofText, length_ofText]

/-- Raw text is cut no later than at a close tag. -/
theorem exists_breakRawText_append (before : List Char) {tail : List Char}
    (h : (closeTag? name tail).isSome) :
    ∃ more, (breakRawText name (before ++ tail)).1 ++ more = before := by
  obtain ⟨more, hbefore, -⟩ | ⟨more, hbody, htail⟩ :=
    List.append_eq_append_iff.1 (breakRawText_append name (before ++ tail))
  · exact ⟨more, hbefore.symm⟩
  · cases more with
    | nil => exact ⟨[], by simpa using hbody⟩
    | cons c more =>
      have passed := Text.stop_of_breakWhere hbody (List.cons_ne_nil c more)
      rw [← breakRawText, ← htail, h] at passed
      cases passed

/-- On the bytes of a text, the search finds the place where the text is cut as raw text, and the
close tag there. -/
theorem search_ofText (hfirst : FindsFirst firstIndex) (hraw : hasRawText name) (s : List Char) :
    search firstIndex (needle name) (ofText s) =
      (closeTag? name (breakRawText name s).2).map fun tag =>
        (byteSize (breakRawText name s).1, byteSize (breakRawText name s).1 + byteSize tag.1) := by
  have whole := breakRawText_append name s
  cases htag : closeTag? name (breakRawText name s).2 with
  | none =>
    have nothing : (breakRawText name s).2 = [] := by
      by_contra hne
      have := closeTag?_breakRawText hne
      rw [htag] at this
      cases this
    rw [Option.map_none, needle_eq_cons, search_eq_none_iff hfirst, ← needle_eq_cons]
    intro place stop hclose
    obtain ⟨before, source, rest, rfl, hsource, -, -⟩ := (closesAt_ofText_iff hraw).1 hclose
    have closes : (closeTag? name (source ++ rest)).isSome := by rw [hsource]; rfl
    obtain ⟨more, hmore⟩ := exists_breakRawText_append before closes
    -- All of the text lies before the close tag.
    rw [nothing, List.append_nil] at whole
    have empty : source ++ rest = [] := by
      rw [whole, List.append_assoc, List.append_right_eq_self] at hmore
      exact (List.append_eq_nil_iff.1 hmore).1
    rw [empty] at hsource
    cases hsource
  | some tag =>
    obtain ⟨source, rest⟩ := tag
    have after : source ++ rest = (breakRawText name s).2 := closeTag?_append htag
    rw [Option.map_some, needle_eq_cons, search_eq_some_iff hfirst, ← needle_eq_cons]
    refine ⟨(closesAt_ofText_iff hraw).2
      ⟨_, source, rest, by rw [after, whole], by rw [after, htag], rfl, rfl⟩,
      fun place stop hclose => ?_⟩
    obtain ⟨before, source', rest', rfl, htag', rfl, -⟩ := (closesAt_ofText_iff hraw).1 hclose
    have closes : (closeTag? name (source' ++ rest')).isSome := by rw [htag']; rfl
    obtain ⟨more, hmore⟩ := exists_breakRawText_append before closes
    have size := congrArg byteSize hmore
    rw [byteSize_append] at size
    omega

/-- The search for the close tag of an element with raw text, in any bytes whatever, ends after at
most one pass more than there are `<`, and answers with the first close tag: with a place where one
starts and with its end, if there is one, and no close tag starts before that place. On the bytes of
a text, the answer is the place where the text is cut as raw text, and the end of the close tag
there. -/
theorem search_leftmost (hfirst : FindsFirst firstIndex) (hraw : hasRawText name) :
    (∀ bytes : List UInt8,
      (∃ passes ≤ bytes.count '<'.toUInt8 + 1, EndsAfter firstIndex (needle name) bytes passes 0
        (search firstIndex (needle name) bytes)) ∧
      ((search firstIndex (needle name) bytes).isSome ↔ ∃ i e, ClosesAt (needle name) bytes i e) ∧
      (∀ i e, search firstIndex (needle name) bytes = some (i, e) ↔
        ClosesAt (needle name) bytes i e ∧
          ∀ place stop, ClosesAt (needle name) bytes place stop → i ≤ place) ∧
      ∀ i e, ClosesAt (needle name) bytes i e → i < e ∧ e ≤ bytes.length) ∧
    ∀ text : String, search firstIndex (needle name) text.toByteArray.data.toList =
      (closeTag? name (breakRawText name text.toList).2).map fun tag =>
        (byteSize (breakRawText name text.toList).1,
          byteSize (breakRawText name text.toList).1 + byteSize tag.1) := by
  refine ⟨fun bytes => ⟨exists_endsAfter hfirst (needle name) bytes 0, ?_,
    fun i e => search_eq_some_iff hfirst,
    fun i e h => ⟨Nat.lt_of_le_of_lt (Nat.le_add_right ..) h.lt.1, h.lt.2⟩⟩, fun text => ?_⟩
  · rw [Option.isSome_iff_ne_none, needle_eq_cons, Ne, search_eq_none_iff hfirst]
    simp only [not_forall, not_not]
  · rw [toByteArray_eq_ofText]
    exact search_ofText hfirst hraw text.toList

/-- A text with near misses, a name that goes on and a needle with another `<` behind, before its
close tag. -/
def nearMisses : String := "é</scriptx></script</SCRIPT \n>"

/-- The near misses are passed over, and the close tag behind them is found. -/
theorem search_leftmost_nearMisses :
    FindsFirst (fun b bytes => bytes.idxOf? b) ∧ hasRawText "script" ∧
    search (fun b bytes => bytes.idxOf? b) (needle "script")
      nearMisses.toByteArray.data.toList = some (20, 31) ∧
    (∃ passes ≤ 4, EndsAfter (fun b bytes => bytes.idxOf? b) (needle "script")
      nearMisses.toByteArray.data.toList passes 0 (some (20, 31))) ∧
    ClosesAt (needle "script") nearMisses.toByteArray.data.toList 20 31 ∧
    ∀ place stop, ClosesAt (needle "script") nearMisses.toByteArray.data.toList place stop →
      20 ≤ place := by
  obtain ⟨bytes, texts⟩ := search_leftmost findsFirst_idxOf? (show hasRawText "script" by decide)
  have found := (texts nearMisses).trans (show _ = some (20, 31) by decide +kernel)
  obtain ⟨passes, -, answer, -⟩ := bytes nearMisses.toByteArray.data.toList
  rw [found] at passes
  exact ⟨findsFirst_idxOf?, by decide, found, passes, (answer 20 31).1 found⟩

end Texts

end MarkupTree.CloseTagSearch
