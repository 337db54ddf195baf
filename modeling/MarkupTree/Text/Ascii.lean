/-!
# ASCII classes and ASCII case

Markup is lexed by ASCII rules alone: its white space, its letters and its letter case are those
of ASCII, and a character outside ASCII belongs to no class and has no case.

## Main definitions

* `Ascii.isBlank` : the white space of markup.
* `Ascii.lower`, `Ascii.lowercase` : letters made small, on lists and on strings.
* `Ascii.equalFold` : equality up to letter case.
* `Ascii.matchWord?` : a word at the head of a text, in any letter case.

## Main results

* `Ascii.isUpper_iff`, `Ascii.isLower_iff`, `Ascii.isAlpha_iff` : letters by their code points.
* `Ascii.isAlpha_toLower`, `Ascii.toLower_toLower` : a letter made small is a small letter.
* `Ascii.matchWord?_spelled` : a word is split off in any spelling.
-/

namespace MarkupTree.Ascii

/-- Space, tab, line feed, form feed and carriage return. -/
def isBlank (c : Char) : Bool :=
  c == ' ' || c == '\t' || c == '\n' || c == '\x0c' || c == '\r'

/-! ### Letters -/

-- The core library defines letters and their case, but has no lemmas about them.

theorem isUpper_iff {c : Char} : c.isUpper = true ↔ 65 ≤ c.toNat ∧ c.toNat ≤ 90 :=
  decide_eq_true_iff.trans (and_congr UInt32.le_iff_toNat_le UInt32.le_iff_toNat_le)

theorem isLower_iff {c : Char} : c.isLower = true ↔ 97 ≤ c.toNat ∧ c.toNat ≤ 122 :=
  Bool.and_eq_true_iff.trans (and_congr (decide_eq_true_iff.trans UInt32.le_iff_toNat_le)
    (decide_eq_true_iff.trans UInt32.le_iff_toNat_le))

theorem isAlpha_iff {c : Char} :
    c.isAlpha = true ↔ 65 ≤ c.toNat ∧ c.toNat ≤ 90 ∨ 97 ≤ c.toNat ∧ c.toNat ≤ 122 :=
  Bool.or_eq_true_iff.trans (or_congr isUpper_iff isLower_iff)

theorem toLower_of_not_isUpper {c : Char} (h : c.isUpper = false) : c.toLower = c :=
  dif_neg (of_decide_eq_false h)

theorem toNat_toLower_of_isUpper {c : Char} (h : c.isUpper = true) :
    c.toLower.toNat = c.toNat + 32 := by
  have small : c.toLower.val = c.val + 32 := congrArg Char.val (dif_pos (of_decide_eq_true h))
  have bound : c.val.toNat ≤ 90 := (isUpper_iff.1 h).2
  calc c.toLower.toNat = (c.val + 32).toNat := congrArg UInt32.toNat small
    _ = (c.val.toNat + 32) % 4294967296 := UInt32.toNat_add c.val 32
    _ = c.val.toNat + 32 := Nat.mod_eq_of_lt (by omega)

theorem isUpper_toLower (c : Char) : c.toLower.isUpper = false := by
  cases h : c.isUpper with
  | false => rw [toLower_of_not_isUpper h, h]
  | true =>
    rw [← Bool.not_eq_true, isUpper_iff, toNat_toLower_of_isUpper h]
    have low := (isUpper_iff.1 h).1
    omega

@[simp] theorem isAlpha_toLower (c : Char) : c.toLower.isAlpha = c.isAlpha := by
  cases h : c.isUpper with
  | false => rw [toLower_of_not_isUpper h]
  | true =>
    rw [Bool.eq_iff_iff, isAlpha_iff, isAlpha_iff, toNat_toLower_of_isUpper h]
    have bounds := isUpper_iff.1 h
    omega

@[simp] theorem toLower_toLower (c : Char) : c.toLower.toLower = c.toLower :=
  toLower_of_not_isUpper (isUpper_toLower c)

/-! ### Letter case -/

/-- A text with its capital letters made small. -/
def lower (s : List Char) : List Char := s.map Char.toLower

/-- A string with its capital letters made small. -/
def lowercase (s : String) : String := String.ofList (lower s.toList)

/-- Equality of strings up to letter case. -/
def equalFold (s t : String) : Bool := lower s.toList == lower t.toList

@[simp] theorem lower_nil : lower [] = [] := rfl

@[simp] theorem lower_cons (c : Char) (s : List Char) : lower (c :: s) = c.toLower :: lower s :=
  rfl

@[simp] theorem lower_append (s t : List Char) : lower (s ++ t) = lower s ++ lower t :=
  List.map_append

@[simp] theorem length_lower (s : List Char) : (lower s).length = s.length :=
  List.length_map _

@[simp] theorem toList_lowercase (s : String) : (lowercase s).toList = lower s.toList :=
  String.toList_ofList

theorem equalFold_iff {s t : String} : equalFold s t ↔ lower s.toList = lower t.toList :=
  beq_iff_eq

theorem equalFold_refl (s : String) : equalFold s s := equalFold_iff.2 rfl

/-! ### Words at the head of a text -/

/-- Splits off a word at the head of a text, as it is spelled there. The word is given in small
letters; the text may have it in any letter case. -/
def matchWord? : (word s : List Char) → Option (List Char × List Char)
  | [], s => some ([], s)
  | _ :: _, [] => none
  | w :: ws, c :: cs =>
    if c.toLower == w then (matchWord? ws cs).map fun r => (c :: r.1, r.2) else none

theorem matchWord?_append {word s spelled rest : List Char}
    (h : matchWord? word s = some (spelled, rest)) : spelled ++ rest = s := by
  induction word generalizing s spelled rest with
  | nil => simp_all [matchWord?]
  | cons w ws ih =>
    cases s with
    | nil => simp [matchWord?] at h
    | cons c cs =>
      by_cases hc : c.toLower == w <;> simp only [matchWord?, hc, if_true] at h
      · obtain ⟨r, hr, hrs⟩ := Option.map_eq_some_iff.1 h
        cases hrs
        simp [ih hr]
      · simp at h

/-- What is split off is the word, letter case aside. -/
theorem lower_of_matchWord? {word s spelled rest : List Char}
    (h : matchWord? word s = some (spelled, rest)) : lower spelled = word := by
  induction word generalizing s spelled rest with
  | nil => simp_all [matchWord?]
  | cons w ws ih =>
    cases s with
    | nil => simp [matchWord?] at h
    | cons c cs =>
      by_cases hc : c.toLower == w <;> simp only [matchWord?, hc, if_true] at h
      · obtain ⟨r, hr, hrs⟩ := Option.map_eq_some_iff.1 h
        cases hrs
        simp [ih hr, beq_iff_eq.1 hc]
      · simp at h

/-- A word spelled in any letter case is split off, whatever follows it. -/
theorem matchWord?_spelled (spelled rest : List Char) :
    matchWord? (lower spelled) (spelled ++ rest) = some (spelled, rest) := by
  induction spelled with
  | nil => simp [matchWord?]
  | cons c cs ih => simp [matchWord?, ih]

end MarkupTree.Ascii
