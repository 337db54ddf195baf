import MarkupTree.Proofs.Lexing.Tiling

/-!
# Texts as bytes

A text is stored as its bytes. The bytes of an ASCII character are one byte below `128`; all bytes
of any other character are `128` and more. So a stretch of ASCII bytes among the bytes of a text is
a stretch of the text, and the ASCII classes and letter case can be read off the bytes.

## Main definitions

* `Octets.ofText` : the bytes of a text.
* `Octets.isBlank`, `Octets.lower` : white space and letter case of bytes.

## Main results

* `Octets.exists_of_ofText_eq_append` : before an ASCII byte, a character has ended.
* `Octets.exists_of_ofText_eq_ascii` : ASCII bytes at the head of a text are characters of it.
-/

namespace MarkupTree.Octets

/-- The bytes of a text. -/
def ofText (s : List Char) : List UInt8 := s.flatMap String.utf8EncodeChar

/-- Space, tab, line feed, form feed and carriage return, as bytes. -/
def isBlank (b : UInt8) : Bool :=
  b == 0x20 || b == 0x09 || b == 0x0A || b == 0x0C || b == 0x0D

/-- A byte, with a capital letter made small. -/
def lower (b : UInt8) : UInt8 := if 0x41 ≤ b ∧ b ≤ 0x5A then b + 0x20 else b

/-- A text of ASCII characters only. -/
def IsAscii (s : List Char) : Prop := ∀ c ∈ s, c.toNat < 128

@[simp] theorem ofText_nil : ofText [] = [] := rfl

@[simp] theorem ofText_cons (c : Char) (s : List Char) :
    ofText (c :: s) = String.utf8EncodeChar c ++ ofText s := List.flatMap_cons

@[simp] theorem ofText_append (s t : List Char) : ofText (s ++ t) = ofText s ++ ofText t :=
  List.flatMap_append

@[simp] theorem length_ofText (s : List Char) : (ofText s).length = byteSize s := by
  induction s with
  | nil => rfl
  | cons c s ih => rw [ofText_cons, List.length_append, ih, String.length_utf8EncodeChar, byteSize]

theorem toByteArray_eq_ofText (text : String) :
    text.toByteArray.data.toList = ofText text.toList := by
  rw [← String.ofList_toList (s := text), String.toByteArray_ofList, String.toList_ofList]
  exact List.toList_data_toByteArray

theorem ofText_injective {s t : List Char} (h : ofText s = ofText t) : s = t := by
  have bytes : s.utf8Encode = t.utf8Encode := congrArg List.toByteArray h
  rw [← String.toByteArray_ofList, ← String.toByteArray_ofList, String.toByteArray_inj] at bytes
  exact String.ofList_injective bytes

/-! ### The bytes of one character -/

section Character

variable {c : Char} {b : UInt8}

theorem utf8EncodeChar_of_lt (h : c.toNat < 128) : String.utf8EncodeChar c = [c.toUInt8] := by
  have small : c.val.toNat ≤ 127 := Nat.le_of_lt_succ h
  simp only [String.utf8EncodeChar, small, if_true]
  rfl

theorem le_of_mem_utf8EncodeChar (h : 128 ≤ c.toNat) (hb : b ∈ String.utf8EncodeChar c) :
    128 ≤ b.toNat := by
  have large : ¬c.val.toNat ≤ 127 := Nat.not_le_of_lt h
  simp only [String.utf8EncodeChar, large, if_false] at hb
  split at hb
  · simp only [List.mem_cons, List.not_mem_nil, or_false] at hb
    rcases hb with rfl | rfl <;> simp <;> omega
  · split at hb <;> simp only [List.mem_cons, List.not_mem_nil, or_false] at hb
    · rcases hb with rfl | rfl | rfl <;> simp <;> omega
    · rcases hb with rfl | rfl | rfl | rfl <;> simp <;> omega

/-- A character with an ASCII byte is an ASCII character. -/
theorem utf8EncodeChar_of_mem (hb : b ∈ String.utf8EncodeChar c) (h : b.toNat < 128) :
    c.toNat < 128 ∧ String.utf8EncodeChar c = [b] := by
  have small : c.toNat < 128 := by
    by_contra hc
    have := le_of_mem_utf8EncodeChar (Nat.le_of_not_lt hc) hb
    omega
  rw [utf8EncodeChar_of_lt small] at hb ⊢
  exact ⟨small, by rw [List.mem_singleton.1 hb]⟩

end Character

/-! ### ASCII bytes in a text -/

section Ascii

variable {s t : List Char} {p q w : List UInt8} {b : UInt8}

/-- Before an ASCII byte, a character has ended. -/
theorem exists_of_ofText_eq_append (hb : b.toNat < 128) (h : ofText s = p ++ b :: q) :
    ∃ u v, s = u ++ v ∧ ofText u = p ∧ ofText v = b :: q := by
  induction s generalizing p with
  | nil => simp at h
  | cons c cs ih =>
    rw [ofText_cons] at h
    obtain ⟨p', rfl, hcs⟩ | ⟨r, hc, hq⟩ := List.append_eq_append_iff.1 h
    · obtain ⟨u, v, rfl, rfl, hv⟩ := ih hcs
      exact ⟨c :: u, v, rfl, rfl, hv⟩
    · cases r with
      | nil => exact ⟨[c], cs, rfl, by simpa using hc, hq.symm⟩
      | cons d r =>
        -- The byte is one of `c`, so it is the only one.
        obtain ⟨rfl, -⟩ := List.cons.inj hq
        have single := (utf8EncodeChar_of_mem (by rw [hc]; simp) hb).2
        have none : p.length = 0 := by
          have := congrArg List.length (hc.symm.trans single)
          simp at this
          omega
        obtain rfl := List.eq_nil_of_length_eq_zero none
        exact ⟨[], c :: cs, rfl, rfl, h⟩

/-- ASCII bytes at the head of a text are characters of it. -/
theorem exists_of_ofText_eq_ascii (hw : ∀ b ∈ w, b.toNat < 128) (h : ofText s = w ++ q) :
    ∃ x v, s = x ++ v ∧ IsAscii x ∧ ofText x = w ∧ ofText v = q := by
  induction w generalizing s with
  | nil => exact ⟨[], s, rfl, by simp [IsAscii], rfl, h⟩
  | cons b w ih =>
    cases s with
    | nil => simp at h
    | cons c cs =>
      rw [ofText_cons] at h
      have hmem : b ∈ String.utf8EncodeChar c := by
        cases hc : String.utf8EncodeChar c with
        | nil => exact absurd hc String.utf8EncodeChar_ne_nil
        | cons d ds =>
          rw [hc] at h
          simp_all
      obtain ⟨small, single⟩ := utf8EncodeChar_of_mem hmem (hw b List.mem_cons_self)
      rw [single] at h
      obtain ⟨x, v, rfl, hx, rfl, hv⟩ :=
        ih (fun d hd => hw d (List.mem_cons_of_mem b hd)) (List.cons.inj h).2
      exact ⟨c :: x, v, rfl, List.forall_mem_cons.2 ⟨small, hx⟩, by simp [single], hv⟩

theorem IsAscii.ofText_eq_map (h : IsAscii s) : ofText s = s.map Char.toUInt8 := by
  induction s with
  | nil => rfl
  | cons c s ih =>
    obtain ⟨hc, hs⟩ := List.forall_mem_cons.1 h
    rw [ofText_cons, utf8EncodeChar_of_lt hc, ih hs]
    rfl

theorem IsAscii.lt_of_mem_ofText (h : IsAscii s) (hb : b ∈ ofText s) : b.toNat < 128 := by
  rw [h.ofText_eq_map] at hb
  obtain ⟨c, hc, rfl⟩ := List.mem_map.1 hb
  exact Nat.lt_of_le_of_lt (Nat.mod_le _ _) (h c hc)

end Ascii

/-! ### Letter case and white space -/

section Letters

variable {c : Char} {b : UInt8} {s : List Char}

theorem forall_lt_of_forall_ofNat {P : Char → Prop} (h : ∀ n : Fin 128, P (Char.ofNat n))
    (hc : c.toNat < 128) : P c :=
  Char.ofNat_toNat c ▸ h ⟨c.toNat, hc⟩

theorem lower_toUInt8 (h : c.toNat < 128) :
    lower c.toUInt8 = c.toLower.toUInt8 ∧ c.toLower.toNat < 128 :=
  forall_lt_of_forall_ofNat
    (P := fun c => lower c.toUInt8 = c.toLower.toUInt8 ∧ c.toLower.toNat < 128)
    (by decide +kernel) h

theorem isBlank_toUInt8 (h : c.toNat < 128) : isBlank c.toUInt8 = Ascii.isBlank c :=
  forall_lt_of_forall_ofNat (P := fun c => isBlank c.toUInt8 = Ascii.isBlank c)
    (by decide +kernel) h

theorem lt_of_lower_lt (h : (lower b).toNat < 128) : b.toNat < 128 := by
  unfold lower at h
  split at h
  · next hb => exact Nat.lt_of_le_of_lt (UInt8.le_iff_toNat_le.1 hb.2) (by decide)
  · exact h

/-- No letter becomes a `<`. -/
theorem eq_of_lower_eq_lt (h : lower b = '<'.toUInt8) : b = '<'.toUInt8 := by
  unfold lower at h
  split at h
  · next hb =>
    have low : 0x41 ≤ b.toNat := UInt8.le_iff_toNat_le.1 hb.1
    have high : b.toNat ≤ 0x5A := UInt8.le_iff_toNat_le.1 hb.2
    have sum : (b.toNat + 0x20) % 256 = 0x3C :=
      (UInt8.toNat_add b 0x20).symm.trans (congrArg UInt8.toNat h)
    omega
  · exact h

theorem lt_of_isBlank (h : isBlank b) : b.toNat < 128 := by
  simp only [isBlank, Bool.or_eq_true, beq_iff_eq] at h
  rcases h with (((rfl | rfl) | rfl) | rfl) | rfl <;> decide

theorem IsAscii.lower (h : IsAscii s) : IsAscii (Ascii.lower s) := by
  intro c hc
  obtain ⟨d, hd, rfl⟩ := List.mem_map.1 hc
  exact (lower_toUInt8 (h d hd)).2

theorem IsAscii.of_lower (h : IsAscii (Ascii.lower s)) : IsAscii s := by
  intro c hc
  have small : c.toLower.toNat < 128 := h _ (List.mem_map_of_mem hc)
  cases hupper : c.isUpper with
  | false => exact Ascii.toLower_of_not_isUpper hupper ▸ small
  | true => exact Nat.lt_of_le_of_lt (Ascii.isUpper_iff.1 hupper).2 (by decide)

theorem IsAscii.of_all_isBlank (h : s.all Ascii.isBlank) : IsAscii s := by
  intro c hc
  have white := List.all_eq_true.1 h c hc
  simp only [Ascii.isBlank, Bool.or_eq_true, beq_iff_eq] at white
  rcases white with (((rfl | rfl) | rfl) | rfl) | rfl <;> decide

theorem IsAscii.map_lower_ofText (h : IsAscii s) :
    (ofText s).map Octets.lower = ofText (Ascii.lower s) := by
  rw [h.ofText_eq_map, h.lower.ofText_eq_map, Ascii.lower, List.map_map, List.map_map]
  exact List.map_congr_left fun c hc => (lower_toUInt8 (h c hc)).1

theorem IsAscii.all_isBlank_ofText (h : IsAscii s) :
    (ofText s).all Octets.isBlank = s.all Ascii.isBlank := by
  rw [h.ofText_eq_map, List.all_map, Bool.eq_iff_iff, List.all_eq_true, List.all_eq_true]
  exact forall₂_congr fun c hc => by rw [Function.comp_apply, isBlank_toUInt8 (h c hc)]

end Letters

end MarkupTree.Octets
