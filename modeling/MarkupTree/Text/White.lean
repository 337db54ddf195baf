/-!
# White space of Unicode

The characters with the Unicode property `White_Space`, and texts trimmed of them. The property
is wider than the white space of markup (`Ascii.isBlank`): it has the vertical tab and eighteen
characters outside ASCII besides.

## Main definitions

* `White.isWhite` : the property.
* `White.trim`, `White.trimEnd` : a text without white space at its ends, or at its end.
-/

namespace MarkupTree.White

/-- The Unicode property `White_Space`. -/
def isWhite (c : Char) : Bool :=
  let n := c.toNat
  (9 ≤ n && n ≤ 13) || n == 0x20 || n == 0x85 || n == 0xA0 || n == 0x1680
    || (0x2000 ≤ n && n ≤ 0x200A) || n == 0x2028 || n == 0x2029 || n == 0x202F || n == 0x205F
    || n == 0x3000

/-- A text without white space at its end. -/
def trimEnd (s : List Char) : List Char := (s.reverse.dropWhile isWhite).reverse

/-- A text without white space at either end. -/
def trim (s : List Char) : List Char := trimEnd (s.dropWhile isWhite)

/-- A string without white space at either end. -/
def trimmed (s : String) : String := String.ofList (trim s.toList)

/-- A string without white space at its end. -/
def trimmedEnd (s : String) : String := String.ofList (trimEnd s.toList)

@[simp] theorem toList_trimmed (s : String) : (trimmed s).toList = trim s.toList :=
  String.toList_ofList

@[simp] theorem toList_trimmedEnd (s : String) : (trimmedEnd s).toList = trimEnd s.toList :=
  String.toList_ofList

@[simp] theorem trimEnd_nil : trimEnd [] = [] := rfl

@[simp] theorem trim_nil : trim [] = [] := rfl

/-- A character that is not white shields all before it. -/
theorem trimEnd_append_cons {c : Char} (hc : isWhite c = false) (s : List Char) :
    trimEnd (s ++ [c]) = s ++ [c] := by
  simp [trimEnd, hc]

end MarkupTree.White
