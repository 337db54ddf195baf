/-!
# JSON numbers

A number is kept as it is written, in its parts. Its value matters in two ways only: whether an
IEEE double can hold it, and which small index it writes.

## Main definitions

* `Numeral` : the parts of a written number.
* `Numeral.read?` : a number at the head of a text.
* `Numeral.write` : a number as it is written.
* `Numeral.fitsDouble` : whether a double can hold the number.
* `Numeral.index?` : the natural number that a plain row of digits writes.
-/

namespace MarkupTree

/-- The exponent of a number: the letter and sign that introduce it, and its digits. -/
structure Exponent where
  letter : Char
  sign : Option Char
  digits : List Char
deriving DecidableEq

/-- A number as it is written. -/
structure Numeral where
  negative : Bool
  whole : List Char
  fraction : Option (List Char) := none
  exponent : Option Exponent := none
deriving DecidableEq

namespace Numeral

/-! ### Reading and writing -/

/-- A row of one digit or more. -/
def readDigits? (s : List Char) : Option (List Char × List Char) :=
  match s.takeWhile Char.isDigit with
  | [] => none
  | digits => some (digits, s.dropWhile Char.isDigit)

/-- The digits before the point. Only a lone zero may begin with zero. -/
def readWhole? (s : List Char) : Option (List Char × List Char) :=
  match readDigits? s with
  | some ('0' :: _ :: _, _) => none
  | other => other

/-- The point and the digits after it, if there is a point. -/
def readFraction? : List Char → Option (Option (List Char) × List Char)
  | '.' :: s => (readDigits? s).map fun r => (some r.1, r.2)
  | s => some (none, s)

/-- The sign of an exponent, if there is one. -/
def readSign : List Char → Option Char × List Char
  | '+' :: s => (some '+', s)
  | '-' :: s => (some '-', s)
  | s => (none, s)

/-- The exponent, if there is one. -/
def readExponent? : List Char → Option (Option Exponent × List Char)
  | [] => some (none, [])
  | c :: s =>
    if c = 'e' ∨ c = 'E' then
      (readDigits? (readSign s).2).map fun r => (some ⟨c, (readSign s).1, r.1⟩, r.2)
    else some (none, c :: s)

/-- A number without its minus sign at the head of a text. -/
def readUnsigned? (negative : Bool) (s : List Char) : Option (Numeral × List Char) := do
  let (whole, s) ← readWhole? s
  let (fraction, s) ← readFraction? s
  let (exponent, s) ← readExponent? s
  return (⟨negative, whole, fraction, exponent⟩, s)

/-- A number at the head of a text. -/
def read? : List Char → Option (Numeral × List Char)
  | '-' :: s => readUnsigned? true s
  | s => readUnsigned? false s

/-- An exponent as it is written. -/
def writeExponent (e : Exponent) : List Char := e.letter :: e.sign.toList ++ e.digits

/-- A number as it is written. -/
def write (n : Numeral) : List Char :=
  (if n.negative then ['-'] else []) ++ n.whole ++ (n.fraction.elim [] ('.' :: ·)) ++
    n.exponent.elim [] writeExponent

/-! ### Size -/

/-- The natural number that digits write. -/
def value (digits : List Char) : Nat :=
  digits.foldl (fun n d => 10 * n + (d.toNat - '0'.toNat)) 0

/-- Appends digits to a number as long as it fits in 64 bits, and counts the digits that were
appended. The first digit that does not fit ends this. -/
def appendDigits (n : Nat) : List Char → Nat × Nat
  | [] => (n, 0)
  | d :: ds =>
    let m := 10 * n + (d.toNat - '0'.toNat)
    if m < UInt64.size then ((appendDigits m ds).1, (appendDigits m ds).2 + 1) else (n, 0)

/-- A natural number rounded to 53 binary digits, ties to the even neighbour. -/
def round53 (n : Nat) : Nat :=
  let unit := Nat.pow 2 (n.log2 + 1 - 53)
  let quotient := n / unit
  let remainder := n % unit
  if 2 * remainder > unit ∨ (2 * remainder = unit ∧ quotient % 2 = 1) then (quotient + 1) * unit
  else quotient * unit

/-- The value of an exponent. -/
def exponentValue (e : Exponent) : Int :=
  if e.sign = some '-' then -(value e.digits : Int) else value e.digits

/-- Whether a double can hold the number: the digits that fit in 64 bits and the power of ten are
each rounded to a double, and their product must not round to infinity. No power of ten above 308
is a double. -/
def fitsDouble (n : Numeral) : Bool :=
  let whole := appendDigits 0 n.whole
  let all := appendDigits whole.1 (n.fraction.getD [])
  let power : Int :=
    (n.whole.length - whole.2 : Nat) - (all.2 : Int) + n.exponent.elim 0 exponentValue
  all.1 == 0 || power < 0 ||
    (power ≤ 308 &&
      round53 (round53 all.1 * round53 (Nat.pow 10 power.toNat)) < Nat.pow 2 1024)

/-- The natural number that a plain row of digits writes. -/
def index? (n : Numeral) : Option Nat :=
  if n.negative || n.fraction.isSome || n.exponent.isSome then none else some (value n.whole)

end Numeral

end MarkupTree
