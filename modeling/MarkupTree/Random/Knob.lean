/-!
# Numbers from the environment

Tests are tuned by variables of the environment that hold natural numbers of 64 bits.

## Main definitions

* `Knob.parse?` : the number that a text writes.
* `Knob.read` : the number of a variable, or a default where it is not set.
-/

namespace MarkupTree.Knob

/-- The number that a row of digits writes. -/
def number (digits : List Char) : Nat :=
  digits.foldl (fun n d => 10 * n + (d.toNat - '0'.toNat)) 0

/-- A text without a plus sign at its start. -/
def dropPlus : List Char → List Char
  | '+' :: s => s
  | s => s

/-- The number that a text writes: digits, one at least, with or without a plus sign in front. It
has to fit in 64 bits. -/
def parse? (text : String) : Option Nat :=
  let digits := dropPlus text.toList
  if digits.isEmpty || !digits.all Char.isDigit || UInt64.size ≤ number digits then none
  else some (number digits)

/-- A variable that holds something other than a number. -/
structure Problem where
  name : String
  value : String
deriving DecidableEq

/-- A problem as a message. -/
def Problem.message (problem : Problem) : String :=
  problem.name ++ " must be a u64, got '" ++ problem.value ++ "'"

/-- The number of the variable `name`, or `default` if it has no value. -/
def read (name : String) (value : Option String) (default : Nat) : Except Problem Nat :=
  match value with
  | none => .ok default
  | some text =>
    match parse? text with
    | some n => .ok n
    | none => .error ⟨name, text⟩

end MarkupTree.Knob
