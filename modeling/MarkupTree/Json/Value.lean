import MarkupTree.Json.Numeral

/-!
# JSON values

## Main definitions

* `Json` : values. Objects keep their members in order, repeated keys included.
* `Json.member?`, `Json.countKey` : access to the members of an object by key.
* `Json.nesting` : how deep arrays and objects are nested.
-/

namespace MarkupTree

/-- A JSON value. -/
inductive Json
  | null
  | bool (value : Bool)
  | number (value : Numeral)
  | string (value : String)
  | array (elements : List Json)
  | object (members : List (String × Json))
deriving Inhabited

namespace Json

/-- The first member with a given key. -/
def member? (key : String) : List (String × Json) → Option Json
  | [] => none
  | (k, v) :: members => if k = key then some v else member? key members

/-- How many members have a given key. -/
def countKey (key : String) (members : List (String × Json)) : Nat :=
  members.countP fun m => m.1 == key

/-- The text of a string. -/
def string? : Json → Option String
  | string s => some s
  | _ => none

/-- The texts of an array of strings. -/
def strings? : Json → Option (List String)
  | array elements => elements.mapM string?
  | _ => none

mutual

/-- How deep arrays and objects are nested in a value, the value included. -/
def nesting : Json → Nat
  | array elements => nestingOfElements elements + 1
  | object members => nestingOfMembers members + 1
  | null => 0
  | bool _ => 0
  | number _ => 0
  | string _ => 0

/-- The deepest nesting among elements. -/
def nestingOfElements : List Json → Nat
  | [] => 0
  | j :: js => max j.nesting (nestingOfElements js)

/-- The deepest nesting among members. -/
def nestingOfMembers : List (String × Json) → Nat
  | [] => 0
  | (_, j) :: ms => max j.nesting (nestingOfMembers ms)

end

end Json

end MarkupTree
