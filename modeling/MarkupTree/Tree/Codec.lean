import MarkupTree.Json.Value
import MarkupTree.Tree.Node

/-!
# Trees as JSON

A node is written as an object: first its kind, then its fields in a fixed order. It is read from
that, from the same object with its members in any order and with others among them, and from an
array of the same values without their keys. Fields that have a default may be left out, in an
array only at its end. A field given twice is an error, and so is an element too many.

Below the root the kind may also be given by its number in the list of kinds.

## Main definitions

* `Node.Kind` : the kinds, with their names and fields.
* `Node.toJson` : a tree as JSON.
* `Node.ofJson?` : the tree that JSON stands for.
-/

namespace MarkupTree.Node

/-- The kinds of node. -/
inductive Kind
  | document
  | method
  | markup
  | element
  | attr
  | text
  | foreign
deriving DecidableEq

namespace Kind

/-- The kinds in the order of their numbers. -/
def all : List Kind := [document, method, markup, element, attr, text, foreign]

/-- The name of a kind. -/
def name : Kind → String
  | document => "document"
  | method => "method"
  | markup => "markup"
  | element => "element"
  | attr => "attribute"
  | text => "text"
  | foreign => "foreign"

/-- The keys of a kind's fields, in their order. -/
def keys : Kind → List String
  | document => ["children"]
  | method => ["name", "children"]
  | markup => ["tokens"]
  | element => ["name", "children"]
  | attr => ["name", "value"]
  | text => ["text"]
  | foreign => ["label", "payload", "children"]

/-- The kind that JSON names. Below the root (`numbered`) its number will do as well. -/
def ofJson? (numbered : Bool) : Json → Option Kind
  | .string s => all.find? fun kind => kind.name == s
  | .number n => if numbered then n.index?.bind fun i => all[i]? else none
  | _ => none

/-- The kind that the members of an object name, if they name one kind, and no field of that kind
twice. -/
def ofMembers? (numbered : Bool) (members : List (String × Json)) : Option Kind :=
  if Json.countKey "kind" members = 1 then
    match (Json.member? "kind" members).bind (ofJson? numbered) with
    | some kind =>
      if kind.keys.all fun key => Json.countKey key members ≤ 1 then some kind else none
    | none => none
  else none

end Kind

/-! ### Writing -/

/-- The member that gives a node's kind. -/
def kindMember (kind : Kind) : String × Json := ("kind", .string kind.name)

mutual

/-- A tree as JSON. A foreign node without children has no member for them. -/
def toJson : Node → Json
  | .document children =>
    .object [kindMember .document, ("children", .array (toJsonAll children))]
  | .method name children =>
    .object [kindMember .method, ("name", .string name), ("children", .array (toJsonAll children))]
  | .markup pieces =>
    .object [kindMember .markup, ("tokens", .array (pieces.map Json.string))]
  | .element name children =>
    .object
      [kindMember .element, ("name", .string name), ("children", .array (toJsonAll children))]
  | .attr name parts =>
    .object
      [kindMember .attr, ("name", .string name),
        ("value", .object [("parts", .array (toJsonAll parts))])]
  | .text t => .object [kindMember .text, ("text", .string t)]
  | .foreign label payload [] =>
    .object [kindMember .foreign, ("label", .string label), ("payload", .string payload)]
  | .foreign label payload (child :: children) =>
    .object
      [kindMember .foreign, ("label", .string label), ("payload", .string payload),
        ("children", .array (child.toJson :: toJsonAll children))]

/-- A list of trees as a list of JSON values. -/
def toJsonAll : List Node → List Json
  | [] => []
  | n :: ns => n.toJson :: toJsonAll ns

end

/-! ### Reading -/

/-- The text of a member that has to be there. -/
def stringMember? (key : String) (members : List (String × Json)) : Option String :=
  (Json.member? key members).bind Json.string?

/-- The text of a member that may be left out, and is then empty. -/
def stringMemberOrEmpty? (key : String) (members : List (String × Json)) : Option String :=
  match Json.member? key members with
  | none => some ""
  | some value => value.string?

mutual

/-- The tree that a JSON value stands for, at the root or below it (`numbered`). -/
def read? (numbered : Bool) : Json → Option Node
  | .object members =>
    match Kind.ofMembers? numbered members with
    | some .document => (readChildren? members).map .document
    | some .method => do
      let name ← stringMember? "name" members
      let children ← readChildren? members
      return .method name children
    | some .markup =>
      ((Json.member? "tokens" members).bind Json.strings?).map .markup
    | some .element => do
      let name ← stringMember? "name" members
      let children ← readChildren? members
      return .element name children
    | some .attr => do
      let name ← stringMember? "name" members
      let parts ← readValueMember? members
      return .attr name parts
    | some .text => (stringMember? "text" members).map .text
    | some .foreign => do
      let label ← stringMember? "label" members
      let payload ← stringMemberOrEmpty? "payload" members
      let children ← readChildren? members
      return .foreign label payload children
    | none => none
  | .array (kind :: fields) =>
    match Kind.ofJson? numbered kind with
    | some kind => readFields? kind fields
    | none => none
  | _ => none

/-- The tree of a given kind whose fields have the given values, in order. -/
def readFields? : Kind → List Json → Option Node
  | .document, [] => some (.document [])
  | .document, [children] => (readList? children).map .document
  | .method, [.string name] => some (.method name [])
  | .method, [.string name, children] => (readList? children).map (.method name)
  | .markup, [tokens] => tokens.strings?.map .markup
  | .element, [.string name] => some (.element name [])
  | .element, [.string name, children] => (readList? children).map (.element name)
  | .attr, [.string name, value] => (readValue? value).map (.attr name)
  | .text, [.string t] => some (.text t)
  | .foreign, [.string label] => some (.foreign label "" [])
  | .foreign, [.string label, .string payload] => some (.foreign label payload [])
  | .foreign, [.string label, .string payload, children] =>
    (readList? children).map (.foreign label payload)
  | _, _ => none

/-- The trees of an array. -/
def readList? : Json → Option (List Node)
  | .array elements => readAll? elements
  | _ => none

/-- The trees of a list of values, all of them below the root. -/
def readAll? : List Json → Option (List Node)
  | [] => some []
  | j :: js => do
    let n ← read? true j
    let ns ← readAll? js
    return n :: ns

/-- The trees of the member `children`, which may be left out. -/
def readChildren? : List (String × Json) → Option (List Node)
  | [] => some []
  | (key, value) :: members =>
    if key = "children" then readList? value else readChildren? members

/-- The parts of the member `value`. -/
def readValueMember? : List (String × Json) → Option (List Node)
  | [] => none
  | (key, value) :: members =>
    if key = "value" then readValue? value else readValueMember? members

/-- The parts of an attribute's value. -/
def readValue? : Json → Option (List Node)
  | .object members =>
    if Json.countKey "parts" members = 1 then readParts? members else none
  | .array [parts] => readList? parts
  | _ => none

/-- The trees of the member `parts`. -/
def readParts? : List (String × Json) → Option (List Node)
  | [] => none
  | (key, value) :: members =>
    if key = "parts" then readList? value else readParts? members

end

/-- The tree that a JSON value stands for. -/
def ofJson? (j : Json) : Option Node := read? false j

end MarkupTree.Node
