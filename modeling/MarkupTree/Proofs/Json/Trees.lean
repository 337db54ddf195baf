import MarkupTree.Cli.Command
import MarkupTree.Proofs.Json.Rereading
import Mathlib.Data.List.Nodup

/-!
# Trees written and read again

A tree is written as JSON without any number in it, and the JSON stands for the tree again. So all
that can go wrong between writing a tree and reading it is the reader's limit on nesting. How deep
the JSON of a tree is nested depends on the kinds of its nodes (`Node.nesting`): a list of children
costs two levels, one for the object and one for the array, and the parts of an attribute's value
cost three, as they are held by an object of their own. A list without elements counts all the
same, but one that is left out does not.

## Main definitions

* `Node.nesting` : how deep the JSON of a tree is nested.

## Main results

* `Node.read?_toJson` : the JSON of a tree stands for the tree.
* `Node.nesting_toJson` : how deep it is nested.
* `Cli.treeResult_showTree` : what the program makes of a tree that it has written.
* `Node.ofJson?_parse?_pretty` : a tree is read back from its text if and only if it fits.
-/

namespace MarkupTree

namespace Node

/-! ### How deep a tree is nested -/

mutual

/-- How deep arrays and objects are nested in the JSON of a tree. -/
def nesting : Node → Nat
  | document children => nestingOfAll children + 2
  | method _ children => nestingOfAll children + 2
  | markup _ => 2
  | element _ children => nestingOfAll children + 2
  | attr _ parts => nestingOfAll parts + 3
  | text _ => 1
  | foreign _ _ [] => 1
  | foreign _ _ (child :: children) => nestingOfAll (child :: children) + 2

/-- The deepest nesting among trees, none for no trees. -/
def nestingOfAll : List Node → Nat
  | [] => 0
  | n :: ns => max n.nesting (nestingOfAll ns)

end

theorem nestingOfElements_strings (pieces : List String) :
    Json.nestingOfElements (pieces.map Json.string) = 0 := by
  induction pieces with
  | nil => rfl
  | cons piece pieces ih => simp [Json.nestingOfElements, Json.nesting, ih]

mutual

theorem nesting_toJson : (n : Node) → n.toJson.nesting = n.nesting
  | document children => by
    simp [toJson, nesting, kindMember, Json.nesting, Json.nestingOfMembers,
      nestingOfElements_toJsonAll children]
  | method _ children => by
    simp [toJson, nesting, kindMember, Json.nesting, Json.nestingOfMembers,
      nestingOfElements_toJsonAll children]
  | markup pieces => by
    simp [toJson, nesting, kindMember, Json.nesting, Json.nestingOfMembers,
      nestingOfElements_strings pieces]
  | element _ children => by
    simp [toJson, nesting, kindMember, Json.nesting, Json.nestingOfMembers,
      nestingOfElements_toJsonAll children]
  | attr _ parts => by
    simp [toJson, nesting, kindMember, Json.nesting, Json.nestingOfMembers,
      nestingOfElements_toJsonAll parts]
  | text _ => by simp [toJson, nesting, kindMember, Json.nesting, Json.nestingOfMembers]
  | foreign _ _ [] => by simp [toJson, nesting, kindMember, Json.nesting, Json.nestingOfMembers]
  | foreign _ _ (child :: children) => by
    have all := nestingOfElements_toJsonAll (child :: children)
    rw [toJsonAll] at all
    simp [toJson, nesting, kindMember, Json.nesting, Json.nestingOfMembers, all]

theorem nestingOfElements_toJsonAll :
    (ns : List Node) → Json.nestingOfElements (toJsonAll ns) = nestingOfAll ns
  | [] => rfl
  | n :: ns => by
    simp [toJsonAll, nestingOfAll, Json.nestingOfElements, nesting_toJson n,
      nestingOfElements_toJsonAll ns]

end

/-! ### Numbers -/

theorem anyHasNumber_strings (pieces : List String) :
    Json.anyHasNumber (pieces.map Json.string) = false := by
  induction pieces with
  | nil => rfl
  | cons piece pieces ih => simp [Json.anyHasNumber, Json.hasNumber, ih]

mutual

/-- There is no number in the JSON of a tree. -/
theorem hasNumber_toJson : (n : Node) → n.toJson.hasNumber = false
  | document children => by
    simp [toJson, kindMember, Json.hasNumber, Json.anyMemberHasNumber,
      anyHasNumber_toJsonAll children]
  | method _ children => by
    simp [toJson, kindMember, Json.hasNumber, Json.anyMemberHasNumber,
      anyHasNumber_toJsonAll children]
  | markup pieces => by
    simp [toJson, kindMember, Json.hasNumber, Json.anyMemberHasNumber,
      anyHasNumber_strings pieces]
  | element _ children => by
    simp [toJson, kindMember, Json.hasNumber, Json.anyMemberHasNumber,
      anyHasNumber_toJsonAll children]
  | attr _ parts => by
    simp [toJson, kindMember, Json.hasNumber, Json.anyMemberHasNumber,
      anyHasNumber_toJsonAll parts]
  | text _ => rfl
  | foreign _ _ [] => rfl
  | foreign _ _ (child :: children) => by
    have all := anyHasNumber_toJsonAll (child :: children)
    rw [toJsonAll] at all
    simp [toJson, kindMember, Json.hasNumber, Json.anyMemberHasNumber, all]

theorem anyHasNumber_toJsonAll : (ns : List Node) → Json.anyHasNumber (toJsonAll ns) = false
  | [] => rfl
  | n :: ns => by
    simp [toJsonAll, Json.anyHasNumber, hasNumber_toJson n, anyHasNumber_toJsonAll ns]

end

/-! ### Reading a tree back -/

theorem Kind.find?_name (kind : Kind) :
    Kind.all.find? (fun other => other.name == kind.name) = some kind := by
  cases kind <;> rfl

theorem Kind.nodup_keys (kind : Kind) : ("kind" :: kind.keys).Nodup := by
  cases kind <;> decide

theorem countKey_eq_count (key : String) (members : List (String × Json)) :
    Json.countKey key members = (members.map Prod.fst).count key := by
  rw [Json.countKey, List.count, List.countP_map]
  rfl

/-- The kind of an object is found if its other members are fields of that kind, each at most
once. -/
theorem Kind.ofMembers?_kindMember (numbered : Bool) (kind : Kind) (fields : List (String × Json))
    (h : (fields.map Prod.fst).Sublist kind.keys) :
    Kind.ofMembers? numbered (kindMember kind :: fields) = some kind := by
  have keys : ((kindMember kind :: fields).map Prod.fst).Nodup :=
    kind.nodup_keys.sublist (h.cons_cons "kind")
  have once : ∀ key, Json.countKey key (kindMember kind :: fields) ≤ 1 := by
    intro key
    rw [countKey_eq_count]
    exact List.nodup_iff_count_le_one.1 keys key
  have one : Json.countKey "kind" (kindMember kind :: fields) = 1 := by
    rw [countKey_eq_count]
    exact List.count_eq_one_of_mem keys List.mem_cons_self
  have found : (Json.member? "kind" (kindMember kind :: fields)).bind (Kind.ofJson? numbered) =
      some kind := by
    simp [kindMember, Json.member?, Kind.ofJson?, Kind.find?_name]
  simp [Kind.ofMembers?, one, once, found]

theorem mapM_string? (pieces : List String) :
    (pieces.map Json.string).mapM Json.string? = some pieces := by
  induction pieces with
  | nil => rfl
  | cons piece pieces ih => simp [Json.string?, ih]

mutual

/-- The JSON of a tree stands for the tree, at the root and below it. -/
theorem read?_toJson (numbered : Bool) : (n : Node) → read? numbered n.toJson = some n
  | document children => by
    have kind := Kind.ofMembers?_kindMember numbered .document
      [("children", .array (toJsonAll children))] (List.Sublist.refl _)
    rw [toJson, read?, kind]
    simp [kindMember, readChildren?, readList?, readAll?_toJsonAll children]
  | method name children => by
    have kind := Kind.ofMembers?_kindMember numbered .method
      [("name", .string name), ("children", .array (toJsonAll children))] (List.Sublist.refl _)
    rw [toJson, read?, kind]
    simp [kindMember, stringMember?, Json.member?, Json.string?,
      readChildren?, readList?, readAll?_toJsonAll children]
  | markup pieces => by
    have kind := Kind.ofMembers?_kindMember numbered .markup
      [("tokens", .array (pieces.map Json.string))] (List.Sublist.refl _)
    rw [toJson, read?, kind]
    simp [kindMember, Json.member?, Json.strings?, mapM_string? pieces]
  | element name children => by
    have kind := Kind.ofMembers?_kindMember numbered .element
      [("name", .string name), ("children", .array (toJsonAll children))] (List.Sublist.refl _)
    rw [toJson, read?, kind]
    simp [kindMember, stringMember?, Json.member?, Json.string?,
      readChildren?, readList?, readAll?_toJsonAll children]
  | attr name parts => by
    have kind := Kind.ofMembers?_kindMember numbered .attr
      [("name", .string name), ("value", .object [("parts", .array (toJsonAll parts))])]
      (List.Sublist.refl _)
    rw [toJson, read?, kind]
    simp [kindMember, stringMember?, Json.member?, Json.string?,
      readValueMember?, readValue?, Json.countKey, readParts?, readList?, readAll?_toJsonAll parts]
  | text t => by
    have kind := Kind.ofMembers?_kindMember numbered .text
      [("text", .string t)] (List.Sublist.refl _)
    rw [toJson, read?, kind]
    simp [kindMember, stringMember?, Json.member?, Json.string?]
  | foreign label payload [] => by
    have kind := Kind.ofMembers?_kindMember numbered .foreign
      [("label", .string label), ("payload", .string payload)]
      (List.sublist_append_left _ ["children"])
    rw [toJson, read?, kind]
    simp [kindMember, stringMember?, stringMemberOrEmpty?, Json.member?,
      Json.string?, readChildren?]
  | foreign label payload (child :: children) => by
    have all := readAll?_toJsonAll (child :: children)
    rw [toJsonAll] at all
    have kind := Kind.ofMembers?_kindMember numbered .foreign
      [("label", .string label), ("payload", .string payload),
        ("children", .array (child.toJson :: toJsonAll children))] (List.Sublist.refl _)
    rw [toJson, read?, kind]
    simp [kindMember, stringMember?, stringMemberOrEmpty?, Json.member?,
      Json.string?, readChildren?, readList?, all]

theorem readAll?_toJsonAll : (ns : List Node) → readAll? (toJsonAll ns) = some ns
  | [] => rfl
  | n :: ns => by simp [toJsonAll, readAll?, read?_toJson true n, readAll?_toJsonAll ns]

end

/-! ### Whole texts -/

/-- A tree is read back from its text, with white space after it or not, if the text is not nested
too deep; else the text is refused. -/
theorem ofJson?_parse?_append (n : Node) (blanks : String)
    (hblanks : Json.skipSpace blanks.toList = []) :
    (Json.parse? (n.toJson.pretty ++ blanks)).bind ofJson? =
      if n.nesting ≤ Json.maxNesting then some n else none := by
  rw [Json.parse?_pretty_append n.hasNumber_toJson hblanks, nesting_toJson]
  by_cases hfits : n.nesting ≤ Json.maxNesting
  · simp [hfits, ofJson?, read?_toJson]
  · simp [hfits]

/-- A tree is read back from its text if and only if its JSON is nested at most 127 deep; the text
of a deeper tree is refused. -/
theorem ofJson?_parse?_pretty (n : Node) :
    (Json.parse? n.toJson.pretty).bind ofJson? = if n.nesting ≤ 127 then some n else none := by
  have exact := n.ofJson?_parse?_append "" rfl
  rwa [String.append_empty] at exact

end Node

/-- The program takes up the tree that it has written, if the tree is not nested too deep. Else it
refuses its own text. -/
theorem Cli.treeResult_showTree (command : TreeCommand) (n : Node) :
    treeResult command (showTree true n) =
      if n.nesting ≤ Json.maxNesting then
        match (restructure command.policy n).failure with
        | some failure => failed ("rewriting " ++ command.input) [failure.message]
        | none => { out := showTree command.json (restructure command.policy n).result }
      else { exitCode := 1, err := "error: parsing IR from " ++ command.input } := by
  have read := n.ofJson?_parse?_append "\n" rfl
  rw [treeResult, showTree, if_pos rfl, read]
  by_cases hfits : n.nesting ≤ Json.maxNesting
  · rw [if_pos hfits]
    exact (if_pos hfits).symm
  · rw [if_neg hfits]
    exact (if_neg hfits).symm

end MarkupTree
