import MarkupTree.Proofs.Json.Grammar
import MarkupTree.Proofs.Json.Trees

/-!
# The layouts of a tree in JSON

A node can be laid out in JSON in many ways (`Node.IsSpelling`): as an object with its fields in any
order, its kind anywhere among them and other members between them, or as an array of its kind and
the values of its fields in order. A field that holds its default may be left out, in an array only
with all that come after it. The choice is free at every node, and at every value of an attribute,
as this is a record too.

All of these are read as the tree (`Node.read?_of_isSpelling`), from any of their texts
(`Node.ofJson?_parse?_of_isSpelling`). For an object what matters is what the reader finds by the
keys of the fields (`Node.Finds`); the order of the members, and those that are no fields, drop out
there. But these other members are still read as JSON, so a number that no double can hold makes
the reader refuse the whole text, wherever it stands (`Node.ofJson?_parse?_hugeMember`).

## Main definitions

* `Node.Field` : a field, with the ways to write its value.
* `Node.IsRecord` : the layouts of a record of fields.
* `Node.IsSpelling` : the layouts of a tree.

## Main results

* `Node.IsRecord.finds` : what is found by key in an object of any layout.
* `Node.isSpelling_toJson` : the layout that is written is one of them.
* `Node.read?_of_isSpelling` : every layout is read as the tree.
* `Node.ofJson?_parse?_of_isSpelling` : every text of every layout is read as the tree.
-/

namespace MarkupTree.Node

/-! ### Records -/

/-- A field: its key, whether it holds its default, and the ways to write its value. -/
structure Field where
  key : String
  isDefault : Prop
  spelled : Json → Prop

/-- A field that holds a text and cannot be left out. -/
def Field.text (key s : String) : Field := ⟨key, False, fun j => j = .string s⟩

/-- A field that holds a list, the elements of which are written as one of `items`. -/
def Field.list (key : String) (isDefault : Prop) (items : List Json → Prop) : Field :=
  ⟨key, isDefault, fun j => ∃ js, items js ∧ j = .array js⟩

/-- The members of an object that give fields, each once or, if it holds its default, not at
all. -/
inductive Given : List Field → List (String × Json) → Prop
  | nil : Given [] []
  | given {f : Field} {fields : List Field} {j : Json} {members : List (String × Json)}
    (hj : f.spelled j) (h : Given fields members) : Given (f :: fields) ((f.key, j) :: members)
  | leftOut {f : Field} {fields : List Field} {members : List (String × Json)}
    (hf : f.isDefault) (h : Given fields members) : Given (f :: fields) members

/-- The values of fields in order, without some at the end that hold their defaults. -/
inductive Listed : List Field → List Json → Prop
  | given {f : Field} {fields : List Field} {j : Json} {values : List Json}
    (hj : f.spelled j) (h : Listed fields values) : Listed (f :: fields) (j :: values)
  | leftOut {fields : List Field} (h : ∀ f ∈ fields, f.isDefault) : Listed fields []

/-- The keys of a record: those of its tag and those of its fields. -/
def recordKeys (tag : List (String × Json)) (fields : List Field) : List String :=
  tag.map Prod.fst ++ fields.map Field.key

/-- The layouts of a record. Its tag is always written as it is: first in an array, and anywhere in
an object. -/
inductive IsRecord (tag : List (String × Json)) (fields : List Field) : Json → Prop
  | object {members given extra : List (String × Json)} (hgiven : Given fields given)
    (hextra : ∀ m ∈ extra, m.1 ∉ recordKeys tag fields)
    (hmembers : members.Perm (tag ++ given ++ extra)) : IsRecord tag fields (.object members)
  | array {values : List Json} (h : Listed fields values) :
    IsRecord tag fields (.array (tag.map Prod.snd ++ values))

/-! ### Trees -/

mutual

/-- The layouts of a tree. -/
def IsSpelling : Node → Json → Prop
  | document children =>
    IsRecord [kindMember .document]
      [.list "children" (children = []) (AreSpellings children)]
  | method name children =>
    IsRecord [kindMember .method]
      [.text "name" name, .list "children" (children = []) (AreSpellings children)]
  | markup pieces =>
    IsRecord [kindMember .markup] [.list "tokens" False fun js => js = pieces.map Json.string]
  | element name children =>
    IsRecord [kindMember .element]
      [.text "name" name, .list "children" (children = []) (AreSpellings children)]
  | attr name parts =>
    IsRecord [kindMember .attr]
      [.text "name" name,
        ⟨"value", False, IsRecord [] [.list "parts" False (AreSpellings parts)]⟩]
  | text t => IsRecord [kindMember .text] [.text "text" t]
  | foreign label payload children =>
    IsRecord [kindMember .foreign]
      [.text "label" label, ⟨"payload", payload = "", fun j => j = .string payload⟩,
        .list "children" (children = []) (AreSpellings children)]

/-- The layouts of a list of trees, each laid out in its own way. -/
def AreSpellings : List Node → List Json → Prop
  | [], js => js = []
  | n :: ns, js => ∃ j js', n.IsSpelling j ∧ AreSpellings ns js' ∧ js = j :: js'

end

/-- An object of a tag and of the fields in their order, and of nothing else, is a layout. -/
theorem IsRecord.of_given {tag given : List (String × Json)} {fields : List Field}
    (h : Given fields given) : IsRecord tag fields (.object (tag ++ given)) := by
  refine .object h (List.forall_mem_nil _) ?_
  rw [List.append_nil]

mutual

/-- A tree is written in one of its layouts. -/
theorem isSpelling_toJson : (n : Node) → n.IsSpelling n.toJson
  | document children =>
    .of_given (.given ⟨_, areSpellings_toJsonAll children, rfl⟩ .nil)
  | method _ children =>
    .of_given (.given rfl (.given ⟨_, areSpellings_toJsonAll children, rfl⟩ .nil))
  | markup _ => .of_given (.given ⟨_, rfl, rfl⟩ .nil)
  | element _ children =>
    .of_given (.given rfl (.given ⟨_, areSpellings_toJsonAll children, rfl⟩ .nil))
  | attr _ parts =>
    .of_given (.given rfl (.given
      (.of_given (.given ⟨_, areSpellings_toJsonAll parts, rfl⟩ .nil)) .nil))
  | text _ => .of_given (.given rfl .nil)
  | foreign _ _ [] => .of_given (.given rfl (.given rfl (.leftOut rfl .nil)))
  | foreign _ _ (child :: children) =>
    .of_given (.given rfl (.given rfl
      (.given ⟨_, areSpellings_toJsonAll (child :: children), rfl⟩ .nil)))

theorem areSpellings_toJsonAll : (ns : List Node) → AreSpellings ns (toJsonAll ns)
  | [] => rfl
  | n :: ns => ⟨_, _, isSpelling_toJson n, areSpellings_toJsonAll ns, rfl⟩

end

/-! ### What is found by key -/

section Members

variable {key : String} {members given : List (String × Json)} {j : Json}
  {tag : List (String × Json)} {fields : List Field}

theorem member?_eq_none_iff : Json.member? key members = none ↔ key ∉ members.map Prod.fst := by
  induction members with
  | nil => simp [Json.member?]
  | cons m members ih =>
    by_cases hkey : m.1 = key
    · simp [Json.member?, hkey]
    · simp [Json.member?, hkey, Ne.symm hkey, ih]

/-- If a key is given once, the member with the key is found wherever it stands. -/
theorem member?_eq_some_iff (h : Json.countKey key members ≤ 1) :
    Json.member? key members = some j ↔ (key, j) ∈ members := by
  induction members with
  | nil => simp [Json.member?]
  | cons m members ih =>
    obtain ⟨k, v⟩ := m
    rw [countKey_eq_count] at h ih
    by_cases hkey : k = key
    · subst hkey
      have hnone : k ∉ members.map Prod.fst := by
        rw [← List.count_eq_zero]
        simp only [List.map_cons, List.count_cons_self] at h
        omega
      have hmem : (k, j) ∉ members := fun hj => hnone (List.mem_map_of_mem hj)
      simp [Json.member?, hmem, eq_comm]
    · rw [List.map_cons, List.count_cons_of_ne hkey] at h
      simp [Json.member?, hkey, Ne.symm hkey, ih h]

theorem countKey_eq_one (h : Json.countKey key members ≤ 1)
    (hfound : Json.member? key members = some j) : Json.countKey key members = 1 :=
  le_antisymm h (List.countP_pos_iff.2 ⟨_, (member?_eq_some_iff h).1 hfound, by simp⟩)

/-- A field is given by the members of an object if what is found by its key is one of the ways to
write its value, or nothing is found and the field holds its default. -/
def Field.IsIn (f : Field) (members : List (String × Json)) : Prop :=
  (∃ j, Json.member? f.key members = some j ∧ f.spelled j) ∨
    (Json.member? f.key members = none ∧ f.isDefault)

/-- What is found by key in an object: its keys are given once at most, its tag is as it should be,
and all of its fields are given. -/
structure Finds (tag : List (String × Json)) (fields : List Field)
    (members : List (String × Json)) : Prop where
  once : ∀ key ∈ recordKeys tag fields, Json.countKey key members ≤ 1
  tagged : ∀ m ∈ tag, Json.member? m.1 members = some m.2
  given : ∀ f ∈ fields, f.IsIn members

theorem Given.sublist (h : Given fields given) :
    (given.map Prod.fst).Sublist (fields.map Field.key) := by
  induction h with
  | nil => exact .slnil
  | given hj h ih => exact ih.cons_cons _
  | leftOut hf h ih => exact ih.cons _

theorem Given.mem_or (h : Given fields given) (hkeys : (fields.map Field.key).Nodup) :
    ∀ f ∈ fields, (∃ j, (f.key, j) ∈ given ∧ f.spelled j) ∨
      (f.isDefault ∧ f.key ∉ given.map Prod.fst) := by
  induction h with
  | nil => simp
  | @given f fields j members hj h ih =>
    obtain ⟨hfresh, hrest⟩ := List.nodup_cons.1 hkeys
    refine List.forall_mem_cons.2 ⟨.inl ⟨j, List.mem_cons_self, hj⟩, fun g hg => ?_⟩
    rcases ih hrest g hg with ⟨j', hmem, hj'⟩ | ⟨hdefault, hnot⟩
    · exact .inl ⟨j', List.mem_cons_of_mem _ hmem, hj'⟩
    · have hne : g.key ≠ f.key := fun heq => hfresh (heq ▸ List.mem_map_of_mem hg)
      exact .inr ⟨hdefault, by simpa [hne] using hnot⟩
  | leftOut hf h ih =>
    obtain ⟨hfresh, hrest⟩ := List.nodup_cons.1 hkeys
    exact List.forall_mem_cons.2 ⟨.inr ⟨hf, fun hmem => hfresh (h.sublist.subset hmem)⟩, ih hrest⟩

/-- In whatever order an object gives a record, and whatever else it holds, the record is found
in it. -/
theorem IsRecord.finds (h : IsRecord tag fields (.object members))
    (hkeys : (recordKeys tag fields).Nodup) : Finds tag fields members := by
  -- What is counted or found by key depends on the order only if the key is given twice, and the
  -- members that are no fields have none of the keys.
  obtain @⟨_, given, extra, hgiven, hextra, hmembers⟩ := h
  obtain ⟨-, hfields, hdisjoint⟩ := List.nodup_append.1 hkeys
  have hknown : ((tag ++ given).map Prod.fst).Sublist (recordKeys tag fields) := by
    rw [List.map_append]
    exact (List.Sublist.refl _).append hgiven.sublist
  have once : ∀ key ∈ recordKeys tag fields, Json.countKey key members ≤ 1 := by
    intro key hkey
    have hnot : key ∉ extra.map Prod.fst := by
      intro hmem
      obtain ⟨m, hm, rfl⟩ := List.mem_map.1 hmem
      exact hextra m hm hkey
    rw [countKey_eq_count, (hmembers.map Prod.fst).count_eq, List.map_append, List.count_append,
      List.count_eq_zero.2 hnot]
    exact List.nodup_iff_count_le_one.1 (hkeys.sublist hknown) key
  refine ⟨once, fun m hm => ?_, fun f hf => ?_⟩
  · have hkey : m.1 ∈ recordKeys tag fields :=
      List.mem_append_left _ (List.mem_map_of_mem hm)
    rw [member?_eq_some_iff (once _ hkey), hmembers.mem_iff]
    simp [hm]
  · have hkey : f.key ∈ recordKeys tag fields :=
      List.mem_append_right _ (List.mem_map_of_mem hf)
    rcases hgiven.mem_or hfields f hf with ⟨j, hmem, hj⟩ | ⟨hdefault, hnot⟩
    · have hfound : Json.member? f.key members = some j := by
        rw [member?_eq_some_iff (once _ hkey), hmembers.mem_iff]
        simp [hmem]
      exact .inl ⟨j, hfound, hj⟩
    · have hmissing : Json.member? f.key members = none := by
        rw [member?_eq_none_iff, (hmembers.map Prod.fst).mem_iff, List.map_append, List.map_append,
          List.mem_append, List.mem_append, not_or, not_or]
        refine ⟨⟨fun htag => hdisjoint _ htag _ (List.mem_map_of_mem hf) rfl, hnot⟩, fun hmem => ?_⟩
        obtain ⟨m, hm, heq⟩ := List.mem_map.1 hmem
        exact hextra m hm (heq ▸ hkey)
      exact .inr ⟨hmissing, hdefault⟩

end Members

/-! ### Reading records -/

section Reading

variable {kind : Kind} {key s : String} {members : List (String × Json)} {j : Json}
  {values : List Json} {fields : List Field} {items : List Json → Prop} {ns : List Node}

theorem Finds.ofMembers? (h : Finds [kindMember kind] fields members)
    (hfields : fields.map Field.key = kind.keys) (numbered : Bool) :
    Kind.ofMembers? numbered members = some kind := by
  have hkeys : recordKeys [kindMember kind] fields = "kind" :: kind.keys := by
    rw [recordKeys, hfields]
    rfl
  have hkind : Json.member? "kind" members = some (.string kind.name) :=
    h.tagged (kindMember kind) List.mem_cons_self
  have hone : Json.countKey "kind" members = 1 :=
    countKey_eq_one (h.once _ (by simp [hkeys])) hkind
  have honce : ∀ key ∈ kind.keys, Json.countKey key members ≤ 1 :=
    fun key hkey => h.once key (by simp [hkeys, hkey])
  simpa [Kind.ofMembers?, hone, hkind, Kind.ofJson?, Kind.find?_name] using honce

/-- The layouts of a node, taken apart. An object names the kind, wherever that stands, and gives
the fields; an array begins with the kind. -/
theorem IsRecord.ofKind (h : IsRecord [kindMember kind] fields j)
    (hfields : fields.map Field.key = kind.keys) :
    (∃ members, j = .object members ∧
      (∀ numbered, Kind.ofMembers? numbered members = some kind) ∧
      ∀ f ∈ fields, f.IsIn members) ∨
    ∃ values, j = .array (.string kind.name :: values) ∧ Listed fields values := by
  cases j with
  | object members =>
    have hkeys : (recordKeys [kindMember kind] fields).Nodup := by
      rw [recordKeys, hfields]
      exact kind.nodup_keys
    have hfinds := h.finds hkeys
    exact .inl ⟨members, rfl, hfinds.ofMembers? hfields, hfinds.given⟩
  | array values =>
    obtain _ | ⟨hlisted⟩ := h
    exact .inr ⟨_, rfl, hlisted⟩
  | _ => cases h

theorem read?_array (numbered : Bool) (kind : Kind) (values : List Json) :
    read? numbered (.array (.string kind.name :: values)) = readFields? kind values := by
  simp [read?, Kind.ofJson?, Kind.find?_name]

/-! ### Reading fields -/

theorem Listed.eq_nil (h : Listed [] values) : values = [] := by
  cases h
  rfl

theorem Listed.text (h : Listed (.text key s :: fields) values) :
    ∃ more, values = .string s :: more ∧ Listed fields more := by
  cases h with
  | given hj h => exact ⟨_, by rw [show _ = Json.string s from hj], h⟩
  | leftOut h => exact (h _ List.mem_cons_self).elim

theorem Listed.last {f : Field} (h : Listed [f] values) :
    (values = [] ∧ f.isDefault) ∨ ∃ j, values = [j] ∧ f.spelled j := by
  cases h with
  | given hj h => exact .inr ⟨_, by rw [h.eq_nil], hj⟩
  | leftOut h => exact .inl ⟨rfl, h _ List.mem_cons_self⟩

theorem Listed.list {isDefault : Prop} (h : Listed [.list key isDefault items] values) :
    (values = [] ∧ isDefault) ∨ ∃ js, values = [.array js] ∧ items js := by
  obtain hnone | ⟨_, rfl, js, hjs, rfl⟩ := h.last
  · exact .inl hnone
  · exact .inr ⟨js, rfl, hjs⟩

theorem Listed.named {key' : String} {isDefault : Prop}
    (h : Listed [.text key s, .list key' isDefault items] values) :
    (values = [.string s] ∧ isDefault) ∨ ∃ js, values = [.string s, .array js] ∧ items js := by
  obtain ⟨_, rfl, hmore⟩ := h.text
  obtain ⟨rfl, hdefault⟩ | ⟨js, rfl, hjs⟩ := hmore.list
  · exact .inl ⟨rfl, hdefault⟩
  · exact .inr ⟨js, rfl, hjs⟩

theorem Field.IsIn.text (h : (Field.text key s).IsIn members) :
    stringMember? key members = some s := by
  obtain ⟨_, hfound, rfl⟩ | ⟨-, ⟨⟩⟩ := h
  exact Option.bind_eq_some_iff.2 ⟨_, hfound, rfl⟩

theorem Field.IsIn.textOrEmpty (h : Field.IsIn ⟨key, s = "", fun j => j = .string s⟩ members) :
    stringMemberOrEmpty? key members = some s := by
  obtain ⟨_, hfound, rfl⟩ | ⟨hfound, rfl⟩ := h <;> rw [stringMemberOrEmpty?, hfound]
  rfl

theorem Field.IsIn.list (h : (Field.list key False items).IsIn members) :
    ∃ js, items js ∧ Json.member? key members = some (.array js) := by
  obtain ⟨_, hfound, js, hjs, rfl⟩ | ⟨-, ⟨⟩⟩ := h
  exact ⟨js, hjs, hfound⟩

theorem readChildren?_eq (members : List (String × Json)) :
    readChildren? members = (Json.member? "children" members).elim (some []) readList? := by
  induction members with
  | nil => simp [readChildren?, Json.member?]
  | cons m members ih =>
    rw [readChildren?, Json.member?]
    split <;> simp [ih]

theorem readParts?_eq (members : List (String × Json)) :
    readParts? members = (Json.member? "parts" members).bind readList? := by
  induction members with
  | nil => simp [readParts?, Json.member?]
  | cons m members ih =>
    rw [readParts?, Json.member?]
    split <;> simp [ih]

theorem readValueMember?_eq (members : List (String × Json)) :
    readValueMember? members = (Json.member? "value" members).bind readValue? := by
  induction members with
  | nil => simp [readValueMember?, Json.member?]
  | cons m members ih =>
    rw [readValueMember?, Json.member?]
    split <;> simp [ih]

/-- Children are read if they are given, and there are none if they are not. -/
theorem Field.IsIn.children (h : (Field.list "children" (ns = []) items).IsIn members)
    (hread : ∀ js, items js → readAll? js = some ns) : readChildren? members = some ns := by
  rw [readChildren?_eq]
  obtain ⟨_, hfound, js, hjs, rfl⟩ | ⟨hfound, rfl⟩ := h
  · rw [show Json.member? "children" members = some (.array js) from hfound, Option.elim_some,
      readList?, hread js hjs]
  · rw [show Json.member? "children" members = none from hfound, Option.elim_none]

/-- The value of an attribute is read from either layout. -/
theorem readValue?_of_isRecord (h : IsRecord [] [.list "parts" False items] j)
    (hread : ∀ js, items js → readAll? js = some ns) : readValue? j = some ns := by
  cases j with
  | object members =>
    have hfinds := h.finds (List.nodup_singleton "parts")
    have honce : Json.countKey "parts" members ≤ 1 := hfinds.once _ List.mem_cons_self
    obtain ⟨js, hjs, hfound⟩ := (hfinds.given _ List.mem_cons_self).list
    simp [readValue?, countKey_eq_one honce hfound, readParts?_eq, hfound, readList?, hread js hjs]
  | array values =>
    obtain _ | ⟨hlisted⟩ := h
    obtain ⟨-, ⟨⟩⟩ | ⟨js, rfl, hjs⟩ := hlisted.list
    simp [readValue?, readList?, hread js hjs]
  | _ => cases h

theorem Field.IsIn.value {spelled : Json → Prop}
    (h : Field.IsIn ⟨"value", False, spelled⟩ members)
    (hread : ∀ j, spelled j → readValue? j = some ns) : readValueMember? members = some ns := by
  obtain ⟨j, hfound, hj⟩ | ⟨-, ⟨⟩⟩ := h
  rw [readValueMember?_eq]
  exact Option.bind_eq_some_iff.2 ⟨j, hfound, hread j hj⟩

end Reading

/-! ### Reading trees -/

mutual

/-- Every layout of a tree is read as the tree, at the root and below it. -/
theorem read?_of_isSpelling (numbered : Bool) : (n : Node) → ∀ j, n.IsSpelling j →
    read? numbered j = some n
  | document children, j, h => by
    have hread := readAll?_of_areSpellings children
    rw [IsSpelling] at h
    obtain ⟨members, rfl, hkind, hin⟩ | ⟨values, rfl, hlisted⟩ := h.ofKind rfl
    · have hchildren := (hin _ List.mem_cons_self).children hread
      simp [read?, hkind, hchildren]
    · rw [read?_array]
      obtain ⟨rfl, rfl⟩ | ⟨js, rfl, hjs⟩ := hlisted.list
      · rfl
      · simp [readFields?, readList?, hread js hjs]
  | method name children, j, h => by
    have hread := readAll?_of_areSpellings children
    rw [IsSpelling] at h
    obtain ⟨members, rfl, hkind, hin⟩ | ⟨values, rfl, hlisted⟩ := h.ofKind rfl
    · simp only [List.forall_mem_cons] at hin
      obtain ⟨hname, hchildren, -⟩ := hin
      simp [read?, hkind, hname.text, hchildren.children hread]
    · rw [read?_array]
      obtain ⟨rfl, rfl⟩ | ⟨js, rfl, hjs⟩ := hlisted.named
      · rfl
      · simp [readFields?, readList?, hread js hjs]
  | markup pieces, j, h => by
    rw [IsSpelling] at h
    obtain ⟨members, rfl, hkind, hin⟩ | ⟨values, rfl, hlisted⟩ := h.ofKind rfl
    · obtain ⟨_, rfl, hfound⟩ := (hin _ List.mem_cons_self).list
      simp [read?, hkind, hfound, Json.strings?, mapM_string? pieces]
    · rw [read?_array]
      obtain ⟨-, ⟨⟩⟩ | ⟨js, rfl, rfl⟩ := hlisted.list
      simp [readFields?, Json.strings?, mapM_string? pieces]
  | element name children, j, h => by
    have hread := readAll?_of_areSpellings children
    rw [IsSpelling] at h
    obtain ⟨members, rfl, hkind, hin⟩ | ⟨values, rfl, hlisted⟩ := h.ofKind rfl
    · simp only [List.forall_mem_cons] at hin
      obtain ⟨hname, hchildren, -⟩ := hin
      simp [read?, hkind, hname.text, hchildren.children hread]
    · rw [read?_array]
      obtain ⟨rfl, rfl⟩ | ⟨js, rfl, hjs⟩ := hlisted.named
      · rfl
      · simp [readFields?, readList?, hread js hjs]
  | attr name parts, j, h => by
    have hread (value : Json)
        (hvalue : IsRecord [] [.list "parts" False (AreSpellings parts)] value) :
        readValue? value = some parts :=
      readValue?_of_isRecord hvalue (readAll?_of_areSpellings parts)
    rw [IsSpelling] at h
    obtain ⟨members, rfl, hkind, hin⟩ | ⟨values, rfl, hlisted⟩ := h.ofKind rfl
    · simp only [List.forall_mem_cons] at hin
      obtain ⟨hname, hvalue, -⟩ := hin
      simp [read?, hkind, hname.text, hvalue.value hread]
    · rw [read?_array]
      obtain ⟨more, rfl, hmore⟩ := hlisted.text
      obtain ⟨-, ⟨⟩⟩ | ⟨value, rfl, hvalue⟩ := hmore.last
      simp [readFields?, hread value hvalue]
  | text t, j, h => by
    rw [IsSpelling] at h
    obtain ⟨members, rfl, hkind, hin⟩ | ⟨values, rfl, hlisted⟩ := h.ofKind rfl
    · have htext := (hin _ List.mem_cons_self).text
      simp [read?, hkind, htext]
    · rw [read?_array]
      obtain ⟨more, rfl, hmore⟩ := hlisted.text
      rw [hmore.eq_nil]
      rfl
  | foreign label payload children, j, h => by
    have hread := readAll?_of_areSpellings children
    rw [IsSpelling] at h
    obtain ⟨members, rfl, hkind, hin⟩ | ⟨values, rfl, hlisted⟩ := h.ofKind rfl
    · simp only [List.forall_mem_cons] at hin
      obtain ⟨hlabel, hpayload, hchildren, -⟩ := hin
      simp [read?, hkind, hlabel.text, hpayload.textOrEmpty, hchildren.children hread]
    · rw [read?_array]
      obtain ⟨more, rfl, hmore⟩ := hlisted.text
      cases hmore with
      | leftOut hdefault =>
        obtain rfl : payload = "" := hdefault _ List.mem_cons_self
        obtain rfl : children = [] := hdefault _ (List.mem_cons_of_mem _ List.mem_cons_self)
        rfl
      | given hj hmore =>
        obtain rfl := hj
        obtain ⟨rfl, rfl⟩ | ⟨js, rfl, hjs⟩ := hmore.list
        · rfl
        · simp [readFields?, readList?, hread js hjs]

theorem readAll?_of_areSpellings : (ns : List Node) → ∀ js, AreSpellings ns js →
    readAll? js = some ns
  | [], js, h => by
    rw [AreSpellings] at h
    rw [h, readAll?]
  | n :: ns, js, h => by
    rw [AreSpellings] at h
    obtain ⟨j, js', hj, hjs', rfl⟩ := h
    simp [readAll?, read?_of_isSpelling true n j hj, readAll?_of_areSpellings ns js' hjs']

end

end MarkupTree.Node
