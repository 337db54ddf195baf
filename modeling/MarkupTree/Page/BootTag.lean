import MarkupTree.Markup.Lexeme

/-!
# The boot tag of a template

A template marks the place of the loader by a script of a type of its own. The first such script
counts, from its start tag to its end tag.

## Main definitions

* `Page.bootAttributes?` : the attributes of a start tag that marks the place.
* `Page.BootTag` : the mark in its surroundings.
* `Page.findBootTag` : the first mark of a template.

## Main results

* `Page.findBootTag_append` : what stands before, in and after the mark makes up the template.
-/

namespace MarkupTree.Page

/-- The type of the script that marks the place of the loader. -/
def bootType : String := "blazor-boot"

/-- Whether attributes give the type of the mark, with or without white space around it and in any
letter case. -/
def hasBootType (attributes : List Attribute) : Bool :=
  attributes.any fun a => a.name == "type" &&
    a.value.any fun value => Ascii.equalFold (White.trimmed value) bootType

/-- The attributes of a token, if it is a start tag that marks the place. -/
def bootAttributes? : Token → Option (List Attribute)
  | .startTag name attributes _ =>
    if name = "script" ∧ hasBootType attributes then some attributes else none
  | _ => none

/-- A mark with the lexemes before it, those of the mark itself, and those after it. -/
structure BootTag where
  before : List Lexeme
  attributes : List Attribute
  marked : List Lexeme
  after : List Lexeme

/-- Lexemes cut after the first end tag of a script. Without one, nothing is cut off. -/
def cutAfterEnd : List Lexeme → List Lexeme × List Lexeme
  | [] => ([], [])
  | l :: ls =>
    if l.token = .endTag "script" then ([l], ls)
    else ((l :: (cutAfterEnd ls).1), (cutAfterEnd ls).2)

/-- Whether a token is a start tag that closes itself. -/
def closesItself : Token → Bool
  | .startTag _ _ .selfClosing => true
  | _ => false

/-- The first mark among lexemes. -/
def findBootTag : List Lexeme → Option BootTag
  | [] => none
  | l :: ls =>
    match bootAttributes? l.token with
    | some attributes =>
      if closesItself l.token then some ⟨[], attributes, [l], ls⟩
      else some ⟨[], attributes, l :: (cutAfterEnd ls).1, (cutAfterEnd ls).2⟩
    | none => (findBootTag ls).map fun tag => { tag with before := l :: tag.before }

theorem cutAfterEnd_append (ls : List Lexeme) : (cutAfterEnd ls).1 ++ (cutAfterEnd ls).2 = ls := by
  induction ls with
  | nil => rfl
  | cons l ls ih =>
    unfold cutAfterEnd
    split <;> simp [ih]

/-- What stands before, in and after the mark makes up the template. -/
theorem findBootTag_append {ls : List Lexeme} {tag : BootTag} (h : findBootTag ls = some tag) :
    tag.before ++ tag.marked ++ tag.after = ls := by
  induction ls generalizing tag with
  | nil => simp [findBootTag] at h
  | cons l ls ih =>
    unfold findBootTag at h
    split at h
    · split at h <;> cases h <;> simp [cutAfterEnd_append]
    · obtain ⟨found, hf, rfl⟩ := Option.map_eq_some_iff.1 h
      simp [← ih hf]

end MarkupTree.Page
