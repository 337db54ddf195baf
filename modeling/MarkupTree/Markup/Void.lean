import MarkupTree.Text.Ascii

/-!
# Elements known by name

Two families of elements are known by their names: void elements, which have no content and no
end tag, and elements whose content is raw text, in which no markup is recognised.

## Main definitions

* `isVoid` : the void elements, in any letter case.
* `hasRawText` : the elements with raw text, by their name in small letters.
-/

namespace MarkupTree

/-- The names of the void elements. -/
def voidNames : List String :=
  ["area", "base", "br", "col", "embed", "hr", "img", "input", "link", "meta", "param", "source",
    "track", "wbr"]

/-- Whether a name, in any letter case, is that of a void element. -/
def isVoid (name : String) : Bool := voidNames.any (Ascii.equalFold · name)

/-- Whether the element of this name has raw text for its content. -/
def hasRawText (name : String) : Bool := name == "script" || name == "style"

end MarkupTree
