/-!
# Markup tokens

The pieces that markup text is made of, and the stretch of source text that each comes from.

## Main definitions

* `Attribute` : an attribute as a start tag has it.
* `TagEnd` : the ways a start tag can end.
* `Token`, `Token.Kind` : tokens, and what sort of token one is.
* `Span` : a stretch of source text, in bytes.
-/

namespace MarkupTree

/-- An attribute of a start tag. One written without a value differs from one whose value is
empty. -/
structure Attribute where
  name : String
  value : Option String
deriving DecidableEq

/-- The ways a start tag can end: in `>`, as a tag that closes itself, or not at all, because the
text ended first. A void element's tag closes itself however it ends. -/
inductive TagEnd
  | plain
  | selfClosing
  | cutOff
deriving DecidableEq

/-- A piece of markup. Names are in small letters; the texts of attribute values and of ordinary
text have their character references decoded. -/
inductive Token
  | doctype (text : String)
  | startTag (name : String) (attributes : List Attribute) (ending : TagEnd)
  | endTag (name : String)
  | text (text : String)
  | comment (text : String)
  | endOfInput
deriving DecidableEq

namespace Token

/-- The sorts of token. -/
inductive Kind
  | doctype
  | startTag
  | endTag
  | text
  | comment
  | endOfInput
deriving DecidableEq

/-- The sort of a token. -/
def kind : Token → Kind
  | doctype _ => .doctype
  | startTag .. => .startTag
  | endTag _ => .endTag
  | text _ => .text
  | comment _ => .comment
  | endOfInput => .endOfInput

/-- What a sort of token is called in messages. -/
def Kind.label : Kind → String
  | doctype => "doctype"
  | startTag => "start tag"
  | endTag => "end tag"
  | text => "text"
  | comment => "comment"
  | endOfInput => "end of input"

/-- Whether the text ended inside this token, a start tag. -/
def isCutOff : Token → Bool
  | startTag _ _ ending => ending == .cutOff
  | _ => false

end Token

/-- A stretch of source text, given by the bytes before its start and before its end. -/
structure Span where
  start : Nat
  stop : Nat
deriving DecidableEq

/-- Whether a stretch holds no text. -/
def Span.isEmpty (span : Span) : Bool := span.start == span.stop

end MarkupTree
