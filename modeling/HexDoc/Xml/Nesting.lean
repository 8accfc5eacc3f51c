/-
HexDoc/Xml/Nesting.lean

When the lines of a document are well nested: tags match, the innermost first, and a line is
indented by two spaces for each element that it stands in.

`openAfter?` keeps account of the tags that are open, and `Nested` is the rule for lines.
-/
import HexDoc.Text.Lines
import HexDoc.Xml.Reader

namespace HexDoc.Xml

/-- The tags that are open behind some pieces, the innermost first, when these are open before
them. -/
def openAfter? : List String → List Piece → Option (List String)
  | tags, [] => some tags
  | tags, .startTag tag _ :: ps => openAfter? (tag :: tags) ps
  | tags, .number _ :: ps => openAfter? tags ps
  | [], .endTag _ :: _ => none
  | tag :: tags, .endTag tag' :: ps => if tag' = tag then openAfter? tags ps else none

/-- The lines up to the end of the outermost element, when these tags are open before them.  Each
line is made of an indentation and of pieces, it starts with a tag, and it is indented for the
elements that are open both before and behind it.  Nothing follows the outermost element. -/
inductive Nested : List String → List (List Char) → Prop
  | done : Nested [] []
  | line {tags tags' : List String} {text : List Char} {ps : List Piece} {ls : List (List Char)} :
      text.head? = some '<' → pieces? text = some ps → openAfter? tags ps = some tags' →
      (tags' = [] → ls = []) → Nested tags' ls →
      Nested tags ((indent (min tags.length tags'.length) ++ text) :: ls)

end HexDoc.Xml
