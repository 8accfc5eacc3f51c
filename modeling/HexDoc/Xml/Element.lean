/-
HexDoc/Xml/Element.lean

The elements that a document is written in, and their text.  A number is one line,
`<number>16</number>`; so is an element without children, which still has both its tags.
Otherwise the tags stand on lines of their own around the children, which are indented by two
spaces more.

In an attribute, the characters that would end it or start markup, and the blanks other than
the space, are written as entities.
-/
import HexDoc.Value.Basic

namespace HexDoc.Xml

/-- An element: a number, or a tag with an optional name attribute around further elements. -/
inductive Element where
  | number (n : Nat)
  | branch (tag : String) (name? : Option String) (children : List Element)
deriving Repr

/-- A character of an attribute. -/
def escapeChar (c : Char) : List Char :=
  match c with
  | '&' => "&amp;".toList
  | '<' => "&lt;".toList
  | '>' => "&gt;".toList
  | '\"' => "&quot;".toList
  | '\r' => "&#13;".toList
  | '\n' => "&#10;".toList
  | '\t' => "&#09;".toList
  | c => [c]

/-- The text of an attribute. -/
def escape (s : List Char) : List Char :=
  s.flatMap escapeChar

/-- The indentation of what stands inside `depth` elements. -/
def indent (depth : Nat) : List Char :=
  List.replicate (2 * depth) ' '

/-- A start tag. -/
def startTag (tag : String) (name? : Option String) : List Char :=
  match name? with
  | none => '<' :: tag.toList ++ ['>']
  | some name => '<' :: tag.toList ++ " name=\"".toList ++ escape name.toList ++ "\">".toList

/-- An end tag. -/
def endTag (tag : String) : List Char :=
  "</".toList ++ tag.toList ++ ['>']

namespace Element

mutual

/-- The lines of an element that stands inside `depth` others. -/
def render (depth : Nat) : Element → List Char
  | .number n =>
    indent depth ++ startTag "number" none ++ Nat.toDigits 10 n ++ endTag "number" ++ ['\n']
  | .branch tag name? [] => indent depth ++ startTag tag name? ++ endTag tag ++ ['\n']
  | .branch tag name? (child :: children) =>
    indent depth ++ startTag tag name? ++ ['\n'] ++
      (render (depth + 1) child ++ renderAll (depth + 1) children) ++
      indent depth ++ endTag tag ++ ['\n']

/-- The lines of elements that stand side by side inside `depth` others. -/
def renderAll (depth : Nat) : List Element → List Char
  | [] => []
  | e :: es => render depth e ++ renderAll depth es

end

end Element

end HexDoc.Xml
