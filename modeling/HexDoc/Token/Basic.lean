/-
HexDoc/Token/Basic.lean

Tokens of the document language: what kinds there are, how each is named in messages, and the
one-line text of a token.
-/
import HexDoc.Text.Position

namespace HexDoc

/-- The kinds of token. -/
inductive Kind
  | openBrace
  | closeBrace
  | colon
  | comma
  | equals
  | openBracket
  | closeBracket
  | number
  | name
  | endOfText
deriving DecidableEq, Repr

namespace Kind

/-- Every kind, punctuation first. -/
def all : List Kind :=
  [openBrace, closeBrace, colon, comma, equals, openBracket, closeBracket, number, name, endOfText]

/-- The word that messages use for a kind. -/
def label : Kind → String
  | openBrace => "LBRACE"
  | closeBrace => "RBRACE"
  | colon => "COLON"
  | comma => "COMMA"
  | equals => "EQ"
  | openBracket => "LBRACK"
  | closeBracket => "RBRACK"
  | number => "NUMBER"
  | name => "IDENT"
  | endOfText => "EOF"

/-- The kind of a punctuation mark. -/
def ofMark? : Char → Option Kind
  | '{' => some openBrace
  | '}' => some closeBrace
  | ':' => some colon
  | ',' => some comma
  | '=' => some equals
  | '[' => some openBracket
  | ']' => some closeBracket
  | _ => none

/-- The kind that a label names. -/
def ofLabel? (s : String) : Option Kind :=
  all.find? fun k => k.label = s

end Kind

/-- A piece of text with its kind and the place of its first character. -/
structure Token where
  kind : Kind
  /-- The text as written; empty at the end of the document. -/
  text : String
  position : Position
deriving DecidableEq, Repr

namespace Token

/-- The one-line text of a token: kind, text in quotes, place. -/
def render (t : Token) : String :=
  t.kind.label ++ "('" ++ t.text ++ "')@" ++ t.position.render

end Token

end HexDoc
