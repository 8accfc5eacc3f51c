/-
HexDoc/Token/Layout.lean

Laying out tokens as text.  Between two tokens stands a gap, which is a row of blanks, line
comments and block comments; a gap may be empty unless the tokens would run together.  A line
comment ends with its line, or with the text.

`Gap` is the rule for gaps, `needsGap` tells which tokens run together, and `Layout` is the rule
for whole texts.
-/
import HexDoc.Document.Written
import HexDoc.Token.Gap

namespace HexDoc

/-- Text in which a block comment does not end. -/
def IsCommentBody (cs : List Char) : Prop :=
  ¬ ['=', '#'] <:+: cs

/-- Text that may stand between two tokens. -/
inductive Gap : List Char → Prop
  | empty : Gap []
  | blank {c : Char} {g : List Char} : isBlank c = true → Gap g → Gap (c :: g)
  | blockComment {body g : List Char} :
      IsCommentBody body → Gap g → Gap ('#' :: '=' :: (body ++ '=' :: '#' :: g))
  | lineComment {body g : List Char} :
      '\n' ∉ body → body.head? ≠ some '=' → Gap g → Gap ('#' :: (body ++ '\n' :: g))

/-- Text that may stand behind the last token: a gap, with a line comment behind it at most. -/
inductive LastGap : List Char → Prop
  | gap {g : List Char} : Gap g → LastGap g
  | lineComment {g body : List Char} :
      Gap g → '\n' ∉ body → body.head? ≠ some '=' → LastGap (g ++ '#' :: body)

/-- Text that is a token of a kind. -/
def IsLexeme (l : Lexeme) : Prop :=
  match l.1 with
  | .number => ∃ x ds, l.2.toList = '0' :: x :: ds ∧ (x = 'x' ∨ x = 'X') ∧ ds.all isHexDigit = true
  | .name => IsName l.2
  | .endOfText => False
  | k => ∃ c, l.2.toList = [c] ∧ Kind.ofMark? c = some k

/-- Whether two tokens run together when nothing stands between them: a name before a name or a
number, and a number before a number or before a name that starts with a hex digit. -/
def needsGap (l m : Lexeme) : Bool :=
  match l.1, m.1 with
  | .name, .name => true
  | .name, .number => true
  | .number, .number => true
  | .number, .name => m.2.toList.head?.any isHexDigit
  | _, _ => false

/-- A text that goes on, after a token if there is one, with these tokens and with the gaps
before, between and behind them. -/
inductive Layout : Option Lexeme → List Lexeme → List Char → Prop
  | stop {before : Option Lexeme} {g : List Char} : LastGap g → Layout before [] g
  | token {before : Option Lexeme} {g cs : List Char} {l : Lexeme} {ls : List Lexeme} :
      Gap g → (before.any (needsGap · l) = true → g ≠ []) → Layout (some l) ls cs →
      Layout before (l :: ls) (g ++ l.2.toList ++ cs)

end HexDoc
