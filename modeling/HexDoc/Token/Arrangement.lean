/-
HexDoc/Token/Arrangement.lean

Tokens in a row, each with the gap that stands before it, and what stands behind the last of them.
An arrangement is written out as its `text`, and it is `IsSpaced` when it keeps to the rule for
gaps: nothing but blanks and comments stands between tokens, and something does where they would
run together.  Where each token stands in the text is told without reading it: `offsets` counts the
characters in front.

Where `Layout` relates tokens to the texts that they are laid out as, an arrangement keeps the gaps
that were chosen.
-/
import HexDoc.Token.Layout

namespace HexDoc

/-- Tokens with the gaps before, between and behind them. -/
inductive Arrangement
  | ending (gap : List Char)
  | token (gap : List Char) (l : Lexeme) (rest : Arrangement)

namespace Arrangement

/-- The gaps and the tokens, one behind the other. -/
def text : Arrangement → List Char
  | ending g => g
  | token g l a => g ++ (l.2.toList ++ a.text)

/-- The tokens, in their order. -/
def lexemes : Arrangement → List Lexeme
  | ending _ => []
  | token _ l a => l :: a.lexemes

/-- The offsets of the tokens, with this many characters in front. -/
def offsets (front : Nat) : Arrangement → List Nat
  | ending _ => []
  | token g l a => (front + g.length) :: a.offsets (front + g.length + l.2.toList.length)

/-- There are tokens of the language and gaps only, behind a token if there is one, and a gap is
not empty where tokens would run together. -/
def IsSpaced (before : Option Lexeme) : Arrangement → Prop
  | ending g => LastGap g
  | token g l a =>
    Gap g ∧ IsLexeme l ∧ (before.any (needsGap · l) = true → g ≠ []) ∧ a.IsSpaced (some l)

end Arrangement

end HexDoc
