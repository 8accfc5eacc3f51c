/-
HexDoc/Token/Turns.lean

The loops of reading tokens, turn by turn.  A turn of `Cursor.skipTurn` tries the kinds of ignored
piece one after the other and passes the first that a text begins with; a turn of
`Cursor.tokenTurn` reads one token.  The length of a piece is no length at all where there is none,
which is another thing than a piece of length zero: that one would be passed for ever.
-/
import HexDoc.Loop
import HexDoc.Token.Scan

namespace HexDoc

/-- The kinds of piece that are ignored, in the order in which they are tried. -/
inductive IgnoredKind
  | blanks
  | blockComment
  | lineComment
deriving DecidableEq, Repr

namespace IgnoredKind

/-- The length of the piece of a kind that a text begins with, if it begins with one. -/
def length? : IgnoredKind → List Char → Option Nat
  | .blanks, c :: cs => if isBlank c then some (runLength isBlank cs + 1) else none
  | .blockComment, '#' :: '=' :: cs => (closingLength? cs).map (· + 2)
  | .lineComment, '#' :: '=' :: _ => none
  | .lineComment, '#' :: cs => some (runLength (· ≠ '\n') cs + 1)
  | _, _ => none

/-- The length of the piece of the first kind that a text begins with. -/
def firstLength? (cs : List Char) : Option Nat :=
  [blanks, blockComment, lineComment].findSome? (·.length? cs)

end IgnoredKind

namespace Cursor

/-- A cursor that has been moved over characters of its text, one of them at least. -/
def Passes (c d : Cursor) : Prop :=
  ∃ n, 0 < n ∧ n ≤ c.rest.length ∧ d = c.advance n

/-- A turn of passing what is ignored. -/
def skipTurn : Loop Cursor (Except LexError Unit × Cursor) := fun c =>
  if c.rest = [] then .ends (.ok (), c)
  else
    match IgnoredKind.firstLength? c.rest with
    | some n => .again (c.advance n)
    | none => .ends c.refuseOpenComment

/-- A turn of reading every token, with those that have been read. -/
def tokenTurn : Loop (List Token × Cursor) (Except LexError (List Token) × Cursor) :=
  fun (ts, c) =>
    match c.next with
    | (.error e, d) => .ends (.error e, d)
    | (.ok t, d) =>
      if t.kind = .endOfText then .ends (.ok (ts ++ [t]), d) else .again (ts ++ [t], d)

end Cursor

end HexDoc
