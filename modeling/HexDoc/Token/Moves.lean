/-
HexDoc/Token/Moves.lean

Using a cursor.  Whoever reads a text asks its cursor for one thing after the other: the next
token, a skip over what is ignored, a move over a number of characters, past the end of the text
if need be, or all the tokens that are left.  A fault ends the request it came up in and nothing
else: the next one starts where the fault has left the cursor.

`Cursor.readings` keeps of a row of moves what has been answered to the requests for a token.
-/
import HexDoc.Token.Scan

namespace HexDoc

/-- The characters that a fault is about. -/
def LexFault.offender : LexFault → List Char
  | .openComment => ['#', '=']
  | .unexpected c => [c]

namespace Cursor

/-- What a cursor can be asked for. -/
inductive Move
  /-- The next token. -/
  | next
  /-- To pass what is ignored. -/
  | skip
  /-- To pass so many characters. -/
  | advance (n : Nat)
  /-- Every token from here on. -/
  | readOn
deriving DecidableEq, Repr

/-- Whether a move looks for the next token only: it reads that token, or stops in front of it. -/
def Move.Seeks : Move → Prop
  | .next | .skip => True
  | .advance _ | .readOn => False

/-- What comes of a move: the tokens that it reads, the fault that ends it, if one does, and the
cursor that it leaves. -/
def move (c : Cursor) : Move → Scan
  | .next =>
    match c.next with
    | (.ok t, d) => ⟨[t], none, d⟩
    | (.error e, d) => ⟨[], some e, d⟩
  | .skip =>
    match c.skip with
    | (.ok (), d) => ⟨[], none, d⟩
    | (.error e, d) => ⟨[], some e, d⟩
  | .advance n => ⟨[], none, c.advance n⟩
  | .readOn => c.scan

/-- The cursor after one move after the other. -/
def moves (c : Cursor) (ms : List Move) : Cursor :=
  ms.foldl (fun c m => (c.move m).stop) c

/-- What a row of moves answers to the requests for the next token, one answer for each of them. -/
def readings (c : Cursor) : List Move → List (Except LexError Token)
  | [] => []
  | .next :: ms => c.next.1 :: (c.move .next).stop.readings ms
  | m :: ms => (c.move m).stop.readings ms

end Cursor

end HexDoc
