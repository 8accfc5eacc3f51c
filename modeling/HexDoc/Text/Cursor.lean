/-
HexDoc/Text/Cursor.lean

A cursor walks over a text from its start.  It keeps the text that is still ahead, how many
characters it has passed and the place it has reached.  It may be moved past the end of the
text; the characters that are not there count as characters other than a newline.
-/
import HexDoc.Text.Position

namespace HexDoc

/-- How far a text has been read. -/
structure Cursor where
  /-- The characters still ahead. -/
  rest : List Char
  /-- How many characters have been passed, those past the end included. -/
  offset : Nat
  position : Position
deriving DecidableEq, Repr

namespace Cursor

/-- The cursor before the first character of a text. -/
def ofChars (cs : List Char) : Cursor :=
  ⟨cs, 0, Position.start⟩

/-- The cursor before the first character of a text. -/
def ofText (text : String) : Cursor :=
  ofChars text.toList

/-- Moves `n` characters on.  Where fewer are left, the missing ones only widen the column. -/
def advance (c : Cursor) (n : Nat) : Cursor :=
  ⟨c.rest.drop n, c.offset + n,
    (c.position.past (c.rest.take n)).right (n - (c.rest.take n).length)⟩

@[simp]
theorem rest_advance (c : Cursor) (n : Nat) : (c.advance n).rest = c.rest.drop n := rfl

@[simp]
theorem offset_advance (c : Cursor) (n : Nat) : (c.advance n).offset = c.offset + n := rfl

/-- Inside the text a move only walks over the characters it passes. -/
theorem position_advance (c : Cursor) (n : Nat) (h : n ≤ c.rest.length) :
    (c.advance n).position = c.position.past (c.rest.take n) := by
  simp [advance, Position.right, Nat.min_eq_left h]

/-- A move that passes something of the text leaves less of it. -/
theorem length_rest_advance_lt (c : Cursor) (n : Nat) (hn : 0 < n) (h : c.rest ≠ []) :
    (c.advance n).rest.length < c.rest.length := by
  have := List.length_pos_iff.mpr h
  simp; omega

end Cursor

end HexDoc
