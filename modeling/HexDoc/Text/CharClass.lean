/-
HexDoc/Text/CharClass.lean

The character classes of the document language: blanks, hex digits and the characters of a
name.  All four are ASCII by definition of the language: any other character is an error
outside a comment, and a no-break space is not a blank.

A hex digit is a character that has a hex value.
-/
namespace HexDoc

/-- The characters that may stand between tokens: space, tab, carriage return and newline. -/
def isBlank (c : Char) : Bool :=
  c = ' ' || c = '\t' || c = '\r' || c = '\n'

/-- A character that may start a name: an ASCII letter or the underscore. -/
def isNameStart (c : Char) : Bool :=
  c.isAlpha || c = '_'

/-- A character that may continue a name: one that may start it, or an ASCII digit. -/
def isNameChar (c : Char) : Bool :=
  isNameStart c || c.isDigit

/-- The value of a hex digit of either case. -/
def hexValue? (c : Char) : Option Nat :=
  if '0' ≤ c ∧ c ≤ '9' then some (c.toNat - '0'.toNat)
  else if 'a' ≤ c ∧ c ≤ 'f' then some (c.toNat - 'a'.toNat + 10)
  else if 'A' ≤ c ∧ c ≤ 'F' then some (c.toNat - 'A'.toNat + 10)
  else none

/-- A hex digit: a character that has a hex value. -/
def isHexDigit (c : Char) : Bool :=
  (hexValue? c).isSome

/-- A name: a name start followed by name characters. -/
def IsName (s : String) : Prop :=
  ∃ c cs, s.toList = c :: cs ∧ isNameStart c = true ∧ cs.all isNameChar = true

theorem isNameChar_of_isNameStart {c : Char} (h : isNameStart c = true) : isNameChar c = true := by
  simp [isNameChar, h]

end HexDoc
