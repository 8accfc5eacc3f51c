/-
HexDoc/Text/Position.lean

Line and column of a place in a text.  Both count from one; a column counts characters since
the last newline, and only `\n` ends a line.

`Position.past_append` says that walking over a text in two parts is walking over it at once.
-/
namespace HexDoc

/-- A place in a text, as shown to its author. -/
structure Position where
  line : Nat
  column : Nat
deriving DecidableEq, Repr

namespace Position

/-- The place of the first character of a text. -/
def start : Position := ⟨1, 1⟩

/-- The place of things that have none, such as a binding that refers to itself. -/
def nowhere : Position := ⟨0, 0⟩

/-- The place after one more character. -/
def after (p : Position) (c : Char) : Position :=
  if c = '\n' then ⟨p.line + 1, 1⟩ else ⟨p.line, p.column + 1⟩

/-- The place after the characters `cs`. -/
def past (p : Position) (cs : List Char) : Position :=
  cs.foldl after p

/-- The place `n` columns further on the same line. -/
def right (p : Position) (n : Nat) : Position :=
  ⟨p.line, p.column + n⟩

/-- The text of a place: line and column around a colon. -/
def render (p : Position) : String :=
  toString p.line ++ ":" ++ toString p.column

/-! ### Walking in parts -/

@[simp]
theorem past_nil (p : Position) : p.past [] = p := rfl

@[simp]
theorem past_cons (p : Position) (c : Char) (cs : List Char) :
    p.past (c :: cs) = (p.after c).past cs := rfl

/-- Walking over a text in two parts is walking over it at once. -/
theorem past_append (p : Position) (cs ds : List Char) :
    p.past (cs ++ ds) = (p.past cs).past ds :=
  List.foldl_append

end Position

/-- The line that reports an error at a place. -/
def errorLine (p : Position) (message : String) : String :=
  "Parse error at " ++ p.render ++ ": " ++ message

end HexDoc
