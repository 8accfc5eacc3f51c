/-
HexDoc/Value/Basic.lean

The values of a document.  A value is a number, a dictionary of named fields or a reference
to a binding; references are gone once a document has been resolved.  A value that comes from
elsewhere than a document may also be of a kind that the language does not have.

A dictionary keeps its fields in order of first appearance, and so does an environment its
bindings.
-/
import HexDoc.Entries
import HexDoc.Hex

namespace HexDoc

/-- The name of a binding or of a field. -/
abbrev Name := String

/-- A hex literal with the word it stands for. -/
structure Number where
  /-- The literal as written. -/
  lexeme : String
  value : UInt64
deriving DecidableEq, Repr

/-- The number that a literal denotes. -/
def Number.ofLexeme? (lexeme : String) : Option Number :=
  (Hex.decode? lexeme).map (⟨lexeme, ·⟩)

/-- A value, raw or resolved. -/
inductive Value where
  | number (n : Number)
  | dict (fields : List (Name × Value))
  | reference (name : Name)
  /-- A value of a kind that the language does not have, known by the name of that kind. -/
  | foreign (kind : String)
deriving Repr

/-- The fields of a dictionary. -/
abbrev Fields := Entries Name Value

/-- The bindings of a document. -/
abbrev Environment := Entries Name Value

/-- The number that a literal denotes has that literal and the word it decodes to. -/
theorem Number.ofLexeme?_eq_some_iff {lexeme : String} {n : Number} :
    Number.ofLexeme? lexeme = some n ↔ n.lexeme = lexeme ∧ Hex.decode? lexeme = some n.value := by
  rcases n with ⟨l, w⟩
  simp only [Number.ofLexeme?, Option.map_eq_some_iff, Number.mk.injEq]
  constructor
  · rintro ⟨w', h, rfl, rfl⟩
    exact ⟨rfl, h⟩
  · rintro ⟨rfl, h⟩
    exact ⟨w, h, rfl, rfl⟩

end HexDoc
