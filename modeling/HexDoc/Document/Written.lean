/-
HexDoc/Document/Written.lean

Documents as they are written: every binding and every field in its place, names repeated as
often as they are, numbers by their literals.

`lexemes` are the tokens of a written document, kind and text, and `environment` is what it
means: names and keys in the order of their first appearance, each with its last value, at every
level.
-/
import HexDoc.Token.Basic
import HexDoc.Value.Basic

namespace HexDoc

/-- A value as it is written. -/
inductive Written where
  | number (lexeme : String)
  | reference (name : Name)
  | dict (fields : List (Name × Written))
deriving Repr

/-- Kind and text of a token. -/
abbrev Lexeme := Kind × String

namespace Lexeme

/-- A name. -/
def ofName (n : Name) : Lexeme :=
  (.name, n)

/-- The punctuation marks. -/
def openBrace : Lexeme := (.openBrace, "\x7b")
def closeBrace : Lexeme := (.closeBrace, "\x7d")
def colon : Lexeme := (.colon, ":")
def comma : Lexeme := (.comma, ",")
def equals : Lexeme := (.equals, "=")
def openBracket : Lexeme := (.openBracket, "[")
def closeBracket : Lexeme := (.closeBracket, "]")

/-- The end of a text. -/
def endOfText : Lexeme := (.endOfText, "")

end Lexeme

/-- Kind and text of a token. -/
def Token.lexeme (t : Token) : Lexeme :=
  (t.kind, t.text)

namespace Written

mutual

/-- The tokens of a value. -/
def lexemes : Written → List Lexeme
  | .number l => [(.number, l)]
  | .reference n => [.openBracket, .ofName n, .closeBracket]
  | .dict [] => [.openBrace, .closeBrace]
  | .dict ((k, w) :: fs) =>
    .openBrace :: .ofName k :: .colon :: (lexemes w ++ lexemesOfFields fs ++ [.closeBrace])

/-- The tokens of the fields after the first. -/
def lexemesOfFields : List (Name × Written) → List Lexeme
  | [] => []
  | (k, w) :: fs => .comma :: .ofName k :: .colon :: (lexemes w ++ lexemesOfFields fs)

end

mutual

/-- What a value means. -/
def value : Written → Value
  | .number l => .number ⟨l, (Hex.decode? l).getD 0⟩
  | .reference n => .reference n
  | .dict fs => .dict (Entries.collapse (valuesOfFields fs))

/-- What the fields mean, one by one. -/
def valuesOfFields : List (Name × Written) → List (Name × Value)
  | [] => []
  | (k, w) :: fs => (k, w.value) :: valuesOfFields fs

end

mutual

/-- Names are names, and literals have digits. -/
def WellFormed : Written → Prop
  | .number l => (Hex.decode? l).isSome = true
  | .reference n => IsName n
  | .dict fs => WellFormedFields fs

/-- The keys are names, and the values are well formed. -/
def WellFormedFields : List (Name × Written) → Prop
  | [] => True
  | (k, w) :: fs => IsName k ∧ w.WellFormed ∧ WellFormedFields fs

end

end Written

/-- A document as it is written. -/
abbrev WrittenDocument := List (Name × Written)

namespace WrittenDocument

/-- The tokens of a document, up to its end. -/
def lexemes : WrittenDocument → List Lexeme
  | [] => []
  | (n, w) :: bs => .ofName n :: .equals :: (w.lexemes ++ lexemes bs)

/-- What a document means. -/
def environment (d : WrittenDocument) : Environment :=
  Entries.collapse (d.map fun b => (b.1, b.2.value))

/-- Names are names, and literals have digits. -/
def WellFormed (d : WrittenDocument) : Prop :=
  ∀ b ∈ d, IsName b.1 ∧ b.2.WellFormed

end WrittenDocument

end HexDoc
