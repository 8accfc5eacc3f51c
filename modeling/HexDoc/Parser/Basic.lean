/-
HexDoc/Parser/Basic.lean

A parser sees one token ahead.  Whether a token fits is decided on that token alone, and an
error of grammar carries its place.  Taking it fetches the next one: where that fails, the
parser keeps the old token in sight, and its cursor stands at the fault.

`Parser.remaining` bounds how much can still be taken; taking anything but the end token makes
it smaller (`Parser.remaining_shift_lt`).
-/
import HexDoc.Token.Scan
import HexDoc.Hex

namespace HexDoc

/-- Why a token does not fit. -/
inductive GrammarFault
  /-- One kind of token was required and another found. -/
  | expected (want got : Kind)
  /-- A binding starts with a name. -/
  | noBindingName
  /-- A field starts with a name. -/
  | noFieldName
  /-- A reference is a name in brackets. -/
  | noReferenceName
  /-- No value starts with this kind of token. -/
  | noValue (got : Kind)
  /-- A comma after the last field of a dictionary. -/
  | trailingComma
  /-- A field is followed by a comma or by the end of its dictionary. -/
  | noEntryEnd
  /-- A hex literal without digits. -/
  | badNumber (lexeme : String)
deriving DecidableEq, Repr

/-- The wording of a fault. -/
def GrammarFault.message : GrammarFault → String
  | .expected want got => "Expected " ++ want.label ++ " but got " ++ got.label
  | .noBindingName => "Expected identifier at top level"
  | .noFieldName => "Expected identifier in dict"
  | .noReferenceName => "Expected identifier inside []"
  | .noValue got => "Unexpected token when parsing value: " ++ got.label
  | .trailingComma => "Trailing comma in dict"
  | .noEntryEnd => "Expected ',' or '\x7d' after dict entry"
  | .badNumber lexeme => Hex.invalidMessage lexeme

/-- Requires a token to be of a kind. -/
def Token.demand (t : Token) (k : Kind) : Except GrammarFault Unit :=
  if t.kind = k then .ok () else .error (.expected k t.kind)

/-- A token that does not fit, at the place of that token. -/
structure GrammarError where
  position : Position
  fault : GrammarFault
deriving DecidableEq, Repr

/-- Why a document cannot be read: its text has no tokens, or its tokens do not fit. -/
inductive ReadError
  | lexical (e : LexError)
  | grammatical (e : GrammarError)
deriving DecidableEq, Repr

/-- The full text of an error: its place and its wording. -/
def ReadError.render : ReadError → String
  | .lexical e => e.render
  | .grammatical e => errorLine e.position e.fault.message

/-- A text being parsed: the token in sight and the text after it. -/
structure Parser where
  current : Token
  ahead : Cursor
deriving DecidableEq, Repr

namespace Parser

/-- Starts parsing by reading the first token. -/
def start (c : Cursor) : Except LexError Parser :=
  match c.next with
  | (.ok t, d) => .ok ⟨t, d⟩
  | (.error e, _) => .error e

/-- The error of grammar at the token in sight. -/
def errorAt (p : Parser) (f : GrammarFault) : ReadError :=
  .grammatical ⟨p.current.position, f⟩

/-- Puts the next token in sight. -/
def shift (p : Parser) : Except ReadError Unit × Parser :=
  match p.ahead.next with
  | (.ok t, d) => (.ok (), ⟨t, d⟩)
  | (.error e, d) => (.error (.lexical e), ⟨p.current, d⟩)

/-- Requires the token in sight to be of a kind. -/
def expect (p : Parser) (k : Kind) : Except ReadError Unit :=
  (p.current.demand k).mapError p.errorAt

/-- Takes a token of a kind. -/
def eat (p : Parser) (k : Kind) : Except ReadError Token × Parser :=
  match p.expect k with
  | .error e => (.error e, p)
  | .ok () =>
    match p.shift with
    | (.ok (), q) => (.ok p.current, q)
    | (.error e, q) => (.error e, q)

/-- A bound on what can still be taken: the characters ahead, and the token in sight unless it
is the end token. -/
def remaining (p : Parser) : Nat :=
  p.ahead.rest.length + if p.current.kind = .endOfText then 0 else 1

/-- Taking anything but the end token leaves less. -/
theorem remaining_shift_lt {p q : Parser} (h : p.shift = (.ok (), q))
    (hk : p.current.kind ≠ .endOfText) : q.remaining < p.remaining := by
  unfold shift at h
  split at h
  · rename_i t d hn
    simp only [Prod.mk.injEq, true_and] at h
    subst h
    by_cases ht : t.kind = .endOfText
    · have := p.ahead.length_rest_next_le
      simp only [hn] at this
      simp [remaining, hk, ht]; omega
    · have := Cursor.length_rest_next_lt hn ht
      simp [remaining, hk, ht]; omega
  · simp at h

end Parser

end HexDoc
