/-
HexDoc/Parser/Requests.lean

One parser, asked for one construct after another.  Whatever a request comes to, the parser that
it leaves is asked next, so a request may begin in the middle of what an earlier one gave up.

A `Session` keeps the tokens that have been taken so far beside the parser.  A token counts as
taken once the one behind it is in sight: where that one cannot be read, the old one stays.
`Cursor.answers` is what a cursor answers when tokens are read off it again and again, faults
and the end of the text included.
-/
import HexDoc.Parser.Document

namespace HexDoc

namespace Cursor

/-- What reading a token comes to after so many readings before. -/
def fetch (c : Cursor) : Nat → Except LexError Token × Cursor
  | 0 => c.next
  | k + 1 => (c.fetch k).2.next

/-- What the first readings come to. -/
def answers (c : Cursor) (n : Nat) : List (Except LexError Token) :=
  (List.range n).map fun k => (c.fetch k).1

end Cursor

namespace Parser

/-- What a parser can be asked for. -/
inductive Request
  /-- The token in sight. -/
  | peek
  /-- That the token in sight is of a kind. -/
  | expect (k : Kind)
  /-- The token in sight, which must be of a kind, to be taken. -/
  | eat (k : Kind)
  /-- A number or a reference. -/
  | scalar
  /-- A value. -/
  | value
  /-- A dictionary. -/
  | dict
  /-- The name of a field and the colon after it. -/
  | fieldName
  /-- All bindings up to the end of the text. -/
  | document
deriving DecidableEq, Repr

/-- What a request that succeeds gives. -/
inductive Reply
  | nothing
  | token (t : Token)
  | value (v : Value)
  | name (n : Name)
  | environment (env : Environment)

/-- Whether a request only looks at the token in sight. -/
def Request.Looks : Request → Prop
  | .peek | .expect _ => True
  | _ => False

/-- What a request comes to, and the parser that it leaves. -/
def request (p : Parser) : Request → Except ReadError Reply × Parser
  | .peek => (.ok (.token p.current), p)
  | .expect k => ((p.expect k).map fun _ => .nothing, p)
  | .eat k => ((p.eat k).1.map .token, (p.eat k).2)
  | .scalar => (p.scalar.1.map .value, p.scalar.2)
  | .value => (p.value.1.map .value, p.value.2)
  | .dict => (p.dict.1.map .value, p.dict.2)
  | .fieldName => (p.fieldName.1.map .name, p.fieldName.2)
  | .document => (p.document.result.map .environment, p.document.parser)

/-! ### What is taken -/

variable {σ ρ : Type}

/-- The token in sight, if the one behind it can be read. -/
def takenShift (p : Parser) : List Token :=
  match p.shift with
  | (.ok (), _) => [p.current]
  | (.error _, _) => []

/-- The token in sight, if it is of a kind and the one behind it can be read. -/
def takenEat (p : Parser) (k : Kind) : List Token :=
  if p.current.kind = k then p.takenShift else []

/-- The tokens that are taken while a construct is read, up to its end or to a failure. -/
def takenRead (r : Reader σ ρ) (s : σ) (p : Parser) : List Token :=
  match _hs : r.step s p.current with
  | .error _ => []
  | .ok (.complete _) => p.takenShift
  | .ok (.more s') =>
    match _hq : p.shift with
    | (.ok (), q) => p.current :: takenRead r s' q
    | (.error _, _) => []
termination_by p.remaining
decreasing_by exact remaining_shift_lt _hq (kind_ne_of_step _hs)

/-- The tokens that are taken while bindings are read, up to the end of the text or to a
failure. -/
def takenBindings (p : Parser) : List Token :=
  if p.current.kind = .endOfText then []
  else
    p.takenRead .binding .name ++
      match _h : p.read .binding .name with
      | (.error _, _) => []
      | (.ok _, q) => q.takenBindings
termination_by p.remaining
decreasing_by exact remaining_read_lt _h

/-- The tokens that a request takes, whether it succeeds or fails on the way. -/
def takenBy (p : Parser) : Request → List Token
  | .peek | .expect _ => []
  | .eat k => p.takenEat k
  | .scalar => if p.current.kind = .openBrace then [] else p.takenRead .value .initial
  | .value => p.takenRead .value .initial
  | .dict => if p.current.kind = .openBrace then p.takenRead .value .initial else []
  | .fieldName =>
    p.takenEat .name ++
      match p.eat .name with
      | (.error _, _) => []
      | (.ok _, q) => q.takenEat .colon
  | .document => p.takenBindings

end Parser

/-! ### Sessions -/

/-- A parser between two requests, and what has been taken so far. -/
structure Session where
  parser : Parser
  taken : List Token

namespace Session

/-- The session after one more request. -/
def ask (s : Session) (r : Parser.Request) : Session :=
  ⟨(s.parser.request r).2, s.taken ++ s.parser.takenBy r⟩

/-- The session after a row of requests. -/
def asks (s : Session) (rs : List Parser.Request) : Session :=
  rs.foldl ask s

/-- The session of a parser that has just been started. -/
def ofParser (p : Parser) : Session :=
  ⟨p, []⟩

end Session

end HexDoc
