/-
HexDoc/Parser/Turns.lean

The loops of parsing, turn by turn.  A value is read by two loops, one inside the other.  The outer
one reads a number, a reference or an empty dictionary, or else it opens a dictionary and reads the
name of its first field.  The inner one hands a complete value to the innermost open dictionary and
looks at what comes next: where the dictionary ends it is itself a complete value, and behind a
comma and the name of another field the outer loop goes on.

`Parser.bindingTurn` is the loop over the bindings of a document.  `Parser.Takes` says which tokens
a parser takes on its way, and the end token is not one of them; `readingsToParse` counts how often
a token is read off a text for it.
-/
import HexDoc.Loop
import HexDoc.Parser.Requests

namespace HexDoc

namespace Parser

/-- The tokens that a parser takes on its way to another one, the end token not among them. -/
inductive Takes : Parser → List Token → Parser → Prop
  | nothing {p : Parser} : Takes p [] p
  | token {p q r : Parser} {ts : List Token} :
      p.current.kind ≠ .endOfText → p.shift = (.ok (), q) → Takes q ts r →
      Takes p (p.current :: ts) r

/-- A parser that takes tokens on its way, one of them at least. -/
def Advances (p q : Parser) : Prop :=
  ∃ ts, ts ≠ [] ∧ p.Takes ts q

/-- Goes on after a reading; where it has failed the loop ends. -/
def unlessFailed {α σ ρ : Type} (r : Except ReadError α × Parser)
    (go : α → Parser → Loop.Next σ (Except ReadError ρ × Parser)) :
    Loop.Next σ (Except ReadError ρ × Parser) :=
  match r with
  | (.error e, q) => .ends (.error e, q)
  | (.ok a, q) => go a q

/-- Where the reading of a value stands between two turns. -/
inductive ValueStage
  /-- In the outer loop: a value comes next. -/
  | outer (opened : List OpenDict) (p : Parser)
  /-- In the inner loop: a value is complete. -/
  | inner (opened : List OpenDict) (v : Value) (p : Parser)

/-- The parser at a stage. -/
def ValueStage.parser : ValueStage → Parser
  | .outer _ p => p
  | .inner _ _ p => p

/-- A turn of reading a value. -/
def valueTurn : Loop ValueStage (Except ReadError Value × Parser)
  | .outer opened p =>
    if p.current.kind = .openBrace then
      unlessFailed (p.eat .openBrace) fun _ q =>
        if q.current.kind = .closeBrace then
          unlessFailed (q.eat .closeBrace) fun _ s => .again (.inner opened (.dict []) s)
        else unlessFailed q.fieldName fun k s => .again (.outer (⟨[], k⟩ :: opened) s)
    else unlessFailed p.scalar fun v q => .again (.inner opened v q)
  | .inner [] v p => .ends (.ok v, p)
  | .inner (o :: opened) v p =>
    let fields := o.fields.put o.key v
    if p.current.kind = .comma then
      unlessFailed (p.eat .comma) fun _ q =>
        if q.current.kind = .closeBrace then .ends (.error (q.errorAt .trailingComma), q)
        else unlessFailed q.fieldName fun k s => .again (.outer (⟨fields, k⟩ :: opened) s)
    else if p.current.kind = .closeBrace then
      unlessFailed (p.eat .closeBrace) fun _ q => .again (.inner opened (.dict fields) q)
    else .ends (.error (p.errorAt .noEntryEnd), p)

/-- A turn of reading the bindings of a document, with those that have been read. -/
def bindingTurn : Loop (Environment × Parser) (Except ReadError Environment × Parser) :=
  fun (env, p) =>
    if p.current.kind = .endOfText then .ends (.ok env, p)
    else if p.current.kind = .name then
      unlessFailed (p.eat .name) fun t q =>
        unlessFailed (q.eat .equals) fun _ r =>
          unlessFailed r.value fun v s => .again (env.put t.text v, s)
    else .ends (.error (p.errorAt .noBindingName), p)

/-- Whether a parsing has ended with a reading that failed, as a number. -/
def failedReadings {α : Type} : Except ReadError α → Nat
  | .error (.lexical _) => 1
  | _ => 0

end Parser

/-- How many times a token is read off a text that is parsed: once for the first token, once behind
each token that is taken, and once more where this fails. -/
def readingsToParse (text : String) : Nat :=
  match Parser.start (Cursor.ofText text) with
  | .error _ => 1
  | .ok p => 1 + p.takenBindings.length + Parser.failedReadings p.document.result

end HexDoc
