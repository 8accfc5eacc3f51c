/-
HexDoc/Parser/Document.lean

Reading a document: bindings `name = value`, one after the other up to the end of the text.  A
name that is bound again keeps its place and takes the later value.

`Parser.bindings` also tells which bindings have been read, repeats included, before the end or
the first error; `parse` is the environment of a whole text.
-/
import HexDoc.Parser.Value

namespace HexDoc

/-- A binding read in part. -/
inductive BindingState
  /-- Its name comes next. -/
  | name
  /-- Its equals sign comes next. -/
  | equals (name : Name)
  /-- It is in its value. -/
  | inside (name : Name) (s : ValueState)

namespace BindingState

/-- What a token does to a binding read in part. -/
def step (s : BindingState) (t : Token) :
    Except GrammarFault (Progress BindingState (Name × Value)) :=
  match s with
  | .name => if t.kind = .name then .ok (.more (.equals t.text)) else .error .noBindingName
  | .equals n => (t.demand .equals).map fun _ => .more (.inside n .initial)
  | .inside n s =>
    (s.step t).map fun
      | .more s' => .more (.inside n s')
      | .complete v => .complete (n, v)

/-- No binding goes on at the end of the text. -/
theorem step_endOfText (s : BindingState) (t : Token) (h : t.kind = .endOfText) :
    ∃ f, s.step t = .error f := by
  cases s with
  | name => simp [step, h]
  | equals n => simp [step, h, Token.demand, Except.map]
  | inside n s =>
    obtain ⟨f, hf⟩ := s.step_endOfText t h
    exact ⟨f, by simp [step, hf, Except.map]⟩

end BindingState

/-- The reader of bindings. -/
def Reader.binding : Reader BindingState (Name × Value) :=
  ⟨BindingState.step, BindingState.step_endOfText⟩

/-- A document, read to its end or to the first error. -/
structure Reading where
  result : Except ReadError Environment
  /-- The names of the bindings that have been read, in the order of the text. -/
  bound : List Name
  /-- The parser where the reading ended. -/
  parser : Parser

namespace Parser

/-- Reads bindings up to the end of the text, and adds them to those of `env`. -/
def bindings (p : Parser) (env : Environment) : Reading :=
  if p.current.kind = .endOfText then ⟨.ok env, [], p⟩
  else
    match _h : p.read .binding .name with
    | (.error e, q) => ⟨.error e, [], q⟩
    | (.ok (n, v), q) =>
      let r := q.bindings (env.put n v)
      ⟨r.result, n :: r.bound, r.parser⟩
termination_by p.remaining
decreasing_by exact remaining_read_lt _h

/-- Reads the bindings of a document. -/
def document (p : Parser) : Reading :=
  p.bindings []

end Parser

/-- The environment of a text, or its first error, and the names of the bindings read before. -/
def readDocument (text : String) : Except ReadError Environment × List Name :=
  match Parser.start (Cursor.ofText text) with
  | .error e => (.error (.lexical e), [])
  | .ok p => (p.document.result, p.document.bound)

/-- The environment of a text, or its first error. -/
def parse (text : String) : Except ReadError Environment :=
  (readDocument text).1

end HexDoc
