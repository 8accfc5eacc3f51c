/-
HexDoc/Parser/Value.lean

Reading a value: a number, a reference `[name]` or a dictionary `{name: value, …}` of any depth.
The reader of values keeps the dictionaries that are still open in a list, the innermost first,
so a value may be nested as deeply as its text is long.
-/
import HexDoc.Parser.Reader
import HexDoc.Value.Basic

namespace HexDoc

/-- A dictionary that waits for the value of one of its fields. -/
structure OpenDict where
  /-- The fields read so far. -/
  fields : Fields
  /-- The field whose value comes next. -/
  key : Name

/-- What comes next in a value. -/
inductive Phase
  /-- A value. -/
  | value
  /-- The name in a reference. -/
  | referenceName
  /-- The closing bracket of a reference. -/
  | referenceEnd (name : Name)
  /-- The first field of a dictionary, or its end. -/
  | firstField
  /-- A field after a comma. -/
  | nextField (fields : Fields)
  /-- The colon after the name of a field. -/
  | fieldColon (fields : Fields) (key : Name)
  /-- A comma, or the end of the dictionary. -/
  | fieldEnd (fields : Fields)

/-- A value read in part. -/
structure ValueState where
  phase : Phase
  /-- The open dictionaries around, the innermost first. -/
  pending : List OpenDict

namespace ValueState

/-- Nothing of the value has been read yet. -/
def initial : ValueState :=
  ⟨.value, []⟩

/-- Hands a complete value to the dictionary that waits for it, if one does. -/
def supply (v : Value) : List OpenDict → Progress ValueState Value
  | [] => .complete v
  | d :: ds => .more ⟨.fieldEnd (d.fields.put d.key v), ds⟩

/-- The name of a field. -/
def fieldName (t : Token) : Except GrammarFault Name :=
  if t.kind = .name then .ok t.text else .error .noFieldName

/-- What a token does to a value read in part. -/
def step (s : ValueState) (t : Token) : Except GrammarFault (Progress ValueState Value) :=
  match s.phase with
  | .value =>
    match t.kind with
    | .openBrace => .ok (.more ⟨.firstField, s.pending⟩)
    | .openBracket => .ok (.more ⟨.referenceName, s.pending⟩)
    | .number =>
      match Number.ofLexeme? t.text with
      | some n => .ok (supply (.number n) s.pending)
      | none => .error (.badNumber t.text)
    | k => .error (.noValue k)
  | .referenceName =>
    if t.kind = .name then .ok (.more ⟨.referenceEnd t.text, s.pending⟩)
    else .error .noReferenceName
  | .referenceEnd n => (t.demand .closeBracket).map fun _ => supply (.reference n) s.pending
  | .firstField =>
    if t.kind = .closeBrace then .ok (supply (.dict []) s.pending)
    else (fieldName t).map fun k => .more ⟨.fieldColon [] k, s.pending⟩
  | .nextField fs =>
    if t.kind = .closeBrace then .error .trailingComma
    else (fieldName t).map fun k => .more ⟨.fieldColon fs k, s.pending⟩
  | .fieldColon fs k => (t.demand .colon).map fun _ => .more ⟨.value, ⟨fs, k⟩ :: s.pending⟩
  | .fieldEnd fs =>
    match t.kind with
    | .comma => .ok (.more ⟨.nextField fs, s.pending⟩)
    | .closeBrace => .ok (supply (.dict fs) s.pending)
    | _ => .error .noEntryEnd

/-- No value goes on at the end of the text. -/
theorem step_endOfText (s : ValueState) (t : Token) (h : t.kind = .endOfText) :
    ∃ f, s.step t = .error f := by
  obtain ⟨phase, pending⟩ := s
  cases phase <;> simp [step, h, Token.demand, fieldName, Except.map]

end ValueState

/-- The reader of values. -/
def Reader.value : Reader ValueState Value :=
  ⟨ValueState.step, ValueState.step_endOfText⟩

namespace Parser

/-- Reads a value. -/
def value (p : Parser) : Except ReadError Value × Parser :=
  p.read .value .initial

/-- Reads a dictionary. -/
def dict (p : Parser) : Except ReadError Value × Parser :=
  match p.expect .openBrace with
  | .ok () => p.value
  | .error e => (.error e, p)

/-- Reads a number or a reference. -/
def scalar (p : Parser) : Except ReadError Value × Parser :=
  if p.current.kind = .openBrace then (.error (p.errorAt (.noValue .openBrace)), p) else p.value

/-- Reads the name of a field and the colon after it. -/
def fieldName (p : Parser) : Except ReadError Name × Parser :=
  if p.current.kind = .name then
    match p.eat .name with
    | (.error e, q) => (.error e, q)
    | (.ok t, q) =>
      match q.eat .colon with
      | (.error e, q) => (.error e, q)
      | (.ok _, q) => (.ok t.text, q)
  else (.error (p.errorAt .noFieldName), p)

end Parser

end HexDoc
