/-
HexDoc/Proofs/Xml/Elements.lean

The elements that data are written as.  Making the elements of an environment is taking its data
and making the elements of these, so XML and plain data stop at the same reference or foreign
value.

Main statement: the XML document of an environment is a document of its data (`write_eq`).
-/
import HexDoc.Proofs.Outcome
import HexDoc.Xml.Writer

namespace HexDoc.Xml

namespace Element

mutual

/-- The element that data are written as. -/
def ofPlain : Plain → Element
  | .number n => .number n
  | .dict fs => .branch "dict" none (entriesOf fs)

/-- The entries that fields are written as. -/
def entriesOf : List (Name × Plain) → List Element
  | [] => []
  | (k, d) :: fs => .branch "entry" (some k) [ofPlain d] :: entriesOf fs

end

/-- The elements that bindings are written as. -/
def bindingsOf : List (Name × Plain) → List Element
  | [] => []
  | (n, d) :: bs => .branch n none [ofPlain d] :: bindingsOf bs

/-- The element that a whole document is written as. -/
def root (tag : Name) (bs : List (Name × Plain)) : Element :=
  .branch tag none (bindingsOf bs)

end Element

open Element

mutual

/-- The element of a value is the element of its data. -/
theorem element_eq (v : Value) : element v = v.plain.map ofPlain := by
  match v with
  | .number n => rfl
  | .reference n => rfl
  | .foreign k => rfl
  | .dict fs =>
    rw [element, Value.plain, entries_eq fs]
    cases Value.plainFields fs <;> rfl

theorem entries_eq (fs : List (Name × Value)) :
    entries fs = (Value.plainFields fs).map entriesOf := by
  match fs with
  | [] => rfl
  | (k, v) :: fs =>
    rw [entries, Value.plainFields, element_eq v, entries_eq fs]
    cases v.plain with
    | error e => rfl
    | ok d => cases Value.plainFields fs <;> rfl

end

theorem bindings_eq (env : Environment) : bindings env = env.plain.map bindingsOf := by
  rw [Environment.plain]
  induction env with
  | nil => rfl
  | cons b env ih =>
    obtain ⟨n, v⟩ := b
    rw [bindings, Value.plainFields, element_eq v, ih]
    cases v.plain with
    | error e => rfl
    | ok d => cases Value.plainFields env <;> rfl

/-- The XML document of data. -/
def document (tag : Name) (bs : List (Name × Plain)) : String :=
  declaration ++ String.ofList ((root tag bs).render 0)

/-- The XML document of an environment is the document of its data. -/
theorem write_eq (env : Environment) (tag : Name) :
    write env tag = env.plain.map (document tag) := by
  rw [write, bindings_eq]
  cases env.plain <;> rfl

end HexDoc.Xml
