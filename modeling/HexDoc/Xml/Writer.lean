/-
HexDoc/Xml/Writer.lean

An environment as an XML document: the declaration, then one element with an element for each
binding, named after it.  A dictionary holds an entry for each field, and the key of the field
is an attribute of the entry, so it may be any text.

Only numbers and dictionaries can be written; the first reference or foreign value met on the
way is reported.
-/
import HexDoc.Value.Plain
import HexDoc.Xml.Element

namespace HexDoc.Xml

/-- The wording of what stands against writing a value. -/
def unwritableMessage : Unwritable → String
  | .reference n => "Cannot serialize unresolved constant reference: " ++ n
  | .foreign k => "Cannot serialize value of type " ++ k

mutual

/-- The element of a value. -/
def element : Value → Except Unwritable Element
  | .number n => .ok (.number n.value.toNat)
  | .dict fs => (entries fs).map (.branch "dict" none)
  | .reference n => .error (.reference n)
  | .foreign k => .error (.foreign k)

/-- The entries of fields. -/
def entries : List (Name × Value) → Except Unwritable (List Element)
  | [] => .ok []
  | (k, v) :: fs =>
    match element v with
    | .error e => .error e
    | .ok x => (entries fs).map (.branch "entry" (some k) [x] :: ·)

end

/-- The elements of bindings. -/
def bindings : List (Name × Value) → Except Unwritable (List Element)
  | [] => .ok []
  | (n, v) :: env =>
    match element v with
    | .error e => .error e
    | .ok x => (bindings env).map (.branch n none [x] :: ·)

/-- The first line of every document. -/
def declaration : String :=
  "<?xml version=\"1.0\" encoding=\"UTF-8\"?>\n"

/-- The tag around the bindings, unless another is asked for. -/
def defaultRoot : Name :=
  "config"

/-- The XML document of an environment. -/
def write (env : Environment) (root : Name) : Except Unwritable String :=
  (bindings env).map fun xs =>
    declaration ++ String.ofList ((Element.branch root none xs).render 0)

end HexDoc.Xml
