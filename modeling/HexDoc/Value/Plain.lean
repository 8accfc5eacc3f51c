/-
HexDoc/Value/Plain.lean

What a value comes down to when only its data count: numbers without their spelling, in
dictionaries.  A reference has no data, and neither has a foreign value; `Value.plain` stops at
the first of these, fields taken in order and each before the next.
-/
import HexDoc.Value.Basic

namespace HexDoc

/-- Numbers in dictionaries. -/
inductive Plain where
  | number (n : Nat)
  | dict (fields : List (Name × Plain))
deriving Repr

/-- Something in a value that cannot be written out. -/
inductive Unwritable
  | reference (name : Name)
  | foreign (kind : String)
deriving DecidableEq, Repr

/-- The wording of what stands against taking the data of a value. -/
def Unwritable.message : Unwritable → String
  | .reference n => "Unresolved constant reference: " ++ n
  | .foreign k => "Unknown value type: " ++ k

mutual

/-- The data of a value. -/
def Value.plain : Value → Except Unwritable Plain
  | .number n => .ok (.number n.value.toNat)
  | .dict fs => (Value.plainFields fs).map .dict
  | .reference n => .error (.reference n)
  | .foreign k => .error (.foreign k)

/-- The data of fields, in order. -/
def Value.plainFields : List (Name × Value) → Except Unwritable (List (Name × Plain))
  | [] => .ok []
  | (k, v) :: fs =>
    match v.plain with
    | .error e => .error e
    | .ok d => (plainFields fs).map ((k, d) :: ·)

end

/-- The data of an environment. -/
def Environment.plain (env : Environment) : Except Unwritable (List (Name × Plain)) :=
  Value.plainFields env

end HexDoc
