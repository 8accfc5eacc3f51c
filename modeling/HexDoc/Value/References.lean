/-
HexDoc/Value/References.lean

What stands in a value besides numbers: the references, the kinds of its foreign values, and the
first of either.  Fields are taken in order and each before the next, from left to right as they
are written.

`Environment.Refers` is the relation that references make between names.
-/
import HexDoc.Value.Plain

namespace HexDoc

namespace Value

mutual

/-- The names that a value refers to, from left to right, as often as it does. -/
def references : Value → List Name
  | .number _ => []
  | .dict fs => referencesOfFields fs
  | .reference n => [n]
  | .foreign _ => []

/-- The names that the values of fields refer to. -/
def referencesOfFields : List (Name × Value) → List Name
  | [] => []
  | (_, v) :: fs => v.references ++ referencesOfFields fs

end

mutual

/-- The kinds of the foreign values in a value, from left to right. -/
def foreignKinds : Value → List String
  | .number _ => []
  | .dict fs => foreignKindsOfFields fs
  | .reference _ => []
  | .foreign k => [k]

/-- The kinds of the foreign values in the values of fields. -/
def foreignKindsOfFields : List (Name × Value) → List String
  | [] => []
  | (_, v) :: fs => v.foreignKinds ++ foreignKindsOfFields fs

end

mutual

/-- The first reference or foreign value in a value. -/
def obstacle? : Value → Option Unwritable
  | .number _ => none
  | .dict fs => obstacleInFields? fs
  | .reference n => some (.reference n)
  | .foreign k => some (.foreign k)

/-- The first reference or foreign value in the values of fields. -/
def obstacleInFields? : List (Name × Value) → Option Unwritable
  | [] => none
  | (_, v) :: fs =>
    match v.obstacle? with
    | some e => some e
    | none => obstacleInFields? fs

end

/-- A value made of numbers and dictionaries only. -/
def IsResolved (v : Value) : Prop :=
  v.references = [] ∧ v.foreignKinds = []

mutual

/-- The numbers in a value, from left to right. -/
def numbers : Value → List Number
  | .number n => [n]
  | .dict fs => numbersOfFields fs
  | .reference _ => []
  | .foreign _ => []

/-- The numbers in the values of fields. -/
def numbersOfFields : List (Name × Value) → List Number
  | [] => []
  | (_, v) :: fs => v.numbers ++ numbersOfFields fs

end

end Value

/-- Whether the value bound to one name refers to another. -/
def Environment.Refers (env : Environment) (a b : Name) : Prop :=
  ∃ v, env.get? a = some v ∧ b ∈ v.references

end HexDoc
