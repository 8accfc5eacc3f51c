/-
HexDoc/Value/Address.lean

Where something stands in a value.  The parts of a value have addresses: at each level, the number
of the field to go into, and nothing for the value itself.  The bindings of an environment are
numbered like fields.

Addresses are compared from the left, number by number, and this is the order in which one comes
past the parts of a value from left to right, each field before the next:
`Value.FirstObstacle` is the reference or foreign value that one meets first.
-/
import HexDoc.Value.Plain

namespace HexDoc

namespace Value

/-- The part of a value at an address. -/
def at? : Value → List Nat → Option Value
  | v, [] => some v
  | .dict fs, i :: a =>
    match fs[i]? with
    | some f => at? f.2 a
    | none => none
  | _, _ :: _ => none

/-- What a part of a value has against being written, the parts inside it aside. -/
def ownObstacle? : Value → Option Unwritable
  | .reference n => some (.reference n)
  | .foreign k => some (.foreign k)
  | _ => none

/-- The reference or foreign value at an address. -/
def obstacleAt? (v : Value) (a : List Nat) : Option Unwritable :=
  (v.at? a).bind ownObstacle?

/-- A reference or foreign value stands at an address, and none at an address before it. -/
structure FirstObstacle (v : Value) (a : List Nat) (e : Unwritable) : Prop where
  here : v.obstacleAt? a = some e
  first : ∀ b, b < a → v.obstacleAt? b = none

end Value

/-- The part of an environment at an address. -/
def Environment.at? (env : Environment) (a : List Nat) : Option Value :=
  (Value.dict env).at? a

end HexDoc
