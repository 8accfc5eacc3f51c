/-
HexDoc/Value/Nesting.lean

How deeply a value is nested: the largest number of dictionaries inside one another.  A resolved
value can share its parts so heavily that it cannot be walked through as a whole, so
`Value.nestsWithin` looks no deeper than its bound and stops at the first part beyond it.

Main statement: it decides whether the nesting is within the bound (`Value.nestsWithin_iff`).
-/
import HexDoc.Value.Basic

namespace HexDoc.Value

mutual

/-- The number of dictionaries inside one another. -/
def nesting : Value → Nat
  | .dict fs => nestingOfFields fs + 1
  | _ => 0

/-- The deepest nesting among fields. -/
def nestingOfFields : List (Name × Value) → Nat
  | [] => 0
  | (_, v) :: fs => max v.nesting (nestingOfFields fs)

end

mutual

/-- Whether at most `bound` dictionaries are inside one another. -/
def nestsWithin (bound : Nat) : Value → Bool
  | .dict fs =>
    match bound with
    | 0 => false
    | bound + 1 => fieldsNestWithin bound fs
  | _ => true

/-- Whether the values of fields all nest within a bound. -/
def fieldsNestWithin (bound : Nat) : List (Name × Value) → Bool
  | [] => true
  | (_, v) :: fs => v.nestsWithin bound && fieldsNestWithin bound fs

end

mutual

/-- The check decides whether the nesting is within the bound. -/
theorem nestsWithin_iff (bound : Nat) (v : Value) :
    v.nestsWithin bound = true ↔ v.nesting ≤ bound := by
  cases v with
  | dict fs =>
    cases bound with
    | zero => simp [nestsWithin, nesting]
    | succ bound => simp [nestsWithin, nesting, fieldsNestWithin_iff bound fs]
  | number n => simp [nestsWithin, nesting]
  | reference n => simp [nestsWithin, nesting]
  | foreign k => simp [nestsWithin, nesting]

theorem fieldsNestWithin_iff (bound : Nat) (fs : List (Name × Value)) :
    fieldsNestWithin bound fs = true ↔ nestingOfFields fs ≤ bound := by
  match fs with
  | [] => simp [fieldsNestWithin, nestingOfFields]
  | (_, v) :: fs =>
    simp only [fieldsNestWithin, nestingOfFields, Bool.and_eq_true, nestsWithin_iff bound v,
      fieldsNestWithin_iff bound fs, Nat.max_le]

end

/-- Fields are nested as deeply as the deepest of them. -/
theorem nestingOfFields_le_iff {fs : List (Name × Value)} {bound : Nat} :
    nestingOfFields fs ≤ bound ↔ ∀ f ∈ fs, f.2.nesting ≤ bound := by
  induction fs with
  | nil => simp [nestingOfFields]
  | cons f fs ih => rw [nestingOfFields, Nat.max_le, ih, List.forall_mem_cons]

end HexDoc.Value
