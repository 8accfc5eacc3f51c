/-
HexDoc/Value/Spelling.lean

Numbers without their spelling.  A number keeps the literal that it was written as, in whatever
case and with however many digits; `Value.unspelled` forgets the literals and keeps the words.
Two values come to the same unspelled value when they differ in the spelling of numbers at most.

What counts in the end does not see the difference: neither the data of a value
(`Value.plain_unspelled`) nor its nesting (`Value.nesting_unspelled`).
-/
import HexDoc.Value.Nesting
import HexDoc.Value.Plain

namespace HexDoc

/-- A number without its literal. -/
def Number.unspelled (n : Number) : Number :=
  ⟨"", n.value⟩

namespace Value

mutual

/-- A value without the literals of its numbers. -/
def unspelled : Value → Value
  | .number n => .number n.unspelled
  | .dict fs => .dict (unspelledFields fs)
  | .reference n => .reference n
  | .foreign k => .foreign k

/-- Fields without the literals of their numbers. -/
def unspelledFields : List (Name × Value) → List (Name × Value)
  | [] => []
  | (k, v) :: fs => (k, v.unspelled) :: unspelledFields fs

end

theorem unspelledFields_eq_map (fs : List (Name × Value)) :
    unspelledFields fs = fs.map fun f => (f.1, f.2.unspelled) := by
  induction fs with
  | nil => rfl
  | cons f fs ih => rw [unspelledFields, ih, List.map_cons]

mutual

/-- There is nothing left to forget. -/
@[simp]
theorem unspelled_unspelled (v : Value) : v.unspelled.unspelled = v.unspelled := by
  match v with
  | .number n => rfl
  | .reference n => rfl
  | .foreign k => rfl
  | .dict fs => rw [unspelled, unspelled, unspelledFields_unspelledFields fs]

@[simp]
theorem unspelledFields_unspelledFields (fs : List (Name × Value)) :
    unspelledFields (unspelledFields fs) = unspelledFields fs := by
  match fs with
  | [] => rfl
  | (k, v) :: fs =>
    rw [unspelledFields, unspelledFields, unspelled_unspelled v,
      unspelledFields_unspelledFields fs]

end

theorem unspelledFields_put (fs : Fields) (k : Name) (v : Value) :
    unspelledFields (fs.put k v) = Entries.put (unspelledFields fs) k v.unspelled := by
  simp only [unspelledFields_eq_map, Entries.put_map]

theorem keys_unspelledFields (fs : Fields) : Entries.keys (unspelledFields fs) = fs.keys := by
  simp [unspelledFields_eq_map, Entries.keys]

theorem get?_unspelledFields (fs : Fields) (k : Name) :
    Entries.get? (unspelledFields fs) k = (fs.get? k).map unspelled := by
  rw [unspelledFields_eq_map, Entries.get?_map]

/-! ### What does not depend on the spelling -/

mutual

/-- Data are numbers without their spelling already. -/
theorem plain_unspelled (v : Value) : v.unspelled.plain = v.plain := by
  match v with
  | .number n => rfl
  | .reference n => rfl
  | .foreign k => rfl
  | .dict fs => rw [unspelled, plain, plain, plainFields_unspelledFields fs]

theorem plainFields_unspelledFields (fs : List (Name × Value)) :
    plainFields (unspelledFields fs) = plainFields fs := by
  match fs with
  | [] => rfl
  | (k, v) :: fs =>
    rw [unspelledFields, plainFields, plainFields, plain_unspelled v,
      plainFields_unspelledFields fs]

end

mutual

theorem nesting_unspelled (v : Value) : v.unspelled.nesting = v.nesting := by
  match v with
  | .number n => rfl
  | .reference n => rfl
  | .foreign k => rfl
  | .dict fs => rw [unspelled, nesting, nesting, nestingOfFields_unspelledFields fs]

theorem nestingOfFields_unspelledFields (fs : List (Name × Value)) :
    nestingOfFields (unspelledFields fs) = nestingOfFields fs := by
  match fs with
  | [] => rfl
  | (k, v) :: fs =>
    rw [unspelledFields, nestingOfFields, nestingOfFields, nesting_unspelled v,
      nestingOfFields_unspelledFields fs]

end

end Value

end HexDoc
