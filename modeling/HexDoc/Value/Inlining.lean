/-
HexDoc/Value/Inlining.lean

Putting values in the place of references.  Any references of a value may be chosen, at any depth
and each occurrence by itself; a chosen one gives way to what a table has for its name, and one
that the table has nothing for cannot be chosen.  What has been put in is not looked into again.

`Value.Inlined` relates a value to each value that comes of it in this way, one for every choice,
and `Value.InlinedFields` does so for fields and for the bindings of an environment.
-/
import HexDoc.Value.Basic

namespace HexDoc.Value

mutual

/-- A value in which some references have given way to what `table` has for their names. -/
inductive Inlined (table : Name → Option Value) : Value → Value → Prop
  | number (n : Number) : Inlined table (.number n) (.number n)
  | foreign (k : String) : Inlined table (.foreign k) (.foreign k)
  /-- A reference that has not been chosen. -/
  | kept (n : Name) : Inlined table (.reference n) (.reference n)
  /-- A reference that has been chosen. -/
  | replaced {n : Name} {w : Value} : table n = some w → Inlined table (.reference n) w
  | dict {fs fs' : List (Name × Value)} :
      InlinedFields table fs fs' → Inlined table (.dict fs) (.dict fs')

/-- Fields in whose values some references have given way to what `table` has for their names. -/
inductive InlinedFields (table : Name → Option Value) :
    List (Name × Value) → List (Name × Value) → Prop
  | nil : InlinedFields table [] []
  | cons {k : Name} {v v' : Value} {fs fs' : List (Name × Value)} :
      Inlined table v v' → InlinedFields table fs fs' →
      InlinedFields table ((k, v) :: fs) ((k, v') :: fs')

end

namespace InlinedFields

variable {table : Name → Option Value} {fs fs' : Entries Name Value}

/-- Names stay, and so does their order. -/
theorem keys_eq (h : InlinedFields table fs fs') : fs'.keys = fs.keys := by
  induction fs generalizing fs' with
  | nil =>
    cases h
    rfl
  | cons f fs ih =>
    cases h with
    | cons _ hs => rw [Entries.keys_cons, Entries.keys_cons, ih hs]

/-- What a name has is inlined where it stands. -/
theorem exists_get? (h : InlinedFields table fs fs') {n : Name} {v : Value}
    (hv : fs.get? n = some v) : ∃ v', fs'.get? n = some v' ∧ Inlined table v v' := by
  induction fs generalizing fs' with
  | nil => cases hv
  | cons f fs ih =>
    cases h with
    | @cons k w w' _ _ hw hs =>
      by_cases hk : k = n
      · simp only [Entries.get?, hk, if_true, Option.some.injEq] at hv ⊢
        exact ⟨w', rfl, hv ▸ hw⟩
      · simp only [Entries.get?, hk, if_false] at hv ⊢
        exact ih hs hv

end InlinedFields

end HexDoc.Value
