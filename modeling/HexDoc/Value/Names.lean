/-
HexDoc/Value/Names.lean

Values and data whose keys are names, at every level.  Documents have no other keys, but a value
that comes from elsewhere may be keyed by any text.
-/
import HexDoc.Value.Plain

namespace HexDoc

mutual

/-- Every key in a value is a name. -/
def Value.HasNames : Value → Prop
  | .dict fs => Value.HaveNames fs
  | _ => True

/-- Every key of fields is a name, and every key in their values. -/
def Value.HaveNames : List (Name × Value) → Prop
  | [] => True
  | (n, v) :: fs => IsName n ∧ v.HasNames ∧ HaveNames fs

end

mutual

/-- Every key in data is a name. -/
def Plain.HasNames : Plain → Prop
  | .dict fs => Plain.HaveNames fs
  | _ => True

/-- Every key of fields is a name, and every key in their data. -/
def Plain.HaveNames : List (Name × Plain) → Prop
  | [] => True
  | (n, d) :: fs => IsName n ∧ d.HasNames ∧ HaveNames fs

end

end HexDoc
