/-
HexDoc/Proofs/Value/Data.lean

When a value has data, and what stands against it otherwise.  Taking the data of a value stops at
its first reference or foreign value (`Value.plain_eq_error_iff`), and there is none exactly when
the value is resolved (`Value.obstacle?_eq_none_iff`).

Main statement: resolved values have data, and no others do (`Value.exists_plain_iff`); the same
for whole environments (`Environment.exists_plain_iff`).
-/
import HexDoc.Proofs.Outcome
import HexDoc.Value.Names
import HexDoc.Value.References

namespace HexDoc

namespace Value

/-! ### What stands against taking data -/

/-- Fields have no foreign values when none of them has one. -/
theorem foreignKindsOfFields_eq_nil_iff {fs : List (Name × Value)} :
    foreignKindsOfFields fs = [] ↔ ∀ f ∈ fs, f.2.foreignKinds = [] := by
  induction fs with
  | nil => simp [foreignKindsOfFields]
  | cons f fs ih => rw [foreignKindsOfFields, List.append_eq_nil_iff, ih, List.forall_mem_cons]

mutual

/-- The first reference or foreign value of a value is what its data fail with. -/
theorem plain_eq_error_iff {v : Value} {e : Unwritable} :
    v.plain = .error e ↔ v.obstacle? = some e := by
  match v with
  | .number n => simp [plain, obstacle?]
  | .reference n => simp [plain, obstacle?]
  | .foreign k => simp [plain, obstacle?]
  | .dict fs =>
    rw [plain, obstacle?, Outcome.map_eq_error_iff]
    exact plainFields_eq_error_iff

theorem plainFields_eq_error_iff {fs : List (Name × Value)} {e : Unwritable} :
    plainFields fs = .error e ↔ obstacleInFields? fs = some e := by
  match fs with
  | [] => simp [plainFields, obstacleInFields?]
  | (k, v) :: fs =>
    have ih := @plain_eq_error_iff v
    have ihs := @plainFields_eq_error_iff fs e
    rw [plainFields, obstacleInFields?]
    rcases hv : v.plain with e' | d
    · -- the value itself stops the fields
      simp [ih.mp hv]
    · have ho : v.obstacle? = none := by
        rw [Option.eq_none_iff_forall_ne_some]
        intro e' he
        cases hv.symm.trans (ih.mpr he)
      simp only [ho, Outcome.map_eq_error_iff, ihs]

end

mutual

/-- A value without a first reference or foreign value has none at all. -/
theorem obstacle?_eq_none_iff {v : Value} : v.obstacle? = none ↔ v.IsResolved := by
  match v with
  | .number n => simp [obstacle?, IsResolved, references, foreignKinds]
  | .reference n => simp [obstacle?, IsResolved, references]
  | .foreign k => simp [obstacle?, IsResolved, foreignKinds]
  | .dict fs =>
    rw [obstacle?, IsResolved, references, foreignKinds]
    exact obstacleInFields?_eq_none_iff

theorem obstacleInFields?_eq_none_iff {fs : List (Name × Value)} :
    obstacleInFields? fs = none ↔ referencesOfFields fs = [] ∧ foreignKindsOfFields fs = [] := by
  match fs with
  | [] => simp [obstacleInFields?, referencesOfFields, foreignKindsOfFields]
  | (k, v) :: fs =>
    have ih := @obstacle?_eq_none_iff v
    have ihs := @obstacleInFields?_eq_none_iff fs
    rw [obstacleInFields?, referencesOfFields, foreignKindsOfFields, List.append_eq_nil_iff,
      List.append_eq_nil_iff, and_and_and_comm, ← IsResolved, ← ih, ← ihs]
    cases v.obstacle? <;> simp

end

/-! ### When there are data -/

/-- A value has data exactly when it is resolved. -/
theorem exists_plain_iff {v : Value} : (∃ d, v.plain = .ok d) ↔ v.IsResolved := by
  rw [← obstacle?_eq_none_iff, Option.eq_none_iff_forall_ne_some]
  simp only [ne_eq, ← plain_eq_error_iff]
  cases v.plain <;> simp

theorem plainFields_cons_eq_ok_iff {k : Name} {v : Value} {fs : List (Name × Value)}
    {bs : List (Name × Plain)} :
    plainFields ((k, v) :: fs) = .ok bs ↔
      ∃ d rest, v.plain = .ok d ∧ plainFields fs = .ok rest ∧ (k, d) :: rest = bs := by
  rw [plainFields]
  rcases v.plain with e | d
  · simp
  · simp [Outcome.map_eq_ok_iff]

mutual

/-- Taking data keeps the keys. -/
theorem hasNames_of_plain {v : Value} {d : Plain} (hv : v.HasNames) (h : v.plain = .ok d) :
    d.HasNames := by
  match v with
  | .number n =>
    cases h
    trivial
  | .reference n => cases h
  | .foreign k => cases h
  | .dict fs =>
    obtain ⟨bs, hbs, rfl⟩ := Outcome.map_eq_ok_iff.mp h
    exact haveNames_of_plainFields hv hbs

theorem haveNames_of_plainFields {fs : List (Name × Value)} {bs : List (Name × Plain)}
    (hfs : HaveNames fs) (h : plainFields fs = .ok bs) : Plain.HaveNames bs := by
  match fs with
  | [] =>
    cases h
    trivial
  | (n, v) :: fs =>
    obtain ⟨d, rest, hd, hrest, rfl⟩ := plainFields_cons_eq_ok_iff.mp h
    obtain ⟨hn, hv, hfs⟩ := hfs
    exact ⟨hn, hasNames_of_plain hv hd, haveNames_of_plainFields hfs hrest⟩

end

theorem haveNames_iff {fs : List (Name × Value)} :
    HaveNames fs ↔ ∀ f ∈ fs, IsName f.1 ∧ f.2.HasNames := by
  induction fs with
  | nil => simp [HaveNames]
  | cons f fs ih => rw [HaveNames, ih, List.forall_mem_cons, and_assoc]

end Value

/-- The data of an environment stand under its names, in their order. -/
theorem Environment.keys_of_plain {env : Environment} {bs : List (Name × Plain)}
    (h : env.plain = .ok bs) : Entries.keys bs = env.keys := by
  rw [Environment.plain] at h
  induction env generalizing bs with
  | nil =>
    cases h
    rfl
  | cons b env ih =>
    obtain ⟨d, rest, -, hrest, rfl⟩ := Value.plainFields_cons_eq_ok_iff.mp h
    rw [Entries.keys_cons, Entries.keys_cons, ih hrest]

/-- What holds of the names of an environment holds of those of its data. -/
theorem Environment.forall_name_of_plain {env : Environment} {bs : List (Name × Plain)}
    (h : env.plain = .ok bs) {P : Name → Prop} (henv : ∀ b ∈ env, P b.1) : ∀ b ∈ bs, P b.1 := by
  have hkeys : ∀ n ∈ Entries.keys bs, P n := by
    rw [Environment.keys_of_plain h, Entries.keys, List.forall_mem_map]
    exact henv
  rwa [Entries.keys, List.forall_mem_map] at hkeys

/-- An environment has data exactly when all its values are resolved. -/
theorem Environment.exists_plain_iff {env : Environment} :
    (∃ bs, env.plain = .ok bs) ↔ ∀ b ∈ env, b.2.IsResolved := by
  rw [Environment.plain]
  induction env with
  | nil => simp [Value.plainFields]
  | cons b env ih =>
    obtain ⟨n, v⟩ := b
    rw [List.forall_mem_cons, ← ih, ← Value.exists_plain_iff]
    simp only [Value.plainFields_cons_eq_ok_iff]
    constructor
    · rintro ⟨bs, d, rest, hd, hrest, -⟩
      exact ⟨⟨d, hd⟩, rest, hrest⟩
    · rintro ⟨⟨d, hd⟩, rest, hrest⟩
      exact ⟨_, d, rest, hd, hrest, rfl⟩

end HexDoc
