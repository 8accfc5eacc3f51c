/-
HexDoc/Proofs/Resolution/Replacement.lean

Replacing the references of one value, from left to right, by what a function gives for their
names.  The first reference that the function refuses ends the replacement with its error, and
so does the first foreign value.

`Value.replace` is the one layer that every resolution of a value consists of: what a reference
means is the replacement of a raw value, with the same question asked again below a longer path
(`Substitution.name_of_bound`).  Main statements: a replacement depends on the names that the
value refers to only (`Value.replace_congr`), and it succeeds exactly when there is no foreign
value and no refused name (`Value.exists_replace_iff`).
-/
import HexDoc.Proofs.Outcome
import HexDoc.Resolution.Substitution
import HexDoc.Value.References

namespace HexDoc

namespace Value

mutual

/-- A value with its references replaced by what `f` gives for their names. -/
def replace (f : Name → Except ResolveError Value) : Value → Except ResolveError Value
  | .number n => .ok (.number n)
  | .foreign k => .error (.foreign k)
  | .reference n => f n
  | .dict fs => (replaceFields f fs).map .dict

/-- Fields with the references in their values replaced. -/
def replaceFields (f : Name → Except ResolveError Value) :
    List (Name × Value) → Except ResolveError (List (Name × Value))
  | [] => .ok []
  | (k, v) :: fs =>
    match v.replace f with
    | .error e => .error e
    | .ok v' => (replaceFields f fs).map ((k, v') :: ·)

end

variable {f g : Name → Except ResolveError Value}

theorem replaceFields_cons_eq_ok_iff {k : Name} {v : Value} {fs fs' : List (Name × Value)} :
    replaceFields f ((k, v) :: fs) = .ok fs' ↔
      ∃ v' rest, v.replace f = .ok v' ∧ replaceFields f fs = .ok rest ∧
        (k, v') :: rest = fs' := by
  rw [replaceFields]
  rcases v.replace f with e | v'
  · simp
  · simp [Outcome.map_eq_ok_iff]

theorem replace_dict_eq_ok_iff {fs : List (Name × Value)} {w : Value} :
    (Value.dict fs).replace f = .ok w ↔ ∃ fs', replaceFields f fs = .ok fs' ∧ .dict fs' = w := by
  rw [replace, Outcome.map_eq_ok_iff]

/-! ### A replacement depends on the names referred to only -/

mutual

theorem replace_congr {v : Value} (h : ∀ n ∈ v.references, f n = g n) :
    v.replace f = v.replace g := by
  match v with
  | .number n => rw [replace, replace]
  | .foreign k => rw [replace, replace]
  | .reference n => rw [replace, replace, h n (by simp [references])]
  | .dict fs => rw [replace, replace, replaceFields_congr (by simpa [references] using h)]

theorem replaceFields_congr {fs : List (Name × Value)}
    (h : ∀ n ∈ referencesOfFields fs, f n = g n) : replaceFields f fs = replaceFields g fs := by
  match fs with
  | [] => rw [replaceFields, replaceFields]
  | (k, v) :: fs =>
    simp only [referencesOfFields, List.mem_append] at h
    rw [replaceFields, replaceFields, replace_congr fun n hn => h n (.inl hn),
      replaceFields_congr fun n hn => h n (.inr hn)]

end

/-! ### When a replacement succeeds -/

mutual

/-- A replacement succeeds when there is no foreign value and every name referred to is given a
value. -/
theorem exists_replace_iff {v : Value} :
    (∃ w, v.replace f = .ok w) ↔
      v.foreignKinds = [] ∧ ∀ n ∈ v.references, ∃ w, f n = .ok w := by
  match v with
  | .number n => simp [replace, foreignKinds, references]
  | .foreign k => simp [replace, foreignKinds]
  | .reference n => simp [replace, foreignKinds, references]
  | .dict fs =>
    have ih := @exists_replaceFields_iff fs
    simp only [foreignKinds, references, ← ih, replace_dict_eq_ok_iff]
    constructor
    · rintro ⟨w, fs', h, rfl⟩
      exact ⟨fs', h⟩
    · rintro ⟨fs', h⟩
      exact ⟨.dict fs', fs', h, rfl⟩

theorem exists_replaceFields_iff {fs : List (Name × Value)} :
    (∃ fs', replaceFields f fs = .ok fs') ↔
      foreignKindsOfFields fs = [] ∧ ∀ n ∈ referencesOfFields fs, ∃ w, f n = .ok w := by
  match fs with
  | [] => simp [replaceFields, foreignKindsOfFields, referencesOfFields]
  | (k, v) :: fs =>
    have ih := exists_replace_iff (v := v)
    have ihs := @exists_replaceFields_iff fs
    have hsplit : (∃ fs', replaceFields f ((k, v) :: fs) = .ok fs') ↔
        (∃ v', v.replace f = .ok v') ∧ ∃ rest, replaceFields f fs = .ok rest := by
      simp only [replaceFields_cons_eq_ok_iff]
      constructor
      · rintro ⟨fs', v', rest, hv, hs, -⟩
        exact ⟨⟨v', hv⟩, rest, hs⟩
      · rintro ⟨⟨v', hv⟩, rest, hs⟩
        exact ⟨_, v', rest, hv, hs, rfl⟩
    rw [hsplit, ih, ihs]
    simp only [foreignKindsOfFields, referencesOfFields, List.append_eq_nil_iff, List.mem_append]
    constructor
    · rintro ⟨⟨hv, hrv⟩, hs, hrs⟩
      exact ⟨⟨hv, hs⟩, fun n hn => hn.elim (hrv n) (hrs n)⟩
    · rintro ⟨⟨hv, hs⟩, hr⟩
      exact ⟨⟨hv, fun n hn => hr n (.inl hn)⟩, hs, fun n hn => hr n (.inr hn)⟩

end

/-- What succeeds with one function succeeds alike with a function that gives the same values. -/
theorem replace_mono {v w : Value} (h : v.replace f = .ok w)
    (hfg : ∀ n ∈ v.references, ∀ u, f n = .ok u → g n = .ok u) : v.replace g = .ok w := by
  have hr := (exists_replace_iff.mp ⟨w, h⟩).2
  rw [← h]
  apply replace_congr
  intro n hn
  obtain ⟨u, hu⟩ := hr n hn
  rw [hfg n hn u hu, hu]

/-! ### What a replacement leaves -/

mutual

/-- Replaced by resolved values, a value is resolved. -/
theorem isResolved_of_replace {v w : Value} (h : v.replace f = .ok w)
    (hf : ∀ n ∈ v.references, ∀ u, f n = .ok u → u.IsResolved) : w.IsResolved := by
  match v with
  | .number n =>
    cases h
    exact ⟨rfl, rfl⟩
  | .foreign k => cases h
  | .reference n => exact hf n (by simp [references]) w h
  | .dict fs =>
    obtain ⟨fs', hs, rfl⟩ := replace_dict_eq_ok_iff.mp h
    obtain ⟨hr, hk⟩ := isResolved_of_replaceFields hs (by simpa [references] using hf)
    exact ⟨by simpa [references] using hr, by simpa [foreignKinds] using hk⟩

theorem isResolved_of_replaceFields {fs fs' : List (Name × Value)}
    (h : replaceFields f fs = .ok fs')
    (hf : ∀ n ∈ referencesOfFields fs, ∀ u, f n = .ok u → u.IsResolved) :
    referencesOfFields fs' = [] ∧ foreignKindsOfFields fs' = [] := by
  match fs with
  | [] =>
    cases h
    exact ⟨rfl, rfl⟩
  | (k, v) :: fs =>
    obtain ⟨v', rest, hv, hs, rfl⟩ := replaceFields_cons_eq_ok_iff.mp h
    simp only [referencesOfFields, List.mem_append] at hf
    obtain ⟨hr, hk⟩ := isResolved_of_replace hv fun n hn => hf n (.inl hn)
    obtain ⟨hrs, hks⟩ := isResolved_of_replaceFields hs fun n hn => hf n (.inr hn)
    exact ⟨by simp [referencesOfFields, hr, hrs], by simp [foreignKindsOfFields, hk, hks]⟩

end

/-- A replacement keeps the keys of fields, in their order. -/
theorem keys_of_replaceFields {fs fs' : Fields} (h : replaceFields f fs = .ok fs') :
    fs'.keys = fs.keys := by
  induction fs generalizing fs' with
  | nil =>
    cases h
    rfl
  | cons e fs ih =>
    obtain ⟨k, v⟩ := e
    obtain ⟨v', rest, -, hs, rfl⟩ := replaceFields_cons_eq_ok_iff.mp h
    rw [Entries.keys_cons, Entries.keys_cons, ih hs]

mutual

/-- A number that a replacement leaves has been there, or came with what a reference was replaced
by. -/
theorem mem_numbers_of_replace {v w : Value} (h : v.replace f = .ok w) {m : Number}
    (hm : m ∈ w.numbers) :
    m ∈ v.numbers ∨ ∃ n ∈ v.references, ∃ u, f n = .ok u ∧ m ∈ u.numbers := by
  match v with
  | .number n =>
    cases h
    exact .inl hm
  | .foreign k => cases h
  | .reference n => exact .inr ⟨n, by simp [references], w, h, hm⟩
  | .dict fs =>
    obtain ⟨fs', hs, rfl⟩ := replace_dict_eq_ok_iff.mp h
    exact mem_numbers_of_replaceFields hs hm

theorem mem_numbers_of_replaceFields {fs fs' : List (Name × Value)}
    (h : replaceFields f fs = .ok fs') {m : Number} (hm : m ∈ numbersOfFields fs') :
    m ∈ numbersOfFields fs ∨
      ∃ n ∈ referencesOfFields fs, ∃ u, f n = .ok u ∧ m ∈ u.numbers := by
  match fs with
  | [] =>
    cases h
    exact .inl hm
  | (k, v) :: fs =>
    obtain ⟨v', rest, hv, hs, rfl⟩ := replaceFields_cons_eq_ok_iff.mp h
    simp only [numbersOfFields, referencesOfFields, List.mem_append] at hm ⊢
    rcases hm with hm | hm
    · rcases mem_numbers_of_replace hv hm with hm | ⟨n, hn, hu⟩
      · exact .inl (.inl hm)
      · exact .inr ⟨n, .inl hn, hu⟩
    · rcases mem_numbers_of_replaceFields hs hm with hm | ⟨n, hn, hu⟩
      · exact .inl (.inr hm)
      · exact .inr ⟨n, .inr hn, hu⟩

end

mutual

/-- A resolved value has nothing in it to replace. -/
theorem replace_of_isResolved {v : Value} (h : v.IsResolved) : v.replace f = .ok v := by
  obtain ⟨hr, hk⟩ := h
  match v with
  | .number n => rfl
  | .foreign k => cases hk
  | .reference n => cases hr
  | .dict fs => exact replace_dict_eq_ok_iff.mpr ⟨fs, replaceFields_of_isResolved hr hk, rfl⟩

theorem replaceFields_of_isResolved {fs : List (Name × Value)} (hr : referencesOfFields fs = [])
    (hk : foreignKindsOfFields fs = []) : replaceFields f fs = .ok fs := by
  match fs with
  | [] => rfl
  | (k, v) :: fs =>
    obtain ⟨hrv, hrfs⟩ := List.append_eq_nil_iff.mp hr
    obtain ⟨hkv, hkfs⟩ := List.append_eq_nil_iff.mp hk
    exact replaceFields_cons_eq_ok_iff.mpr
      ⟨v, fs, replace_of_isResolved ⟨hrv, hkv⟩, replaceFields_of_isResolved hrfs hkfs, rfl⟩

end

end Value

/-! ### What a reference means, one layer at a time -/

namespace Substitution

variable {env : Environment} {path : List Name} {n : Name}

mutual

/-- Replacing a value below a path is replacing its references by what they mean there. -/
theorem value_eq_replace (env : Environment) (path : List Name) (v : Value) :
    value env path v = v.replace (name env path) := by
  match v with
  | .number n => rw [value, Value.replace]
  | .foreign k => rw [value, Value.replace]
  | .reference n => rw [Value.replace, name]
  | .dict fs => rw [value, Value.replace, fields_eq_replaceFields env path fs]

theorem fields_eq_replaceFields (env : Environment) (path : List Name)
    (fs : List (Name × Value)) :
    fields env path fs = Value.replaceFields (name env path) fs := by
  match fs with
  | [] => rw [fields, Value.replaceFields]
  | (k, v) :: fs =>
    have hv := value_eq_replace env path v
    have hfs := fields_eq_replaceFields env path fs
    rcases hr : v.replace (name env path) with e | v'
    · simp only [fields, Value.replaceFields, hv, hr]
    · simp only [fields, Value.replaceFields, hv, hfs, hr]

end

theorem name_of_unknown (h : env.get? n = none) : name env path n = .error (.unknown n) := by
  rw [name, value]
  split
  · rfl
  · rename_i raw hn
    cases h.symm.trans hn

theorem name_of_cyclic {raw : Value} (h : env.get? n = some raw) (hp : n ∈ path) :
    name env path n = .error (.cyclic n) := by
  rw [name, value]
  split
  · rename_i hn
    cases h.symm.trans hn
  · rw [dif_pos hp]

/-- A name that is bound and not on the path means its raw value, replaced below the path
extended by it. -/
theorem name_of_bound {raw : Value} (h : env.get? n = some raw) (hp : n ∉ path) :
    name env path n = raw.replace (name env (n :: path)) := by
  rw [name, value]
  split
  · rename_i hn
    cases h.symm.trans hn
  · rename_i raw' hn
    cases h.symm.trans hn
    rw [dif_neg hp, value_eq_replace]

/-- Where a name has a meaning, it is bound and not on the path. -/
theorem name_eq_ok_iff {v : Value} :
    name env path n = .ok v ↔
      ∃ raw, env.get? n = some raw ∧ n ∉ path ∧ raw.replace (name env (n :: path)) = .ok v := by
  rcases h : env.get? n with - | raw
  · simp [name_of_unknown h]
  · by_cases hp : n ∈ path
    · simp [name_of_cyclic h hp, hp]
    · simp [name_of_bound h hp, hp]

/-- Following references: a statement about names below paths holds if it holds of every name as
soon as it holds of the names that its raw value refers to, below the path extended by it. -/
theorem path_induction (env : Environment) {P : List Name → Name → Prop}
    (step : ∀ path n,
      (∀ raw, env.get? n = some raw → n ∉ path → ∀ m ∈ raw.references, P (n :: path) m) →
      P path n)
    (path : List Name) (n : Name) : P path n := by
  induction hk : (unvisited env path).length using Nat.strongRecOn generalizing path n with
  | ind k ih =>
    refine step path n fun raw hn hp m _ => ih _ ?_ (n :: path) m rfl
    rw [← hk]
    exact length_unvisited_cons_lt hn hp

end Substitution

end HexDoc
