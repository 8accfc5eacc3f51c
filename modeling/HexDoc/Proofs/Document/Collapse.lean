/-
HexDoc/Proofs/Document/Collapse.lean

What a written document means, said without saying how it is read.  Names stand in the order of
their first appearance, each with the value of its last, and so do the keys of every dictionary
at every level; a number keeps its literal.

`Written.Means` is that rule for values and `WrittenDocument.Means` for documents.  Main
statements: a collapse has the keys in the order of first appearance and the last value of each
(`Entries.keys_collapse`, `Entries.get?_collapse`), and therefore a well-formed document means
the environment that `WrittenDocument.environment` computes (`WrittenDocument.means_environment`).
-/
import HexDoc.Document.Written
import Mathlib.Data.List.Induction

namespace HexDoc

/-! ### Collapsing entries -/

namespace Entries

variable {κ α β : Type} [DecidableEq κ]

theorem collapse_snoc (es : List (κ × α)) (k : κ) (v : α) :
    collapse (es ++ [(k, v)]) = put (collapse es) k v := by
  rw [collapse, putAll, List.foldl_append]
  rfl

/-- The keys come in the order of their first appearance. -/
theorem keys_collapse (es : List (κ × α)) : keys (collapse es) = (keys es).eraseDups := by
  induction es using List.reverseRecOn with
  | nil => rfl
  | append_singleton es e ih =>
    obtain ⟨k, v⟩ := e
    rw [collapse_snoc, keys_put, ih, keys_append, List.eraseDups_append]
    -- a key that has appeared before stays where it is
    by_cases hk : k ∈ keys es
    · simp [List.removeAll, hk]
    · simp [List.removeAll, hk, List.eraseDups_cons]

/-- Each key has the value of its last appearance. -/
theorem get?_collapse (es : List (κ × α)) (k : κ) : get? (collapse es) k = get? es.reverse k := by
  induction es using List.reverseRecOn with
  | nil => rfl
  | append_singleton es e ih =>
    obtain ⟨l, v⟩ := e
    rw [collapse_snoc, get?_put, ih, List.reverse_append]
    rfl

theorem nodup_keys_collapse (es : List (κ × α)) : (keys (collapse es)).Nodup := by
  induction es using List.reverseRecOn with
  | nil => exact List.nodup_nil
  | append_singleton es e ih =>
    obtain ⟨k, v⟩ := e
    rw [collapse_snoc]
    exact nodup_keys_put ih k v

/-- Entries with distinct keys are known by their keys, in order, and the value of each. -/
theorem eq_of_get?_eq {es fs : Entries κ α} (hkeys : keys es = keys fs) (hes : (keys es).Nodup)
    (hget : ∀ k ∈ keys es, get? es k = get? fs k) : es = fs := by
  induction es generalizing fs with
  | nil => exact (List.map_eq_nil_iff.mp hkeys.symm).symm
  | cons e es ih =>
    obtain ⟨k, v⟩ := e
    cases fs with
    | nil => cases hkeys
    | cons f fs =>
      obtain ⟨l, w⟩ := f
      simp only [keys_cons, List.cons.injEq] at hkeys
      obtain ⟨rfl, hkeys⟩ := hkeys
      rw [keys_cons, List.nodup_cons] at hes
      have hv : v = w := by simpa [get?] using hget k List.mem_cons_self
      have hes' : es = fs := by
        apply ih hkeys hes.2
        intro l hl
        have hne : ¬ k = l := by
          rintro rfl
          exact hes.1 hl
        simpa [get?, hne] using hget l (List.mem_cons_of_mem _ hl)
      rw [hv, hes']

theorem mem_of_mem_put {es : Entries κ α} {k : κ} {v : α} {e : κ × α} (h : e ∈ put es k v) :
    e ∈ es ∨ e = (k, v) := by
  induction es with
  | nil => exact .inr (List.mem_singleton.mp h)
  | cons f es ih =>
    obtain ⟨l, w⟩ := f
    rw [put] at h
    split at h
    · rename_i hl
      rcases List.mem_cons.mp h with rfl | h
      · exact .inr (by rw [hl])
      · exact .inl (List.mem_cons_of_mem _ h)
    · rcases List.mem_cons.mp h with rfl | h
      · exact .inl List.mem_cons_self
      · exact (ih h).imp_left (List.mem_cons_of_mem _)

/-- A collapse has no entries of its own. -/
theorem mem_of_mem_collapse {es : List (κ × α)} {e : κ × α} (h : e ∈ collapse es) : e ∈ es := by
  induction es using List.reverseRecOn with
  | nil => exact h
  | append_singleton es f ih =>
    obtain ⟨k, v⟩ := f
    rw [collapse_snoc] at h
    rcases mem_of_mem_put h with h | rfl
    · exact List.mem_append_left _ (ih h)
    · simp

end Entries

/-! ### Meaning, level by level -/

/-- What a written value means: a number with its literal, the same reference, or a dictionary
whose keys stand in the order of their first appearance, each with what its last value means. -/
inductive Written.Means : Written → Value → Prop
  | number {lexeme : String} {w : UInt64} :
      Hex.decode? lexeme = some w → Means (.number lexeme) (.number ⟨lexeme, w⟩)
  | reference {n : Name} : Means (.reference n) (.reference n)
  | dict {fs : List (Name × Written)} {es : Fields} :
      es.keys = (Entries.keys fs).eraseDups →
      (∀ k w v, Entries.get? fs.reverse k = some w → es.get? k = some v → Means w v) →
      Means (.dict fs) (.dict es)

/-- What a written document means: its names in the order of their first appearance, each with
what its last value means. -/
structure WrittenDocument.Means (d : WrittenDocument) (env : Environment) : Prop where
  keys : env.keys = (Entries.keys d).eraseDups
  values : ∀ k w v, Entries.get? d.reverse k = some w → env.get? k = some v → w.Means v

namespace Written

theorem valuesOfFields_eq_map (fs : List (Name × Written)) :
    valuesOfFields fs = fs.map fun f => (f.1, f.2.value) := by
  induction fs with
  | nil => rfl
  | cons f fs ih => rw [valuesOfFields, ih, List.map_cons]

theorem wellFormedFields_iff {fs : List (Name × Written)} :
    WellFormedFields fs ↔ ∀ f ∈ fs, IsName f.1 ∧ f.2.WellFormed := by
  induction fs with
  | nil => simp [WellFormedFields]
  | cons f fs ih => rw [WellFormedFields, ih, List.forall_mem_cons, and_assoc]

theorem wellFormedFields_snoc {fs : List (Name × Written)} {k : Name} {w : Written}
    (hfs : WellFormedFields fs) (hk : IsName k) (hw : w.WellFormed) :
    WellFormedFields (fs ++ [(k, w)]) := by
  rw [wellFormedFields_iff] at hfs ⊢
  intro f hf
  rcases List.mem_append.mp hf with hf | hf
  · exact hfs f hf
  · rw [List.mem_singleton.mp hf]
    exact ⟨hk, hw⟩

/-- The values under the keys of a collapse are those of the last appearances. -/
theorem eq_value_of_get?_collapse {fs : List (Name × Written)} {k : Name} {w : Written}
    {v : Value} (hw : Entries.get? fs.reverse k = some w)
    (hv : Entries.get? (Entries.collapse (fs.map fun f => (f.1, f.2.value))) k = some v) :
    v = w.value := by
  rw [Entries.get?_collapse, ← List.map_reverse, Entries.get?_map, hw] at hv
  exact (Option.some.inj hv).symm

theorem keys_collapse_values (fs : List (Name × Written)) :
    Entries.keys (Entries.collapse (fs.map fun f => (f.1, f.2.value))) =
      (Entries.keys fs).eraseDups := by
  rw [Entries.keys_collapse]
  simp [Entries.keys, Function.comp_def]

mutual

/-- A well-formed value means what is computed for it. -/
theorem means_value {w : Written} (h : w.WellFormed) : w.Means w.value := by
  match w with
  | .number l =>
    obtain ⟨u, hu⟩ := Option.isSome_iff_exists.mp h
    rw [value, hu]
    exact .number hu
  | .reference n => exact .reference
  | .dict fs =>
    rw [value, valuesOfFields_eq_map]
    apply Means.dict (keys_collapse_values fs)
    intro k w v hw hv
    rw [eq_value_of_get?_collapse hw hv]
    exact means_value_of_mem h (k, w) (List.mem_reverse.mp (Entries.mem_of_get? hw))

theorem means_value_of_mem {fs : List (Name × Written)} (h : WellFormedFields fs) :
    ∀ f ∈ fs, f.2.Means f.2.value := by
  match fs with
  | [] => simp
  | (k, w) :: fs =>
    rw [WellFormedFields] at h
    exact List.forall_mem_cons.mpr ⟨means_value h.2.1, means_value_of_mem h.2.2⟩

end

/-- The keys in order of first appearance and the last value of each are the collapse. -/
theorem eq_collapse {fs : List (Name × Written)} {es : Fields}
    (hkeys : es.keys = (Entries.keys fs).eraseDups)
    (hvalues : ∀ k w v, Entries.get? fs.reverse k = some w → es.get? k = some v → v = w.value) :
    es = Entries.collapse (fs.map fun f => (f.1, f.2.value)) := by
  have hkeys' := hkeys.trans (keys_collapse_values fs).symm
  have hnodup : es.keys.Nodup := hkeys' ▸ Entries.nodup_keys_collapse _
  apply Entries.eq_of_get?_eq hkeys' hnodup
  intro k hk
  obtain ⟨v, hv⟩ := Entries.exists_get?_of_mem_keys hk
  obtain ⟨v', hv'⟩ := Entries.exists_get?_of_mem_keys (hkeys' ▸ hk)
  rw [hv, hv']
  rw [Entries.get?_collapse, ← List.map_reverse, Entries.get?_map, Option.map_eq_some_iff] at hv'
  obtain ⟨w, hw, rfl⟩ := hv'
  rw [hvalues k w v hw hv]

/-- A value means one thing only. -/
theorem Means.eq_value {w : Written} {v : Value} (h : w.Means v) : v = w.value := by
  induction h with
  | number hu => rw [value, hu]; rfl
  | reference => rw [value]
  | dict hkeys _ ih =>
    rw [value, valuesOfFields_eq_map]
    exact congrArg Value.dict (eq_collapse hkeys ih)

end Written

namespace WrittenDocument

/-- A well-formed document means the environment that is computed for it. -/
theorem means_environment {d : WrittenDocument} (h : d.WellFormed) : d.Means d.environment where
  keys := Written.keys_collapse_values d
  values := by
    intro k w v hw hv
    rw [Written.eq_value_of_get?_collapse hw hv]
    exact Written.means_value (h (k, w) (List.mem_reverse.mp (Entries.mem_of_get? hw))).2

/-- A document means one environment only. -/
theorem Means.eq_environment {d : WrittenDocument} {env : Environment} (h : d.Means env) :
    env = d.environment :=
  Written.eq_collapse h.keys fun k w v hw hv => (h.values k w v hw hv).eq_value

end WrittenDocument

end HexDoc
