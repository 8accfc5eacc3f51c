/-
HexDoc/Entries.lean

Entries in the order in which their keys first appeared.  Putting a value under a key that is
there already replaces the value and leaves the key where it is; a new key goes to the end.
Bindings of a document, fields of a dictionary and files of a folder are kept this way.

Main statements: `keys_put` says what a put does to the keys, `get?_put` what it does to a
look-up.
-/
namespace HexDoc

/-- Keys with their values, in the order of first appearance. -/
abbrev Entries (κ α : Type) := List (κ × α)

namespace Entries

variable {κ α : Type}

/-- The keys, in order. -/
def keys (es : Entries κ α) : List κ :=
  es.map Prod.fst

section
variable [DecidableEq κ]

/-- The value under a key. -/
def get? : Entries κ α → κ → Option α
  | [], _ => none
  | (k', v) :: es, k => if k' = k then some v else get? es k

/-- Puts a value under a key: in its place if the key is there, at the end otherwise. -/
def put : Entries κ α → κ → α → Entries κ α
  | [], k, v => [(k, v)]
  | (k', v') :: es, k, v => if k' = k then (k', v) :: es else (k', v') :: put es k v

/-- Puts entries one after the other. -/
def putAll (es : Entries κ α) (new : List (κ × α)) : Entries κ α :=
  new.foldl (fun es e => put es e.1 e.2) es

/-- A list of entries in which keys may repeat, brought into one entry for each key. -/
def collapse (es : List (κ × α)) : Entries κ α :=
  putAll [] es

/-! ### What a put does -/

theorem keys_put (es : Entries κ α) (k : κ) (v : α) :
    keys (put es k v) = if k ∈ keys es then keys es else keys es ++ [k] := by
  induction es with
  | nil => simp [put, keys]
  | cons e es ih =>
    obtain ⟨k', v'⟩ := e
    simp only [keys] at ih
    by_cases h : k' = k
    · simp [put, keys, h]
    · have h' : ¬ k = k' := fun hk => h hk.symm
      simp only [put, keys, h, if_false, List.map_cons, ih, List.mem_cons, h', false_or]
      split <;> simp [*]

theorem get?_put (es : Entries κ α) (k k' : κ) (v : α) :
    get? (put es k v) k' = if k = k' then some v else get? es k' := by
  induction es with
  | nil => simp [put, get?]
  | cons e es ih =>
    obtain ⟨l, w⟩ := e
    by_cases h : l = k
    · subst h
      by_cases h' : l = k' <;> simp [put, get?, h']
    · simp only [put, h, if_false, get?, ih]
      by_cases h' : l = k'
      · subst h'
        have hk : ¬ k = l := fun hk => h hk.symm
        simp [hk]
      · simp [h']

/-- A key has a value exactly when it is among the keys. -/
theorem isSome_get? (es : Entries κ α) (k : κ) : (get? es k).isSome = true ↔ k ∈ keys es := by
  induction es with
  | nil => simp [get?, keys]
  | cons e es ih =>
    obtain ⟨l, w⟩ := e
    simp only [keys] at ih
    by_cases h : l = k
    · simp [get?, keys, h]
    · simp only [get?, h, if_false, ih, keys, List.map_cons, List.mem_cons]
      exact ⟨Or.inr, fun hk => hk.resolve_left fun hk => h hk.symm⟩

/-- No key appears twice after a put, if none did before. -/
theorem nodup_keys_put {es : Entries κ α} (h : (keys es).Nodup) (k : κ) (v : α) :
    (keys (put es k v)).Nodup := by
  rw [keys_put]
  split
  · exact h
  · rename_i hk
    refine List.nodup_append.mpr ⟨h, by simp, ?_⟩
    rintro a ha b hb rfl
    exact hk (List.mem_singleton.mp hb ▸ ha)

/-- A key that is not there goes to the end. -/
theorem put_of_notMem {es : Entries κ α} {k : κ} (h : k ∉ keys es) (v : α) :
    put es k v = es ++ [(k, v)] := by
  induction es with
  | nil => rfl
  | cons e es ih =>
    obtain ⟨l, w⟩ := e
    rw [keys, List.map_cons, List.mem_cons, not_or] at h
    have hl : ¬ l = k := fun hl => h.1 hl.symm
    simp only [put, hl, if_false, ih h.2, List.cons_append]

/-! ### Entries one behind the other -/

theorem get?_eq_none_iff {es : Entries κ α} {k : κ} : get? es k = none ↔ k ∉ keys es := by
  rw [← isSome_get?]
  cases get? es k <;> simp

theorem mem_keys_of_get? {es : Entries κ α} {k : κ} {v : α} (h : get? es k = some v) :
    k ∈ keys es :=
  (isSome_get? es k).mp (by simp [h])

theorem exists_get?_of_mem_keys {es : Entries κ α} {k : κ} (h : k ∈ keys es) :
    ∃ v, get? es k = some v :=
  Option.isSome_iff_exists.mp ((isSome_get? es k).mpr h)

/-- The entries in front come first. -/
theorem get?_append (es fs : Entries κ α) (k : κ) :
    get? (es ++ fs) k = (get? es k).or (get? fs k) := by
  induction es with
  | nil => simp [get?]
  | cons e es ih =>
    obtain ⟨l, w⟩ := e
    by_cases h : l = k
    · simp [get?, h]
    · simp [get?, h, ih]

theorem get?_append_of_some {es : Entries κ α} {k : κ} {v : α} (h : get? es k = some v)
    (fs : Entries κ α) : get? (es ++ fs) k = some v := by
  rw [get?_append, h, Option.some_or]

/-! ### Look-ups and members -/

theorem mem_of_get? {es : Entries κ α} {k : κ} {v : α} (h : get? es k = some v) :
    (k, v) ∈ es := by
  induction es with
  | nil => cases h
  | cons e es ih =>
    obtain ⟨l, w⟩ := e
    by_cases hk : l = k
    · simp only [get?, hk, if_true, Option.some.injEq] at h
      rw [hk, h]
      exact List.mem_cons_self
    · simp only [get?, hk, if_false] at h
      exact List.mem_cons_of_mem _ (ih h)

/-- Where no key appears twice, a look-up finds every entry. -/
theorem mem_iff_get? {es : Entries κ α} (h : (keys es).Nodup) {k : κ} {v : α} :
    (k, v) ∈ es ↔ get? es k = some v := by
  refine ⟨fun hmem => ?_, mem_of_get?⟩
  induction es with
  | nil => cases hmem
  | cons e es ih =>
    obtain ⟨l, w⟩ := e
    obtain ⟨hl, hes⟩ := List.nodup_cons.mp h
    rcases List.mem_cons.mp hmem with he | hmem
    · cases he
      simp [get?]
    · have hne : ¬ l = k := by
        rintro rfl
        exact hl (List.mem_map.mpr ⟨_, hmem, rfl⟩)
      simp only [get?, hne, if_false]
      exact ih hes hmem

/-! ### Values mapped -/

variable {β : Type}

theorem get?_map (f : α → β) (es : Entries κ α) (k : κ) :
    get? (es.map fun e => (e.1, f e.2)) k = (get? es k).map f := by
  induction es with
  | nil => rfl
  | cons e es ih =>
    by_cases h : e.1 = k
    · simp [get?, h]
    · simp [get?, h, ih]

/-- A put commutes with mapping the values. -/
theorem put_map (f : α → β) (es : Entries κ α) (k : κ) (v : α) :
    put (es.map fun e => (e.1, f e.2)) k (f v) = (put es k v).map fun e => (e.1, f e.2) := by
  induction es with
  | nil => rfl
  | cons e es ih =>
    by_cases h : e.1 = k
    · simp [put, h]
    · simp [put, h, ih]

end

@[simp]
theorem keys_append (es fs : Entries κ α) : keys (es ++ fs) = keys es ++ keys fs :=
  List.map_append

@[simp]
theorem keys_nil : keys ([] : Entries κ α) = [] := rfl

@[simp]
theorem keys_cons (e : κ × α) (es : Entries κ α) : keys (e :: es) = e.1 :: keys es := rfl

end Entries

end HexDoc
