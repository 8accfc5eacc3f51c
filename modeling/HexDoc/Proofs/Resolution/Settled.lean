/-
HexDoc/Proofs/Resolution/Settled.lean

What the values on a ledger are.  `Settled env c` says that the values `c` have come about one
by one: each name is bound in `env` and new when it comes, and its value is its raw value with
the references replaced by values that were there already.  So a settled list of values is
closed under references, in order.

Main statements: a call of the recursion only adds values at the end, of names that are not
under way, keeps what is settled settled and notes what it adds (`Recursion.grows`); and a
settled value is what its name means below every path that leaves the settled names alone
(`Settled.name_eq`).
-/
import HexDoc.Proofs.Resolution.Replacement
import HexDoc.Resolution.Recursion

namespace HexDoc

/-- The value of a name, where a name without one counts as unknown. -/
def Environment.valueOf (c : Environment) (n : Name) : Except ResolveError Value :=
  match c.get? n with
  | some v => .ok v
  | none => .error (.unknown n)

theorem Environment.valueOf_eq_ok_iff {c : Environment} {n : Name} {v : Value} :
    c.valueOf n = .ok v ↔ c.get? n = some v := by
  unfold Environment.valueOf
  cases c.get? n <;> simp

/-- Values that have come about one by one, each from its raw value and those before it. -/
inductive Settled (env : Environment) : Environment → Prop
  | nil : Settled env []
  | snoc {c : Environment} {n : Name} {raw v : Value} :
      Settled env c → n ∉ c.keys → env.get? n = some raw → raw.replace c.valueOf = .ok v →
      Settled env (c ++ [(n, v)])

namespace Settled

variable {env c : Environment}

/-- No name has two values. -/
theorem nodup_keys (h : Settled env c) : c.keys.Nodup := by
  induction h with
  | nil => exact List.nodup_nil
  | snoc _ hn _ _ ih =>
    rw [Entries.keys_append]
    refine List.nodup_append.mpr ⟨ih, by simp, fun a ha b hb hab => hn ?_⟩
    simp only [Entries.keys_cons, Entries.keys_nil, List.mem_singleton] at hb
    rwa [← hb, ← hab]

/-- Every settled name is bound. -/
theorem isBound (h : Settled env c) {n : Name} (hn : n ∈ c.keys) :
    ∃ raw, env.get? n = some raw := by
  induction h with
  | nil => cases hn
  | snoc _ _ hraw _ ih =>
    rw [Entries.keys_append, List.mem_append] at hn
    rcases hn with hn | hn
    · exact ih hn
    · simp only [Entries.keys_cons, Entries.keys_nil, List.mem_singleton] at hn
      exact ⟨_, hn ▸ hraw⟩

/-- The last entry of a settled list, or an earlier one. -/
theorem get?_snoc {n k : Name} {v w : Value} (h : Entries.get? (c ++ [(n, v)]) k = some w) :
    c.get? k = some w ∨ c.get? k = none ∧ n = k ∧ v = w := by
  rw [Entries.get?_append] at h
  rcases hc : c.get? k with - | u
  · rw [hc, Option.none_or] at h
    simp only [Entries.get?] at h
    split at h
    · rename_i hk
      exact .inr ⟨rfl, hk, Option.some.inj h⟩
    · cases h
  · rw [hc, Option.some_or] at h
    exact .inl h

/-- A settled value is what its name means, as long as no settled name is on the path: the
names that it leads to are settled too, so the path is never met. -/
theorem name_eq (h : Settled env c) {n : Name} {v : Value} (hn : c.get? n = some v)
    {path : List Name} (hp : ∀ m ∈ path, m ∉ c.keys) : Substitution.name env path n = .ok v := by
  induction h generalizing n v path with
  | nil => cases hn
  | @snoc c k raw w hc hk hraw hw ih =>
    simp only [Entries.keys_append, List.mem_append, not_or] at hp
    rcases get?_snoc hn with hn | ⟨-, rfl, rfl⟩
    · exact ih hn fun m hm => (hp m hm).1
    · -- the entry came last: what it refers to is settled without it
      have hkp : k ∉ path := fun hm => (hp k hm).2 (by simp)
      rw [Substitution.name_of_bound hraw hkp]
      apply Value.replace_mono hw
      intro m _ u hu
      apply ih (Environment.valueOf_eq_ok_iff.mp hu)
      intro a ha
      rcases List.mem_cons.mp ha with rfl | ha
      · exact hk
      · exact (hp a ha).1

/-- Every entry has come from those in front of it. -/
theorem of_eq_append (h : Settled env c) {pre post : Environment} {n : Name} {v : Value}
    (hc : c = pre ++ (n, v) :: post) :
    Settled env pre ∧ ∃ raw, env.get? n = some raw ∧ raw.replace pre.valueOf = .ok v := by
  induction h generalizing post with
  | nil => simp at hc
  | @snoc c k raw w hs _ hraw hw ih =>
    rcases List.eq_nil_or_concat post with rfl | ⟨post', e, rfl⟩
    · -- the entry is the one that came last
      obtain ⟨rfl, he⟩ := List.append_inj' hc rfl
      cases he
      exact ⟨hs, raw, hraw, hw⟩
    · have hc' : c ++ [(k, w)] = (pre ++ (n, v) :: post') ++ [e] := by simpa using hc
      exact ih (List.append_inj' hc' rfl).1

/-- What the raw value of a settled name refers to is settled before it. -/
theorem mem_of_refers (h : Settled env c) {pre post : Environment} {n m : Name} {v : Value}
    (hc : c = pre ++ (n, v) :: post) (hm : env.Refers n m) : m ∈ pre.keys := by
  obtain ⟨-, raw, hraw, hv⟩ := h.of_eq_append hc
  obtain ⟨raw', hraw', hmem⟩ := hm
  cases hraw.symm.trans hraw'
  obtain ⟨u, hu⟩ := (Value.exists_replace_iff.mp ⟨v, hv⟩).2 m hmem
  exact Entries.mem_keys_of_get? (Environment.valueOf_eq_ok_iff.mp hu)

/-- What holds of every raw value replaced by values of which it holds, holds of every settled
value. -/
theorem forall_value {P : Value → Prop} (h : Settled env c)
    (step : ∀ n raw v f, env.get? n = some raw → raw.replace f = .ok v →
      (∀ m ∈ raw.references, ∀ u, f m = .ok u → P u) → P v)
    {n : Name} {v : Value} (hn : c.get? n = some v) : P v := by
  induction h generalizing n v with
  | nil => cases hn
  | snoc _ _ hraw hw ih =>
    rcases get?_snoc hn with hn | ⟨-, rfl, rfl⟩
    · exact ih hn
    · exact step _ _ _ _ hraw hw fun m _ u hu => ih (Environment.valueOf_eq_ok_iff.mp hu)

/-- A settled value is made of numbers and dictionaries only. -/
theorem isResolved (h : Settled env c) {n : Name} {v : Value} (hn : c.get? n = some v) :
    v.IsResolved :=
  h.forall_value (fun _ _ _ _ _ hw hf => Value.isResolved_of_replace hw hf) hn

/-- A settled value has no numbers but those of raw values. -/
theorem exists_raw_of_mem_numbers (h : Settled env c) {n : Name} {v : Value}
    (hn : c.get? n = some v) : ∀ m ∈ v.numbers, ∃ b ∈ env, m ∈ b.2.numbers := by
  refine h.forall_value (P := fun v => ∀ m ∈ v.numbers, ∃ b ∈ env, m ∈ b.2.numbers) ?_ hn
  intro k raw v f hraw hw hf m hm
  rcases Value.mem_numbers_of_replace hw hm with hm | ⟨a, ha, u, hu, hm⟩
  · exact ⟨(k, raw), Entries.mem_of_get? hraw, hm⟩
  · exact hf a ha u hu m hm

end Settled

/-! ### What a call adds to a ledger -/

/-- A later ledger: more values at the end, of names that are not under way, each of them noted
as resolved, and settled if those before were. -/
structure Ledger.Grows (env : Environment) (l l' : Ledger) : Prop where
  values : ∃ new : Environment, l'.values = l.values ++ new ∧ (∀ n ∈ new.keys, n ∉ l.underWay) ∧
    Event.resolvedNames l'.events = Event.resolvedNames l.events ++ new.keys
  underWay : l'.underWay = l.underWay
  settled : Settled env l.values → Settled env l'.values

namespace Ledger.Grows

variable {env : Environment} {l l' l'' : Ledger} {n : Name} {v : Value}

theorem refl (env : Environment) (l : Ledger) : l.Grows env l :=
  ⟨⟨[], by simp, by simp, by simp⟩, rfl, id⟩

theorem trans (h : l.Grows env l') (h' : l'.Grows env l'') : l.Grows env l'' := by
  obtain ⟨new, hv, hu, he⟩ := h.values
  obtain ⟨new', hv', hu', he'⟩ := h'.values
  refine ⟨⟨new ++ new', ?_, ?_, ?_⟩, h'.underWay.trans h.underWay, h'.settled ∘ h.settled⟩
  · rw [hv', hv, List.append_assoc]
  · intro n hn
    rw [Entries.keys_append, List.mem_append] at hn
    rcases hn with hn | hn
    · exact hu n hn
    · rw [← h.underWay]
      exact hu' n hn
  · rw [he', he, Entries.keys_append, List.append_assoc]

theorem find (env : Environment) (l : Ledger) (n : Name) : l.Grows env (l.find n) :=
  ⟨⟨[], by simp [Ledger.find], by simp, by simp [Ledger.find, Event.resolvedNames]⟩, rfl, id⟩

/-- Values that are there stay. -/
theorem get?_eq_some (h : l.Grows env l') (hn : l.values.get? n = some v) :
    l'.values.get? n = some v := by
  obtain ⟨new, hv, -⟩ := h.values
  rw [hv]
  exact Entries.get?_append_of_some hn new

/-- A name under way gets no value. -/
theorem get?_eq_none (h : l.Grows env l') (hn : l.values.get? n = none) (hu : n ∈ l.underWay) :
    l'.values.get? n = none := by
  obtain ⟨new, hv, hnew, -⟩ := h.values
  rw [hv, Entries.get?_append, hn, Option.none_or]
  exact Entries.get?_eq_none_iff.mpr fun hk => hnew n hk hu

/-- A name that is entered and left again leaves a later ledger. -/
theorem leave (h : (l.enter n).Grows env l') (hu : n ∉ l.underWay) :
    l.Grows env (l'.leave n) := by
  obtain ⟨new, hv, hnew, he⟩ := h.values
  exact ⟨⟨new, hv, fun m hm hmu => hnew m hm (List.mem_cons_of_mem _ hmu), he⟩,
    Recursion.underWay_leave_enter hu h.underWay, h.settled⟩

/-- A value that is filed when its name is left comes at the end. -/
theorem file (h : l.Grows env l') (hn : l'.values.get? n = none) (hu : n ∉ l.underWay)
    {raw : Value} (hraw : env.get? n = some raw)
    (hv : raw.replace l'.values.valueOf = .ok v) : l.Grows env (l'.file n v) := by
  have hk := Entries.get?_eq_none_iff.mp hn
  have happ : (l'.file n v).values = l'.values ++ [(n, v)] := Entries.put_of_notMem hk v
  refine h.trans ⟨⟨[(n, v)], happ, ?_, by simp [Ledger.file, Event.resolvedNames]⟩, rfl, ?_⟩
  · intro m hm
    simp only [Entries.keys_cons, Entries.keys_nil, List.mem_singleton] at hm
    rwa [hm, h.underWay]
  · intro hs
    rw [happ]
    exact hs.snoc hk hraw hv

/-- What the values of a ledger replace, those of a later ledger replace alike. -/
theorem replace_eq (h : l.Grows env l') {v w : Value}
    (hv : v.replace l.values.valueOf = .ok w) : v.replace l'.values.valueOf = .ok w :=
  Value.replace_mono hv fun _ _ _ hu => Environment.valueOf_eq_ok_iff.mpr
    (h.get?_eq_some (Environment.valueOf_eq_ok_iff.mp hu))

end Ledger.Grows

namespace Recursion

open Environment

/-- A call leaves a later ledger.  When it succeeds, its answer is what the values of that
ledger say. -/
theorem grows (env : Environment) :
    (∀ l n, l.Grows env (name env l n).2 ∧
      ∀ w, (name env l n).1 = .ok w → (name env l n).2.1.values.get? n = some w) ∧
    (∀ l v, l.Grows env (value env l v).2 ∧
      ∀ w, (value env l v).1 = .ok w → v.replace (valueOf (value env l v).2.1.values) = .ok w) ∧
    (∀ l fs, l.Grows env (fields env l fs).2 ∧
      ∀ fs', (fields env l fs).1 = .ok fs' →
        Value.replaceFields (valueOf (fields env l fs).2.1.values) fs = .ok fs') := by
  apply induct env
  case found =>
    intro l n v hv
    rw [name_of_found hv]
    exact ⟨.find env l n, fun w hw => by cases hw; exact hv⟩
  case unknown =>
    intro l n hv hn
    rw [name_of_unknown hv hn]
    exact ⟨.refl env l, fun w hw => by cases hw⟩
  case cyclic =>
    intro l n raw hv hn hp
    rw [name_of_cyclic hv hn hp]
    exact ⟨.refl env l, fun w hw => by cases hw⟩
  case failed =>
    intro l n raw e l' hv hn hp h ih
    rw [name_of_error hv hn hp h]
    rw [h] at ih
    exact ⟨ih.1.leave hp, fun w hw => by cases hw⟩
  case filed =>
    intro l n raw v l' hv hn hp h ih
    rw [name_of_ok hv hn hp h]
    rw [h] at ih
    -- the name was under way, so its value is new
    have hnone : l'.1.values.get? n = none := ih.1.get?_eq_none hv List.mem_cons_self
    refine ⟨(ih.1.leave hp).file hnone hp hn (ih.2 v rfl), ?_⟩
    intro w hw
    cases hw
    simp [Ledger.file, Entries.get?_put]
  case number =>
    intro l m
    rw [value_number]
    exact ⟨.refl env l, fun w hw => by cases hw; rfl⟩
  case foreign =>
    intro l k
    rw [value_foreign]
    exact ⟨.refl env l, fun w hw => by cases hw⟩
  case reference =>
    intro l n ih
    rw [value_reference]
    exact ⟨ih.1, fun w hw => valueOf_eq_ok_iff.mpr (ih.2 w hw)⟩
  case dict =>
    intro l fs ih
    rw [value_dict]
    refine ⟨ih.1, fun w hw => ?_⟩
    obtain ⟨fs', hfs, rfl⟩ := Outcome.map_eq_ok_iff.mp hw
    rw [Value.replace, ih.2 fs' hfs]
    rfl
  case nil =>
    intro l
    rw [fields_nil]
    exact ⟨.refl env l, fun w hw => by cases hw; rfl⟩
  case stopped =>
    intro l k v fs e l' h ih
    rw [fields_cons_of_error h]
    rw [h] at ih
    exact ⟨ih.1, fun w hw => by cases hw⟩
  case cons =>
    intro l k v fs v' l' h ih ihs
    rw [fields_cons_of_ok h]
    rw [h] at ih
    refine ⟨ih.1.trans ihs.1, ?_⟩
    intro fs' hfs
    rcases hr : (fields env l'.1 fs).1 with e | rest
    · rw [hr] at hfs
      cases hfs
    · rw [hr] at hfs
      cases hfs
      -- what the first value was replaced by is still there after the other fields
      have hv := ihs.1.replace_eq (ih.2 v' rfl)
      exact Value.replaceFields_cons_eq_ok_iff.mpr ⟨v', rest, hv, ihs.2 rest hr, rfl⟩

/-- What a value is resolved with, whatever comes of it, grows. -/
theorem grows_of_value {env : Environment} {l : Ledger} {v : Value} {x : Except ResolveError Value}
    {l' : Same l} (h : value env l v = (x, l')) : l.Grows env l'.1 := by
  have hgrows := ((grows env).2.1 l v).1
  rwa [h] at hgrows

/-- A name that has been entered gets no value while its raw value is resolved. -/
theorem get?_eq_none_of_value {env : Environment} {l : Ledger} {n : Name} {raw : Value}
    {x : Except ResolveError Value} {l' : Same (l.enter n)} (hv : l.values.get? n = none)
    (h : value env (l.enter n) raw = (x, l')) : l'.1.values.get? n = none :=
  (grows_of_value h).get?_eq_none hv List.mem_cons_self

end Recursion

end HexDoc
