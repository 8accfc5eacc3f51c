/-
HexDoc/Proofs/Resolution/Inlining.lean

A reference and what it stands for are interchangeable.  In an environment that resolves, values
that have come about one by one still come about one by one when some references have given way,
each to a value that is replaced by the value of its name (`Settled.inlined`): raw values are
replaced so by definition, and resolved ones have nothing in them to replace.

The way back, for raw values, is a matter of the graph of references.  A reference that gives way
to a raw value leaves the references of that raw value in its place, so a way through the
environment takes a shorter way through the inlined one: if no way there is endless, none was
(`acc_of_inlined`).

Main statement: putting raw values in the place of any references to bound names changes neither
whether an environment resolves nor to which values, and putting in resolved values does not
either (`resolve_inlined`).
-/
import HexDoc.Proofs.Resolution.Reordering
import HexDoc.Value.Inlining

namespace HexDoc

open Relation

/-! ### One value -/

namespace Value

variable {table : Name → Option Value} {f : Name → Except ResolveError Value}

mutual

/-- A value is replaced by the same value when some of its references give way to values that are
replaced by what these references are replaced by. -/
theorem replace_of_inlined {v v' w : Value} (h : Inlined table v v')
    (htable : ∀ n u x, table n = some u → f n = .ok x → u.replace f = .ok x)
    (hv : v.replace f = .ok w) : v'.replace f = .ok w := by
  match v with
  | .number n =>
    cases h
    exact hv
  | .foreign k =>
    cases h
    exact hv
  | .reference n =>
    cases h with
    | kept => exact hv
    | replaced hu => exact htable n v' w hu hv
  | .dict fs =>
    cases h with
    | dict hfs =>
      obtain ⟨ws, hws, rfl⟩ := replace_dict_eq_ok_iff.mp hv
      exact replace_dict_eq_ok_iff.mpr ⟨ws, replaceFields_of_inlined hfs htable hws, rfl⟩

theorem replaceFields_of_inlined {fs fs' ws : List (Name × Value)}
    (h : InlinedFields table fs fs')
    (htable : ∀ n u x, table n = some u → f n = .ok x → u.replace f = .ok x)
    (hfs : replaceFields f fs = .ok ws) : replaceFields f fs' = .ok ws := by
  match fs with
  | [] =>
    cases h
    exact hfs
  | (k, v) :: fs =>
    cases h with
    | cons hv hrest =>
      obtain ⟨w, rest, hw, hws, rfl⟩ := replaceFields_cons_eq_ok_iff.mp hfs
      exact replaceFields_cons_eq_ok_iff.mpr ⟨w, rest, replace_of_inlined hv htable hw,
        replaceFields_of_inlined hrest htable hws, rfl⟩

end

mutual

/-- A reference is still there, or the references of what it has given way to are. -/
theorem references_of_inlined {v v' : Value} (h : Inlined table v v') {n : Name}
    (hn : n ∈ v.references) :
    n ∈ v'.references ∨ ∃ w, table n = some w ∧ w.references ⊆ v'.references := by
  match v with
  | .number m => cases hn
  | .foreign k => cases hn
  | .reference m =>
    cases List.mem_singleton.mp hn
    cases h with
    | kept => exact .inl List.mem_cons_self
    | replaced hw => exact .inr ⟨v', hw, List.Subset.refl _⟩
  | .dict fs =>
    cases h with
    | dict hfs => exact referencesOfFields_of_inlined hfs hn

theorem referencesOfFields_of_inlined {fs fs' : List (Name × Value)}
    (h : InlinedFields table fs fs') {n : Name} (hn : n ∈ referencesOfFields fs) :
    n ∈ referencesOfFields fs' ∨
      ∃ w, table n = some w ∧ w.references ⊆ referencesOfFields fs' := by
  match fs with
  | [] => cases hn
  | (k, v) :: fs =>
    cases h with
    | cons hv hrest =>
      rw [referencesOfFields, List.mem_append] at hn ⊢
      rcases hn with hn | hn
      · rcases references_of_inlined hv hn with hn | ⟨w, hw, hsub⟩
        · exact .inl (.inl hn)
        · exact .inr ⟨w, hw, List.subset_append_of_subset_left _ hsub⟩
      · rcases referencesOfFields_of_inlined hrest hn with hn | ⟨w, hw, hsub⟩
        · exact .inl (.inr hn)
        · exact .inr ⟨w, hw, List.subset_append_of_subset_right _ hsub⟩

end

mutual

/-- Foreign values stay. -/
theorem foreignKinds_subset_of_inlined {v v' : Value} (h : Inlined table v v') :
    v.foreignKinds ⊆ v'.foreignKinds := by
  match v with
  | .number m => exact List.nil_subset _
  | .foreign k =>
    cases h
    exact List.Subset.refl _
  | .reference m => exact List.nil_subset _
  | .dict fs =>
    cases h with
    | dict hfs => exact foreignKindsOfFields_subset_of_inlined hfs

theorem foreignKindsOfFields_subset_of_inlined {fs fs' : List (Name × Value)}
    (h : InlinedFields table fs fs') : foreignKindsOfFields fs ⊆ foreignKindsOfFields fs' := by
  match fs with
  | [] => exact List.nil_subset _
  | (k, v) :: fs =>
    cases h with
    | cons hv hrest =>
      exact List.append_subset.mpr
        ⟨List.subset_append_of_subset_left _ (foreignKinds_subset_of_inlined hv),
          List.subset_append_of_subset_right _ (foreignKindsOfFields_subset_of_inlined hrest)⟩

end

end Value

/-! ### Settled values -/

namespace Settled

variable {env env' c : Environment} {table : Name → Option Value} {n : Name} {raw v : Value}

/-- The raw value of a settled name is replaced by its value. -/
theorem replace_eq (h : Settled env c) (hn : c.get? n = some v) (hraw : env.get? n = some raw) :
    raw.replace c.valueOf = .ok v := by
  obtain ⟨before, rest, rfl⟩ := List.append_of_mem (Entries.mem_of_get? hn)
  obtain ⟨-, raw', hraw', hv⟩ := h.of_eq_append rfl
  cases hraw.symm.trans hraw'
  refine Value.replace_mono hv fun m _ u hu => ?_
  exact Environment.valueOf_eq_ok_iff.mpr
    (Entries.get?_append_of_some (Environment.valueOf_eq_ok_iff.mp hu) _)

/-- Values that are settled stay settled when references give way to values that are replaced by
the values of their names. -/
theorem inlined (h : Settled env c) (henv : Value.InlinedFields table env env')
    (htable : ∀ n u, table n = some u → ∀ c x, Settled env c → c.get? n = some x →
      u.replace c.valueOf = .ok x) : Settled env' c := by
  induction h with
  | nil => exact .nil
  | snoc hs hn hraw hv ih =>
    obtain ⟨raw', hraw', hinlined⟩ := henv.exists_get? hraw
    refine .snoc ih hn hraw' (Value.replace_of_inlined hinlined (fun n u x hu hx => ?_) hv)
    exact htable n u hu _ x hs (Environment.valueOf_eq_ok_iff.mp hx)

/-- Where every binding has a settled value, the environment resolves to these values. -/
theorem exists_resolve (h : Settled env c) (hkeys : ∀ n ∈ env.keys, n ∈ c.keys) :
    ∃ c', resolve env = .ok c' ∧ c.Perm c' := by
  have hmean : ∀ n ∈ env.keys, ∃ v, c.get? n = some v ∧ Substitution.name env [] n = .ok v := by
    intro n hn
    obtain ⟨v, hv⟩ := Entries.exists_get?_of_mem_keys (hkeys n hn)
    exact ⟨v, hv, h.name_eq hv (by simp)⟩
  obtain ⟨c', hc'⟩ := exists_resolve_iff.mpr fun n hn => (hmean n hn).imp fun _ hv => hv.2
  refine ⟨c', hc', Entries.perm_of_get?_eq h.nodup_keys (settled_resolve hc').1.nodup_keys ?_⟩
  intro n
  refine Option.ext fun v => ?_
  rw [get?_resolve hc']
  constructor
  · intro hv
    obtain ⟨raw, hraw⟩ := h.isBound (Entries.mem_keys_of_get? hv)
    exact ⟨Entries.mem_keys_of_get? hraw, h.name_eq hv (by simp)⟩
  · rintro ⟨hn, hv⟩
    obtain ⟨w, hw, hname⟩ := hmean n hn
    rw [hw, Except.ok.inj (hname.symm.trans hv)]

/-- No way through the references from a settled name is endless. -/
theorem acc (h : Settled env c) (hn : n ∈ c.keys) : Acc (fun b a => env.Refers a b) n := by
  induction h generalizing n with
  | nil => cases hn
  | @snoc c k raw w _ _ hraw hw ih =>
    rw [Entries.keys_append, List.mem_append] at hn
    rcases hn with hn | hn
    · exact ih hn
    · -- the entry came last: what it refers to is settled without it
      cases List.mem_singleton.mp hn
      constructor
      rintro m ⟨raw', hraw', hm⟩
      cases hraw.symm.trans hraw'
      obtain ⟨u, hu⟩ := (Value.exists_replace_iff.mp ⟨w, hw⟩).2 m hm
      exact ih (Entries.mem_keys_of_get? (Environment.valueOf_eq_ok_iff.mp hu))

end Settled

/-! ### The graph of references -/

section

variable {env env' : Environment} {n m : Name}

/-- What a name refers to, it still refers to, or it refers to all that this one referred to. -/
theorem refers_of_inlined (henv : Value.InlinedFields env.get? env env') (h : env.Refers n m) :
    env'.Refers n m ∨ m ∈ env.keys ∧ ∀ k, env.Refers m k → env'.Refers n k := by
  obtain ⟨raw, hraw, hm⟩ := h
  obtain ⟨raw', hraw', hinlined⟩ := henv.exists_get? hraw
  rcases Value.references_of_inlined hinlined hm with hm | ⟨w, hw, hsub⟩
  · exact .inl ⟨raw', hraw', hm⟩
  · refine .inr ⟨Entries.mem_keys_of_get? hw, ?_⟩
    rintro k ⟨w', hw', hk⟩
    cases hw.symm.trans hw'
    exact ⟨raw', hraw', hsub hk⟩

/-- If no way from a name is endless once raw values have been put in, none was before. -/
theorem acc_of_inlined (henv : Value.InlinedFields env.get? env env')
    (h : Acc (fun b a => env'.Refers a b) n) : Acc (fun b a => env.Refers a b) n := by
  induction h with
  | intro n _ ih =>
    constructor
    intro m hm
    rcases refers_of_inlined henv hm with hm | ⟨-, hsub⟩
    · exact ih m hm
    · -- the way goes on from the name that has given way, and that step is still there
      constructor
      intro k hk
      exact ih k (hsub k hk)

/-- A name from which no way is endless does not lead back to itself. -/
theorem not_leads_back_of_acc (h : Acc (fun b a => env.Refers a b) n) :
    ¬ TransGen env.Refers n n := by
  induction h with
  | intro n _ ih =>
    intro hback
    obtain ⟨m, hnm, hmn⟩ := TransGen.head'_iff.mp hback
    exact ih m hnm (.tail' hmn hnm)

/-- An environment is sound if it is once raw values have been put in. -/
theorem Environment.isSound_of_inlined (henv : Value.InlinedFields env.get? env env')
    {c' : Environment} (h : resolve env' = .ok c') : env.IsSound := by
  obtain ⟨hs, hkeys⟩ := settled_resolve h
  have hsound : env'.IsSound := env'.isSound_iff.mpr (exists_resolve_iff.mp ⟨c', h⟩)
  refine ⟨?_, ?_, ?_⟩
  · intro n raw hraw
    obtain ⟨raw', hraw', hinlined⟩ := henv.exists_get? hraw
    have hsub := Value.foreignKinds_subset_of_inlined hinlined
    rw [hsound.noForeign n raw' hraw'] at hsub
    exact List.subset_nil.mp hsub
  · intro n m hm
    rcases refers_of_inlined henv hm with hm | ⟨hm, -⟩
    · exact henv.keys_eq ▸ hsound.bound n m hm
    · exact hm
  · intro n hn
    have hacc : Acc (fun b a => env'.Refers a b) n := hs.acc ((hkeys n).mpr (henv.keys_eq ▸ hn))
    exact not_leads_back_of_acc (acc_of_inlined henv hacc)

end

/-! ### Whole environments -/

/-- An environment that resolves does so, to the same values, when references give way to values
that are replaced by the values of their names. -/
theorem exists_resolve_of_inlined {env env' c : Environment} {table : Name → Option Value}
    (h : resolve env = .ok c) (henv : Value.InlinedFields table env env')
    (htable : ∀ n u, table n = some u → ∀ c x, Settled env c → c.get? n = some x →
      u.replace c.valueOf = .ok x) :
    ∃ c', resolve env' = .ok c' ∧
      c.Perm c' ∧ ∀ n ∈ env.keys, ∃ v, c.get? n = some v ∧ c'.get? n = some v := by
  obtain ⟨hs, hkeys⟩ := settled_resolve h
  have hs' : Settled env' c := hs.inlined henv htable
  obtain ⟨c', hc', hperm⟩ := hs'.exists_resolve fun n hn => (hkeys n).mpr (henv.keys_eq ▸ hn)
  refine ⟨c', hc', hperm, fun n hn => ?_⟩
  obtain ⟨v, hv⟩ := Entries.exists_get?_of_mem_keys ((hkeys n).mpr hn)
  exact ⟨v, hv, Entries.get?_eq_of_perm hperm hs.nodup_keys n ▸ hv⟩

/-- Where any references to bound names, at any depth, give way to the raw values of these names,
the environment resolves exactly when it did before, and then to the same value for every binding.
Where an environment resolves, any references may give way to resolved values: the environment
that comes of it resolves too, and to the same value for every binding. -/
theorem resolve_inlined (env env' : Environment) :
    (Value.InlinedFields env.get? env env' →
      ((∃ c', resolve env' = .ok c') ↔ ∃ c, resolve env = .ok c) ∧
      ∀ c c', resolve env = .ok c → resolve env' = .ok c' →
        c.Perm c' ∧ ∀ n ∈ env.keys, ∃ v, c.get? n = some v ∧ c'.get? n = some v) ∧
    ∀ c, resolve env = .ok c → Value.InlinedFields c.get? env env' →
      ∃ c', resolve env' = .ok c' ∧
        c.Perm c' ∧ ∀ n ∈ env.keys, ∃ v, c.get? n = some v ∧ c'.get? n = some v := by
  constructor
  · intro henv
    -- the raw value of a name is replaced by its value wherever that is settled
    have hforth := fun c (hc : resolve env = .ok c) =>
      exists_resolve_of_inlined hc henv fun n u hu c x hs hx => hs.replace_eq hx hu
    refine ⟨⟨?_, ?_⟩, ?_⟩
    · rintro ⟨c', hc'⟩
      exact exists_resolve_iff.mpr
        (env.isSound_iff.mp (Environment.isSound_of_inlined henv hc'))
    · rintro ⟨c, hc⟩
      obtain ⟨c', hc', -⟩ := hforth c hc
      exact ⟨c', hc'⟩
    · intro c c' hc hc'
      obtain ⟨c'', hc'', hsame⟩ := hforth c hc
      cases hc'.symm.trans hc''
      exact hsame
  · intro c hc henv
    obtain ⟨hs, -⟩ := settled_resolve hc
    refine exists_resolve_of_inlined hc henv fun n u hu pre x hpre hx => ?_
    -- a resolved value has no references to replace, and a name has one value only
    cases hs.value_unique hpre hu hx
    exact Value.replace_of_isResolved (hs.isResolved hu)

/-- Both references to `b` give way to its raw value, and then `a` is resolved before `b`; or only
the first of them does, to the resolved value. -/
theorem resolve_inlined_twice :
    ∃ env env' env'' c c' c'' : Environment,
      env.get? "a" = some (.dict [("p", .reference "b"), ("q", .reference "b")]) ∧
      env.get? "b" = some (.dict [("r", .reference "c")]) ∧
      env'.get? "a" = some (.dict [("p", .dict [("r", .reference "c")]),
        ("q", .dict [("r", .reference "c")])]) ∧
      env''.get? "a" = some (.dict [("p", .dict [("r", .number ⟨"0x2A", 42⟩)]),
        ("q", .reference "b")]) ∧
      Value.InlinedFields env.get? env env' ∧ Value.InlinedFields c.get? env env'' ∧
      resolve env = .ok c ∧ c.keys = ["c", "b", "a"] ∧
      resolve env' = .ok c' ∧ c'.keys = ["c", "a", "b"] ∧ c.Perm c' ∧
      resolve env'' = .ok c'' ∧ c.Perm c'' := by
  let rest : Environment :=
    [("b", .dict [("r", .reference "c")]), ("c", .number ⟨"0x2A", 42⟩)]
  let env : Environment := ("a", .dict [("p", .reference "b"), ("q", .reference "b")]) :: rest
  let env' : Environment :=
    ("a", .dict [("p", .dict [("r", .reference "c")]), ("q", .dict [("r", .reference "c")])]) ::
      rest
  let env'' : Environment :=
    ("a", .dict [("p", .dict [("r", .number ⟨"0x2A", 42⟩)]), ("q", .reference "b")]) :: rest
  let c : Environment :=
    [("c", .number ⟨"0x2A", 42⟩), ("b", .dict [("r", .number ⟨"0x2A", 42⟩)]),
      ("a", .dict [("p", .dict [("r", .number ⟨"0x2A", 42⟩)]),
        ("q", .dict [("r", .number ⟨"0x2A", 42⟩)])])]
  have hrest : ∀ table, Value.InlinedFields table rest rest := fun _ =>
    .cons (.dict (.cons (.kept "c") .nil)) (.cons (.number _) .nil)
  have henv' : Value.InlinedFields env.get? env env' :=
    .cons (.dict (.cons (.replaced rfl) (.cons (.replaced rfl) .nil))) (hrest _)
  have henv'' : Value.InlinedFields c.get? env env'' :=
    .cons (.dict (.cons (.replaced rfl) (.cons (.kept "b") .nil))) (hrest _)
  have hc : resolve env = .ok c := by
    cbv
  have hc' : resolve env' = .ok [("c", .number ⟨"0x2A", 42⟩),
      ("a", .dict [("p", .dict [("r", .number ⟨"0x2A", 42⟩)]),
        ("q", .dict [("r", .number ⟨"0x2A", 42⟩)])]),
      ("b", .dict [("r", .number ⟨"0x2A", 42⟩)])] := by
    cbv
  obtain ⟨-, hsame⟩ := (resolve_inlined env env').1 henv'
  obtain ⟨c'', hc'', hperm'', -⟩ := (resolve_inlined env env'').2 c hc henv''
  exact ⟨env, env', env'', c, _, c'', rfl, rfl, rfl, rfl, henv', henv'', hc, rfl, hc', rfl,
    (hsame _ _ hc hc').1, hc'', hperm''⟩

end HexDoc
