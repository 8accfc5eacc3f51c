/-
HexDoc/Proofs/Resolution/Success.lean

When resolving succeeds, read off the graph of references.  A name means something below a path
exactly when every name that it leads to, itself included, is bound, is not on the path, has no
foreign value in its raw value and does not lead back to itself (`Substitution.exists_name_iff`).

From left to right, a name that means something makes every name on the way mean something below
a longer path, so a way back to a name would meet it on its own path.  From right to left,
a way that never returns leaves fewer unvisited names with each step.

Main statement: the same for resolvers, and for whole environments (`resolve_succeeds_iff`).
-/
import HexDoc.Proofs.Resolution.Meaning
import Mathlib.Logic.Relation

namespace HexDoc

open Relation

/-! ### What a name leads to -/

namespace Substitution

variable {env : Environment} {path : List Name} {n m : Name}

/-- A name that means something is bound and not on the path, its raw value has no foreign
value, and the names that it refers to mean something below the path extended by it. -/
theorem exists_name_iff_step :
    (∃ v, name env path n = .ok v) ↔
      (∃ raw, env.get? n = some raw ∧ raw.foreignKinds = []) ∧ n ∉ path ∧
        ∀ m, env.Refers n m → ∃ u, name env (n :: path) m = .ok u := by
  constructor
  · rintro ⟨v, hv⟩
    obtain ⟨raw, hraw, hp, hr⟩ := name_eq_ok_iff.mp hv
    obtain ⟨hk, hrefs⟩ := Value.exists_replace_iff.mp ⟨v, hr⟩
    refine ⟨⟨raw, hraw, hk⟩, hp, ?_⟩
    rintro m ⟨raw', hraw', hm⟩
    cases hraw.symm.trans hraw'
    exact hrefs m hm
  · rintro ⟨⟨raw, hraw, hk⟩, hp, hrefs⟩
    obtain ⟨v, hv⟩ := Value.exists_replace_iff.mpr ⟨hk, fun m hm => hrefs m ⟨raw, hraw, hm⟩⟩
    exact ⟨v, name_eq_ok_iff.mpr ⟨raw, hraw, hp, hv⟩⟩

/-- Where a name means something, so does every name that it leads to, below a path that has
only become longer. -/
theorem exists_name_of_leads (h : ReflTransGen env.Refers n m)
    (hn : ∃ v, name env path n = .ok v) :
    ∃ longer, path ⊆ longer ∧ ∃ u, name env longer m = .ok u := by
  induction h using ReflTransGen.head_induction_on generalizing path with
  | refl => exact ⟨path, fun _ hk => hk, hn⟩
  | head hab _ ih =>
    obtain ⟨-, -, hrefs⟩ := exists_name_iff_step.mp hn
    obtain ⟨longer, hsub, hm⟩ := ih (hrefs _ hab)
    exact ⟨longer, fun k hk => hsub (List.mem_cons_of_mem _ hk), hm⟩

/-- A name that means something does not lead back to itself: on the way back it would stand on
its own path. -/
theorem not_leads_back (hn : ∃ v, name env path n = .ok v) : ¬ TransGen env.Refers n n := by
  intro hback
  obtain ⟨m, hnm, hmn⟩ := TransGen.head'_iff.mp hback
  obtain ⟨-, -, hrefs⟩ := exists_name_iff_step.mp hn
  obtain ⟨longer, hsub, hagain⟩ := exists_name_of_leads hmn (hrefs m hnm)
  obtain ⟨-, hlonger, -⟩ := exists_name_iff_step.mp hagain
  exact hlonger (hsub List.mem_cons_self)

/-- Whether a name means something is a matter of the names that it leads to. -/
theorem exists_name_iff :
    (∃ v, name env path n = .ok v) ↔
      ∀ m, ReflTransGen env.Refers n m →
        (∃ raw, env.get? m = some raw ∧ raw.foreignKinds = []) ∧ m ∉ path ∧
          ¬ TransGen env.Refers m m := by
  constructor
  · intro hn m hnm
    obtain ⟨longer, hsub, hm⟩ := exists_name_of_leads hnm hn
    obtain ⟨hbound, hlonger, -⟩ := exists_name_iff_step.mp hm
    exact ⟨hbound, fun hp => hlonger (hsub hp), not_leads_back hm⟩
  · induction path, n using path_induction env with
    | step path n ih =>
      intro hall
      obtain ⟨⟨raw, hraw, hk⟩, hp, hback⟩ := hall n .refl
      refine exists_name_iff_step.mpr ⟨⟨raw, hraw, hk⟩, hp, ?_⟩
      rintro m ⟨raw', hraw', hm⟩
      apply ih raw' hraw' hp m hm
      intro k hmk
      obtain ⟨hbound, hkp, hkback⟩ := hall k (.head ⟨raw', hraw', hm⟩ hmk)
      refine ⟨hbound, ?_, hkback⟩
      -- the name itself comes back only on a cycle
      intro hmem
      rcases List.mem_cons.mp hmem with rfl | hmem
      · exact hback (TransGen.head' ⟨raw', hraw', hm⟩ hmk)
      · exact hkp hmem

end Substitution

/-! ### Whole environments -/

/-- An environment without foreign values, unbound references and cycles. -/
structure Environment.IsSound (env : Environment) : Prop where
  /-- No raw value has a foreign value in it. -/
  noForeign : ∀ n raw, env.get? n = some raw → raw.foreignKinds = []
  /-- Every reference names a binding. -/
  bound : ∀ n m, env.Refers n m → m ∈ env.keys
  /-- No binding leads back to itself by one or more references. -/
  acyclic : ∀ n ∈ env.keys, ¬ TransGen env.Refers n n

/-- Every binding means something exactly in a sound environment. -/
theorem Environment.isSound_iff (env : Environment) :
    env.IsSound ↔ ∀ n ∈ env.keys, ∃ v, Substitution.name env [] n = .ok v := by
  constructor
  · intro h n hn
    apply Substitution.exists_name_iff.mpr
    intro m hnm
    have hm : m ∈ env.keys := by
      induction hnm with
      | refl => exact hn
      | tail _ hbc _ => exact h.bound _ _ hbc
    obtain ⟨raw, hraw⟩ := Entries.exists_get?_of_mem_keys hm
    exact ⟨⟨raw, hraw, h.noForeign m raw hraw⟩, by simp, h.acyclic m hm⟩
  · intro h
    refine ⟨?_, ?_, ?_⟩
    · intro n raw hraw
      have hn := h n (Entries.mem_keys_of_get? hraw)
      obtain ⟨⟨raw', hraw', hk⟩, -⟩ := Substitution.exists_name_iff.mp hn n .refl
      cases hraw.symm.trans hraw'
      exact hk
    · intro n m hnm
      have hn : n ∈ env.keys := by
        obtain ⟨raw, hraw, -⟩ := hnm
        exact Entries.mem_keys_of_get? hraw
      obtain ⟨⟨raw, hraw, -⟩, -⟩ := Substitution.exists_name_iff.mp (h n hn) m (.single hnm)
      exact Entries.mem_keys_of_get? hraw
    · intro n hn
      exact Substitution.not_leads_back (h n hn)

/-- Plain substitution of all bindings succeeds when each of them means something. -/
theorem Substitution.exists_names_iff {env : Environment} {ns : List Name} :
    (∃ s, environment.names env ns = .ok s) ↔ ∀ n ∈ ns, ∃ v, name env [] n = .ok v := by
  induction ns with
  | nil => simp [environment.names]
  | cons n ns ih =>
    rw [List.forall_mem_cons, ← ih, environment.names]
    rcases name env [] n with e | v
    · simp
    · simp [Outcome.exists_map_eq_ok_iff]

theorem exists_resolve_iff_substitution {env : Environment} :
    (∃ r, resolve env = .ok r) ↔ ∃ s, Substitution.environment env = .ok s :=
  Outcome.exists_ok_iff_of_error_iff
    (Resolver.result_names (r := .ofEnvironment env) .nil env.keys).1

/-- Whether an environment can be resolved is a matter of the meaning of its names. -/
theorem exists_resolve_iff {env : Environment} :
    (∃ c, resolve env = .ok c) ↔ ∀ n ∈ env.keys, ∃ v, Substitution.name env [] n = .ok v := by
  rw [exists_resolve_iff_substitution]
  exact Substitution.exists_names_iff

/-- Resolving an environment succeeds exactly when it is sound, and a fresh resolver answers for
a name exactly when every name that it leads to is bound, not under way, free of foreign values
and on no cycle. -/
theorem resolve_succeeds_iff (env : Environment) :
    ((∃ r, resolve env = .ok r) ↔ env.IsSound) ∧
    ∀ n underWay, (∃ v, ((Resolver.ofEnvironment env).name n underWay).result = .ok v) ↔
      ∀ m, ReflTransGen env.Refers n m →
        (∃ raw, env.get? m = some raw ∧ raw.foreignKinds = []) ∧ m ∉ underWay ∧
          ¬ TransGen env.Refers m m := by
  constructor
  · rw [exists_resolve_iff_substitution, env.isSound_iff]
    exact Substitution.exists_names_iff
  · intro n underWay
    rw [Resolver.result_name_ofEnvironment]
    exact Substitution.exists_name_iff

end HexDoc
