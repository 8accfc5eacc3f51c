/-
HexDoc/Proofs/Resolution/Errors.lean

Where the errors of a resolution come from.  A replacement fails at a foreign value of the value
itself or with the error of a name that it refers to (`Value.error_of_replace`), so following the
references from a failure ends at a binding that is at fault: it refers to a name that is not bound,
it refers to a name that leads back to itself, or it has a foreign value
(`Substitution.exists_atFault`).  That only membership of the path is looked at does not matter, for
every name on the path leads to the name at hand.

Names that are resolved one after the other fail at the first that fails on its own, with the values
of those before it kept (`Resolver.exists_of_names_error`).

Main statement: the error of resolving all bindings tells the truth about a binding that the first
failing one leads to (`first_error_has_fault`).
-/
import HexDoc.Proofs.Resolution.History
import Mathlib.Logic.Relation

namespace HexDoc

open Relation

/-! ### One layer of replacement -/

namespace Value

variable {f : Name → Except ResolveError Value} {e : ResolveError}

mutual

/-- A replacement fails at a foreign value or with the error of a name referred to. -/
theorem error_of_replace {v : Value} (h : v.replace f = .error e) :
    (∃ k ∈ v.foreignKinds, e = .foreign k) ∨ ∃ n ∈ v.references, f n = .error e := by
  match v with
  | .number n => cases h
  | .foreign k =>
    cases h
    exact .inl ⟨k, by simp [foreignKinds], rfl⟩
  | .reference n => exact .inr ⟨n, by simp [references], h⟩
  | .dict fs =>
    rw [replace, Outcome.map_eq_error_iff] at h
    simpa only [foreignKinds, references] using error_of_replaceFields h

theorem error_of_replaceFields {fs : List (Name × Value)} (h : replaceFields f fs = .error e) :
    (∃ k ∈ foreignKindsOfFields fs, e = .foreign k) ∨
      ∃ n ∈ referencesOfFields fs, f n = .error e := by
  match fs with
  | [] => cases h
  | (k, v) :: fs =>
    simp only [foreignKindsOfFields, referencesOfFields, List.mem_append]
    rcases hv : v.replace f with e' | v'
    · -- the first field fails
      simp only [replaceFields, hv] at h
      cases h
      rcases error_of_replace hv with ⟨k', hk, he⟩ | ⟨n, hn, he⟩
      · exact .inl ⟨k', .inl hk, he⟩
      · exact .inr ⟨n, .inl hn, he⟩
    · simp only [replaceFields, hv, Outcome.map_eq_error_iff] at h
      rcases error_of_replaceFields h with ⟨k', hk, he⟩ | ⟨n, hn, he⟩
      · exact .inl ⟨k', .inr hk, he⟩
      · exact .inr ⟨n, .inr hn, he⟩

end

end Value

/-! ### All the way down -/

/-- Whether the binding of a name is at fault for an error: it refers to a name that is not bound,
or to a bound name that leads back to itself, or it has a foreign value of that kind. -/
def Environment.AtFault (env : Environment) (m : Name) : ResolveError → Prop
  | .unknown n => n ∉ env.keys ∧ env.Refers m n
  | .cyclic n => n ∈ env.keys ∧ TransGen env.Refers n n ∧ env.Refers m n
  | .foreign k => ∃ raw, env.get? m = some raw ∧ k ∈ raw.foreignKinds

namespace Substitution

variable {env : Environment}

/-- Where a bound name means nothing below a path of names that lead to it, it leads to a binding
at fault. -/
theorem exists_atFault {path : List Name} {n : Name} {raw : Value} {e : ResolveError}
    (hraw : env.get? n = some raw) (hnew : n ∉ path) (hpath : ∀ a ∈ path, TransGen env.Refers a n)
    (h : name env path n = .error e) : ∃ m, ReflTransGen env.Refers n m ∧ env.AtFault m e := by
  induction path, n using path_induction env generalizing raw with
  | step path n ih =>
    rw [name_of_bound hraw hnew] at h
    rcases Value.error_of_replace h with ⟨k, hk, rfl⟩ | ⟨k, hk, hmean⟩
    · exact ⟨n, .refl, raw, hraw, hk⟩
    · have hrefers : env.Refers n k := ⟨raw, hraw, hk⟩
      have hleads : ∀ a ∈ n :: path, TransGen env.Refers a k := by
        intro a ha
        rcases List.mem_cons.mp ha with rfl | ha
        · exact .single hrefers
        · exact .tail (hpath a ha) hrefers
      rcases hbound : env.get? k with - | raw'
      · rw [name_of_unknown hbound] at hmean
        cases hmean
        exact ⟨n, .refl, Entries.get?_eq_none_iff.mp hbound, hrefers⟩
      · by_cases hk' : k ∈ n :: path
        · rw [name_of_cyclic hbound hk'] at hmean
          cases hmean
          exact ⟨n, .refl, Entries.mem_keys_of_get? hbound, hleads k hk', hrefers⟩
        · obtain ⟨m, hkm, hm⟩ := ih raw hraw hnew k hk hbound hk' hleads hmean
          exact ⟨m, .head hrefers hkm, hm⟩

end Substitution

/-! ### Names one after the other -/

namespace Resolver

variable {r : Resolver}

/-- Names fail at one of them, which means nothing; those before it have got values. -/
theorem exists_of_names_error (hs : Settled r.env r.values) {ns : List Name} {e : ResolveError}
    (h : (r.names ns).result = .error e) :
    ∃ before n rest, ns = before ++ n :: rest ∧ Substitution.name r.env [] n = .error e ∧
      ∀ m ∈ before, m ∈ (r.names ns).resolver.values.keys := by
  induction ns generalizing r with
  | nil => cases h
  | cons n ns ih =>
    have hadds := r.adds_name n []
    rcases hn : (r.name n []).result with e' | v
    · rw [names_cons_of_error hn] at h
      cases h
      exact ⟨[], n, ns, rfl, (result_name hs n).symm.trans hn, by simp⟩
    · rw [names_cons_of_ok hn] at h ⊢
      obtain ⟨before, m, rest, rfl, hm, hbefore⟩ := ih (hadds.settled_resolver hs) h
      refine ⟨n :: before, m, rest, rfl, hadds.env ▸ hm, List.forall_mem_cons.mpr ⟨?_, hbefore⟩⟩
      -- the value of the first name is still there after the others
      exact Entries.mem_keys_of_get?
        (((r.name n []).resolver.adds_names _).get?_eq_some (get?_of_name hn))

/-- Where not all bindings are answered, the error is that of the first of them that means nothing,
and it leads to a binding at fault. -/
theorem exists_atFault (hs : Settled r.env r.values) {e : ResolveError}
    (h : r.all.result = .error e) :
    ∃ before first rest m, r.env.keys = before ++ first :: rest ∧
      (∀ k ∈ before, k ∈ r.all.resolver.values.keys) ∧
      Substitution.name r.env [] first = .error e ∧
      ReflTransGen r.env.Refers first m ∧ r.env.AtFault m e := by
  obtain ⟨before, first, rest, hkeys, hfirst, hbefore⟩ := exists_of_names_error hs h
  have hmem : first ∈ r.env.keys := hkeys ▸ List.mem_append_right _ List.mem_cons_self
  obtain ⟨raw, hraw⟩ := Entries.exists_get?_of_mem_keys hmem
  obtain ⟨m, hleads, hm⟩ := Substitution.exists_atFault hraw List.not_mem_nil (by simp) hfirst
  exact ⟨before, first, rest, m, hkeys, hbefore, hfirst, hleads, hm⟩

end Resolver

/-! ### Whole environments -/

/-- Where an environment cannot be resolved, some binding is at fault. -/
theorem exists_atFault_of_resolve {env : Environment} {e : ResolveError}
    (h : resolve env = .error e) : ∃ m, env.AtFault m e := by
  obtain ⟨-, -, -, m, -, -, -, -, hm⟩ :=
    Resolver.exists_atFault (r := .ofEnvironment env) .nil h
  exact ⟨m, hm⟩

/-- Where a resolver fails to resolve all bindings, whatever it has been asked before, there is a
first binding for which a fresh resolver fails; it does so with the same error, and it leads to a
binding at fault: one that refers to a name that is not bound, or to a bound name that leads back
to itself by one or more references, or that has a foreign value, just as the error says.  All
bindings in front of that first one have their values. -/
theorem first_error_has_fault {env : Environment} {qs : List Question} {e : ResolveError}
    (h : (History.after env qs).resolver.all.result = .error e) :
    ∃ before first rest m, env.keys = before ++ first :: rest ∧
      (∀ k ∈ before, (∃ v, ((Resolver.ofEnvironment env).name k []).result = .ok v) ∧
        k ∈ (History.after env qs).resolver.all.resolver.values.keys) ∧
      ((Resolver.ofEnvironment env).name first []).result = .error e ∧
      ReflTransGen env.Refers first m ∧ env.AtFault m e := by
  obtain ⟨henv, hs, -⟩ := History.keeps_after env qs
  generalize (History.after env qs).resolver = r at h henv hs
  subst henv
  obtain ⟨before, first, rest, m, hkeys, hbefore, hfirst, hleads, hm⟩ :=
    Resolver.exists_atFault hs h
  have hafter : Settled r.env r.all.resolver.values := (r.adds_names r.env.keys).settled hs
  refine ⟨before, first, rest, m, hkeys, ?_, ?_, hleads, hm⟩
  · intro k hk
    obtain ⟨v, hv⟩ := Entries.exists_get?_of_mem_keys (hbefore k hk)
    refine ⟨⟨v, ?_⟩, hbefore k hk⟩
    rw [Resolver.result_name_ofEnvironment]
    exact hafter.name_eq hv (by simp)
  · rw [Resolver.result_name_ofEnvironment]
    exact hfirst

/-- Here `a` can be resolved, `b` leads into a cycle, and the cycle is found where `d` refers back
to `c`. -/
theorem first_error_has_fault_cycle :
    let env : Environment :=
      [("a", .number ⟨"0x1", 1⟩), ("b", .dict [("p", .reference "a"), ("q", .reference "c")]),
        ("c", .reference "d"), ("d", .dict [("back", .reference "c")])]
    (History.after env [.name "d" ["z"]]).resolver.all.result = .error (.cyclic "c") ∧
      TransGen env.Refers "c" "c" := by
  intro env
  have h : (History.after env [.name "d" ["z"]]).resolver.all.result = .error (.cyclic "c") := by
    cbv
  obtain ⟨before, first, rest, m, -, -, -, -, -, hcycle, -⟩ := first_error_has_fault h
  exact ⟨h, hcycle⟩

end HexDoc
