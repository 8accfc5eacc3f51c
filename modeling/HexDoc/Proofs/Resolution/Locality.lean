/-
HexDoc/Proofs/Resolution/Locality.lean

What a question about one name depends on.  A resolver looks a name up, then the names in its raw
value, and so on; it never sees a binding that the references do not lead to.  So in environments
that agree on what a name leads to (`Environment.AgreesFrom`), the recursion makes the same calls,
finds and files the same values and fails at the same place (`Recursion.congr`), whatever is on the
ledger when it starts.

Main statement: a fresh resolver answers for a name alike in two such environments, with the same
values completed in the same order (`name_of_agreesFrom`).
-/
import HexDoc.Proofs.Resolution.Machine
import HexDoc.Value.References
import Mathlib.Logic.Relation

namespace HexDoc

open Relation

/-- Two environments agree on what a name leads to: each name that it leads to in the first one,
itself included, has the same raw value in both, or is bound in neither. -/
def Environment.AgreesFrom (env env' : Environment) (n : Name) : Prop :=
  ∀ m, ReflTransGen env.Refers n m → env.get? m = env'.get? m

namespace Environment.AgreesFrom

variable {env env' : Environment} {n m : Name} {raw : Value}

theorem get?_eq (h : env.AgreesFrom env' n) : env.get? n = env'.get? n :=
  h n .refl

/-- What a name refers to leads to nothing that the name does not lead to. -/
theorem of_mem_references (h : env.AgreesFrom env' n) (hraw : env.get? n = some raw)
    (hm : m ∈ raw.references) : env.AgreesFrom env' m :=
  fun k hk => h k (.head ⟨raw, hraw, hm⟩ hk)

/-- Environments agree on what a name leads to if they have the same raw values for some names that
are closed under references. -/
theorem of_closed (ns : List Name) (hn : n ∈ ns) (heq : ∀ k ∈ ns, env.get? k = env'.get? k)
    (hclosed : ∀ k ∈ ns, ∀ raw, env.get? k = some raw → raw.references ⊆ ns) :
    env.AgreesFrom env' n := by
  intro m hm
  apply heq
  induction hm with
  | refl => exact hn
  | tail _ hab ih =>
    obtain ⟨raw, hraw, hb⟩ := hab
    exact hclosed _ ih raw hraw hb

end Environment.AgreesFrom

/-! ### Calls of the recursion -/

namespace Recursion

/-- A call comes to the same, on every ledger, in environments that agree on what it leads to. -/
theorem congr (env env' : Environment) :
    (∀ l n, env.AgreesFrom env' n → name env l n = name env' l n) ∧
    (∀ l v, (∀ m ∈ v.references, env.AgreesFrom env' m) → value env l v = value env' l v) ∧
    (∀ l fs, (∀ m ∈ Value.referencesOfFields fs, env.AgreesFrom env' m) →
      fields env l fs = fields env' l fs) := by
  apply induct env
  case found =>
    intro l n v hv h
    rw [name_of_found hv, name_of_found hv]
  case unknown =>
    intro l n hv hn h
    rw [name_of_unknown hv hn, name_of_unknown hv (h.get?_eq ▸ hn)]
  case cyclic =>
    intro l n raw hv hn hp h
    rw [name_of_cyclic hv hn hp, name_of_cyclic hv (h.get?_eq ▸ hn) hp]
  case failed =>
    intro l n raw e l' hv hn hp hc ih h
    have hc' : value env' (l.enter n) raw = (.error e, l') :=
      (ih fun m hm => h.of_mem_references hn hm).symm.trans hc
    rw [name_of_error hv hn hp hc, name_of_error hv (h.get?_eq ▸ hn) hp hc']
  case filed =>
    intro l n raw v l' hv hn hp hc ih h
    have hc' : value env' (l.enter n) raw = (.ok v, l') :=
      (ih fun m hm => h.of_mem_references hn hm).symm.trans hc
    rw [name_of_ok hv hn hp hc, name_of_ok hv (h.get?_eq ▸ hn) hp hc']
  case number =>
    intro l m h
    rw [value_number, value_number]
  case foreign =>
    intro l k h
    rw [value_foreign, value_foreign]
  case reference =>
    intro l n ih h
    rw [value_reference, value_reference, ih (h n (by simp [Value.references]))]
  case dict =>
    intro l fs ih h
    rw [value_dict, value_dict, ih (by simpa [Value.references] using h)]
  case nil =>
    intro l h
    rw [fields_nil, fields_nil]
  case stopped =>
    intro l k v fs e l' hc ih h
    simp only [Value.referencesOfFields, List.mem_append] at h
    have hc' : value env' l v = (.error e, l') := (ih fun m hm => h m (.inl hm)).symm.trans hc
    rw [fields_cons_of_error hc, fields_cons_of_error hc']
  case cons =>
    -- the other fields are resolved with what the first one has left, which is the same
    intro l k v fs v' l' hc ih ihs h
    simp only [Value.referencesOfFields, List.mem_append] at h
    have hc' : value env' l v = (.ok v', l') := (ih fun m hm => h m (.inl hm)).symm.trans hc
    rw [fields_cons_of_ok hc, fields_cons_of_ok hc', ihs fun m hm => h m (.inr hm)]

end Recursion

/-! ### What a resolver answers -/

/-- For a name, fresh resolvers of environments that agree on what the name leads to give the same
value or the same error, note the same names as resolved, in the same order, and complete the same
values.  How other names are bound, and whether they are, never matters. -/
theorem name_of_agreesFrom {env env' : Environment} {n : Name} (h : env.AgreesFrom env' n)
    (underWay : List Name) :
    let a := (Resolver.ofEnvironment env).name n underWay
    let b := (Resolver.ofEnvironment env').name n underWay
    a.result = b.result ∧ Event.resolvedNames a.events = Event.resolvedNames b.events ∧
      a.resolver.values = b.resolver.values ∧ a.events = b.events ∧ a.underWay = b.underWay := by
  intro a b
  have hcall := (Recursion.congr env env').1 ⟨[], underWay, []⟩ n h
  have ha : a = (Resolver.ofEnvironment env).ofCall (Recursion.name env ⟨[], underWay, []⟩ n) :=
    Resolver.name_eq _ n underWay
  have hb : b = (Resolver.ofEnvironment env').ofCall (Recursion.name env ⟨[], underWay, []⟩ n) := by
    rw [hcall]
    exact Resolver.name_eq _ n underWay
  rw [ha, hb]
  exact ⟨rfl, rfl, rfl, rfl, rfl⟩

/-- The first environment has a binding that refers to itself beside what `a` leads to, the second
one a foreign value and a reference to a name that is not bound. -/
theorem name_of_agreesFrom_shared :
    ∃ env env' : Environment, env.AgreesFrom env' "a" ∧
      resolve env = .error (.cyclic "c") ∧ resolve env' = .error (.foreign "int") ∧
      ((Resolver.ofEnvironment env).name "a" []).result = .ok (.dict [("p", .number ⟨"0x2A", 42⟩),
        ("q", .number ⟨"0x2A", 42⟩)]) ∧
      ((Resolver.ofEnvironment env').name "a" []).result = .ok (.dict [("p", .number ⟨"0x2A", 42⟩),
        ("q", .number ⟨"0x2A", 42⟩)]) ∧
      Event.resolvedNames ((Resolver.ofEnvironment env').name "a" []).events = ["b", "a"] := by
  let shared : Environment :=
    [("a", .dict [("p", .reference "b"), ("q", .reference "b")]), ("b", .number ⟨"0x2A", 42⟩)]
  let env : Environment := ("c", .reference "c") :: shared
  let env' : Environment := shared ++ [("c", .foreign "int"), ("d", .reference "x")]
  have hagree : env.AgreesFrom env' "a" := by
    refine .of_closed ["a", "b"] List.mem_cons_self ?_ ?_
    · exact List.forall_mem_cons.mpr ⟨rfl, List.forall_mem_singleton.mpr rfl⟩
    · refine List.forall_mem_cons.mpr ⟨?_, List.forall_mem_singleton.mpr ?_⟩ <;>
      · rintro raw ⟨⟩
        simp [Value.references, Value.referencesOfFields]
  have hresult : ((Resolver.ofEnvironment env).name "a" []).result =
      .ok (.dict [("p", .number ⟨"0x2A", 42⟩), ("q", .number ⟨"0x2A", 42⟩)]) := by
    cbv
  have hevents : Event.resolvedNames ((Resolver.ofEnvironment env).name "a" []).events =
      ["b", "a"] := by
    cbv
  obtain ⟨hsame, hnames, -⟩ := name_of_agreesFrom hagree []
  exact ⟨env, env', hagree, by cbv, by cbv, hresult,
    hsame.symm.trans hresult, hnames.symm.trans hevents⟩

end HexDoc
