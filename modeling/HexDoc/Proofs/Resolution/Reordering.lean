/-
HexDoc/Proofs/Resolution/Reordering.lean

Bindings in another order.  Resolving takes bindings in the order in which they are declared, and
fills its values in quite another order if that changes.  But what a name means depends on the
bindings that it leads to, and on where they stand not at all (`Substitution.name_congr`); whether
resolving succeeds, and with which values, is a matter of these meanings.

Main statement: environments with the same bindings in any two orders resolve together, to the same
values in some order (`resolve_perm`).
-/
import HexDoc.Proofs.Resolution.Errors
import HexDoc.Proofs.Resolution.Success
import Mathlib.Data.List.Nodup

namespace HexDoc

open Relation

/-! ### Entries in another order -/

namespace Entries

variable {κ α : Type} [DecidableEq κ] {es fs : Entries κ α}

/-- The order of entries does not matter to a look-up. -/
theorem get?_eq_of_perm (h : es.Perm fs) (hkeys : (keys es).Nodup) (k : κ) :
    get? es k = get? fs k := by
  have hkeys' : (keys fs).Nodup := (h.map Prod.fst).nodup_iff.mp hkeys
  refine Option.ext fun v => ?_
  rw [← mem_iff_get? hkeys, ← mem_iff_get? hkeys']
  exact h.mem_iff

/-- Entries with the same look-ups are the same, in some order. -/
theorem perm_of_get?_eq (hes : (keys es).Nodup) (hfs : (keys fs).Nodup)
    (h : ∀ k, get? es k = get? fs k) : es.Perm fs := by
  refine (List.perm_ext_iff_of_nodup (hes.of_map Prod.fst) (hfs.of_map Prod.fst)).mpr ?_
  rintro ⟨k, v⟩
  rw [mem_iff_get? hes, mem_iff_get? hfs, h k]

end Entries

/-! ### What a name means -/

/-- What a name means is the same in environments that agree on every name it leads to. -/
theorem Substitution.name_congr {env env' : Environment} {path : List Name} {n : Name}
    (h : ∀ m, ReflTransGen env.Refers n m → env.get? m = env'.get? m) :
    name env path n = name env' path n := by
  induction path, n using path_induction env with
  | step path n ih =>
    have hn := h n .refl
    rcases hraw : env.get? n with - | raw
    · rw [name_of_unknown hraw, name_of_unknown (hn ▸ hraw)]
    · by_cases hp : n ∈ path
      · rw [name_of_cyclic hraw hp, name_of_cyclic (hn ▸ hraw) hp]
      · rw [name_of_bound hraw hp, name_of_bound (hn ▸ hraw) hp]
        apply Value.replace_congr
        intro m hm
        exact ih raw hraw hp m hm fun k hk => h k (.head ⟨raw, hraw, hm⟩ hk)

/-! ### Whole environments -/

/-- Two environments that have the same bindings in different orders resolve together, and then to
the same values, fields and literals included: the resolved bindings are the same, in some order.
For each name by itself a resolver has the same answer in both, be it a value or an error, and where
one of them cannot be resolved, its error is that of some binding of the other. -/
theorem resolve_perm {env env' : Environment} (hnames : env.keys.Nodup) (h : env.Perm env') :
    ((∃ c, resolve env = .ok c) ↔ ∃ c, resolve env' = .ok c) ∧
    (∀ c c', resolve env = .ok c → resolve env' = .ok c' →
      c.Perm c' ∧ ∀ n ∈ env.keys, ∃ v, c.get? n = some v ∧ c'.get? n = some v) ∧
    (∀ n underWay, ((Resolver.ofEnvironment env).name n underWay).result =
      ((Resolver.ofEnvironment env').name n underWay).result) ∧
    ∀ e, resolve env = .error e →
      ∃ n ∈ env'.keys, ((Resolver.ofEnvironment env').name n []).result = .error e := by
  have hget : ∀ n, env.get? n = env'.get? n := Entries.get?_eq_of_perm h hnames
  have hkeys : ∀ n, n ∈ env.keys ↔ n ∈ env'.keys := fun n => (h.map Prod.fst).mem_iff
  have hmean : ∀ path n, Substitution.name env path n = Substitution.name env' path n :=
    fun path n => Substitution.name_congr fun m _ => hget m
  have hname : ∀ n underWay, ((Resolver.ofEnvironment env).name n underWay).result =
      ((Resolver.ofEnvironment env').name n underWay).result := by
    intro n underWay
    rw [Resolver.result_name_ofEnvironment, Resolver.result_name_ofEnvironment, hmean]
  refine ⟨?_, ?_, hname, ?_⟩
  · simp only [exists_resolve_iff, hkeys, hmean]
  · intro c c' hc hc'
    have hvalues : ∀ n, c.get? n = c'.get? n := by
      intro n
      refine Option.ext fun v => ?_
      rw [get?_resolve hc, get?_resolve hc', hkeys, hmean]
    obtain ⟨hs, hck⟩ := settled_resolve hc
    refine ⟨Entries.perm_of_get?_eq hs.nodup_keys (settled_resolve hc').1.nodup_keys hvalues, ?_⟩
    intro n hn
    obtain ⟨v, hv⟩ := Entries.exists_get?_of_mem_keys ((hck n).mpr hn)
    exact ⟨v, hv, hvalues n ▸ hv⟩
  · intro e he
    obtain ⟨before, first, rest, -, hsplit, -, hfirst, -⟩ :=
      Resolver.exists_atFault (r := .ofEnvironment env) .nil he
    have hmem : first ∈ env.keys := hsplit ▸ List.mem_append_right _ List.mem_cons_self
    refine ⟨first, (hkeys first).mp hmem, ?_⟩
    rw [← hname, Resolver.result_name_ofEnvironment]
    exact hfirst

/-- The resolved bindings stand in another order where the environment is turned round. -/
theorem resolve_perm_reverse :
    ∃ env c c' : Environment, env.keys = ["a", "b", "d"] ∧ env.keys.Nodup ∧
      env.Perm env.reverse ∧ resolve env = .ok c ∧ c.keys = ["b", "a", "d"] ∧
      resolve env.reverse = .ok c' ∧ c'.keys = ["d", "b", "a"] ∧ c.Perm c' := by
  let env : Environment := [("a", .dict [("p", .reference "b"), ("q", .reference "b")]),
    ("b", .number ⟨"0x2A", 42⟩), ("d", .number ⟨"0X07", 7⟩)]
  have hc : resolve env = .ok [("b", .number ⟨"0x2A", 42⟩),
      ("a", .dict [("p", .number ⟨"0x2A", 42⟩), ("q", .number ⟨"0x2A", 42⟩)]),
      ("d", .number ⟨"0X07", 7⟩)] := by
    cbv
  have hc' : resolve env.reverse = .ok [("d", .number ⟨"0X07", 7⟩), ("b", .number ⟨"0x2A", 42⟩),
      ("a", .dict [("p", .number ⟨"0x2A", 42⟩), ("q", .number ⟨"0x2A", 42⟩)])] := by
    cbv
  have hnames : env.keys.Nodup := by decide
  have hperm : env.Perm env.reverse := (List.reverse_perm env).symm
  obtain ⟨-, hvalues, -⟩ := resolve_perm hnames hperm
  exact ⟨env, _, _, rfl, hnames, hperm, hc, rfl, hc', rfl, (hvalues _ _ hc hc').1⟩

example :
    let env : Environment := [("a", .reference "x"), ("b", .reference "y")]
    resolve env = .error (.unknown "x") ∧ resolve env.reverse = .error (.unknown "y") :=
  ⟨by cbv, by cbv⟩

end HexDoc
