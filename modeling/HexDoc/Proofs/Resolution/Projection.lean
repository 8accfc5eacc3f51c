/-
HexDoc/Proofs/Resolution/Projection.lean

Resolving what has been resolved.  A value of numbers and dictionaries is resolved as it stands, and
nothing happens on the ledger meanwhile (`Recursion.value_of_isResolved`).  So a resolver that comes
to a binding with such a value files the value unchanged behind those that it has
(`Resolver.name_of_isResolved`), and one binding after the other it rebuilds the environment, in its
order (`Resolver.names_of_isResolved`).

Main statement: the environments that resolving leaves alone are those without references and
foreign values, and what resolving gives is one of them (`resolve_idempotent`).
-/
import HexDoc.Proofs.Resolution.Meaning

namespace HexDoc

/-! ### One value -/

namespace Recursion

mutual

/-- A resolved value is resolved as it stands, and the ledger stays as it is. -/
theorem value_of_isResolved (env : Environment) (l : Ledger) {v : Value} (h : v.IsResolved) :
    value env l v = (.ok v, ⟨l, rfl⟩) := by
  obtain ⟨hr, hk⟩ := h
  match v with
  | .number n => rw [value_number]
  | .foreign k => cases hk
  | .reference n => cases hr
  | .dict fs =>
    rw [value_dict, fields_of_isResolved env l hr hk]
    rfl

theorem fields_of_isResolved (env : Environment) (l : Ledger) {fs : List (Name × Value)}
    (hr : Value.referencesOfFields fs = []) (hk : Value.foreignKindsOfFields fs = []) :
    fields env l fs = (.ok fs, ⟨l, rfl⟩) := by
  match fs with
  | [] => rw [fields_nil]
  | (k, v) :: fs =>
    obtain ⟨hrv, hrfs⟩ := List.append_eq_nil_iff.mp hr
    obtain ⟨hkv, hkfs⟩ := List.append_eq_nil_iff.mp hk
    rw [fields_cons_of_ok (value_of_isResolved env l ⟨hrv, hkv⟩),
      fields_of_isResolved env l hrfs hkfs]
    rfl

end

end Recursion

/-! ### One binding after the other -/

namespace Resolver

variable {r : Resolver}

/-- A binding with a resolved value comes behind the values that are there, as it is. -/
theorem name_of_isResolved {n : Name} {v : Value} (hnew : n ∉ r.values.keys)
    (hn : r.env.get? n = some v) (h : v.IsResolved) :
    (r.name n []).result = .ok v ∧ (r.name n []).resolver = ⟨r.env, r.values ++ [(n, v)]⟩ := by
  let l : Ledger := ⟨r.values, [], []⟩
  have hcall := Recursion.name_of_ok (l := l) (Entries.get?_eq_none_iff.mpr hnew) hn
    List.not_mem_nil (Recursion.value_of_isResolved r.env (l.enter n) h)
  rw [name_eq, hcall]
  exact ⟨rfl, congrArg (Resolver.mk r.env) (Entries.put_of_notMem hnew v)⟩

/-- Bindings with resolved values come behind the values that are there, as they are and in their
order. -/
theorem names_of_isResolved {bs : Environment} (hnames : (r.values ++ bs).keys.Nodup)
    (hget : ∀ b ∈ bs, r.env.get? b.1 = some b.2) (h : ∀ b ∈ bs, b.2.IsResolved) :
    (r.names bs.keys).result = .ok (r.values ++ bs) := by
  induction bs generalizing r with
  | nil => rw [List.append_nil, Entries.keys_nil, names]
  | cons b bs ih =>
    obtain ⟨n, v⟩ := b
    obtain ⟨hn, hget⟩ := List.forall_mem_cons.mp hget
    obtain ⟨hv, h⟩ := List.forall_mem_cons.mp h
    have hnew : n ∉ r.values.keys := by
      rw [Entries.keys_append] at hnames
      exact fun hmem => (List.nodup_append.mp hnames).2.2 n hmem n List.mem_cons_self rfl
    obtain ⟨hresult, hresolver⟩ := name_of_isResolved hnew hn hv
    rw [List.append_cons] at hnames ⊢
    rw [Entries.keys_cons, names_cons_of_ok hresult, hresolver]
    exact ih hnames hget h

end Resolver

/-! ### Whole environments -/

/-- An environment with resolved values only is resolved as it stands. -/
theorem resolve_of_isResolved {env : Environment} (hnames : env.keys.Nodup)
    (h : ∀ b ∈ env, b.2.IsResolved) : resolve env = .ok env :=
  Resolver.names_of_isResolved (r := .ofEnvironment env) hnames
    (fun _ hb => (Entries.mem_iff_get? hnames).mp hb) h

/-- Resolving leaves an environment as it is, bindings, fields and literals in their order, exactly
if there is no reference and no foreign value in it.  What comes of resolving is such an
environment, so resolving it again changes nothing. -/
theorem resolve_idempotent (env : Environment) :
    (env.keys.Nodup → (resolve env = .ok env ↔ ∀ b ∈ env, b.2.IsResolved)) ∧
    ∀ c, resolve env = .ok c →
      c.keys.Nodup ∧ (∀ b ∈ c, b.2.IsResolved) ∧ resolve c = .ok c := by
  constructor
  · intro hnames
    exact ⟨isResolved_of_resolve, resolve_of_isResolved hnames⟩
  · intro c h
    have hnames : c.keys.Nodup := (settled_resolve h).1.nodup_keys
    have hresolved := isResolved_of_resolve h
    exact ⟨hnames, hresolved, resolve_of_isResolved hnames hresolved⟩

/-- What is resolved first stands first, and stays there. -/
theorem resolve_idempotent_forward :
    ∃ env c : Environment, env.keys = ["a", "b", "e"] ∧ resolve env = .ok c ∧
      c.keys = ["b", "a", "e"] ∧ c.keys.Nodup ∧ (∀ b ∈ c, b.2.IsResolved) ∧ resolve c = .ok c := by
  let env : Environment := [("a", .dict [("p", .reference "b"), ("q", .dict [])]),
    ("b", .dict [("z", .number ⟨"0X0f", 15⟩), ("y", .number ⟨"0x2A", 42⟩)]), ("e", .reference "b")]
  have hc : resolve env = .ok [
      ("b", .dict [("z", .number ⟨"0X0f", 15⟩), ("y", .number ⟨"0x2A", 42⟩)]),
      ("a", .dict [("p", .dict [("z", .number ⟨"0X0f", 15⟩), ("y", .number ⟨"0x2A", 42⟩)]),
        ("q", .dict [])]),
      ("e", .dict [("z", .number ⟨"0X0f", 15⟩), ("y", .number ⟨"0x2A", 42⟩)])] := by
    cbv
  obtain ⟨hnames, hresolved, -⟩ := (resolve_idempotent env).2 _ hc
  exact ⟨env, _, rfl, hc, rfl, hnames, hresolved,
    ((resolve_idempotent _).1 hnames).mpr hresolved⟩

end HexDoc
