/-
HexDoc/Proofs/Resolution/Order.lean

The order in which bindings are resolved.  Nothing in the resolver sorts: a binding stands where
its resolution was completed.  Where a call of the recursion succeeds, it has gone through the
references of its name or value in depth-first post-order, starting from the names that had
values already and passing by those under way (`Recursion.keys_eq_visit`).

Main statement: resolving a whole environment gives its bindings in the depth-first post-order of
its references, each after all that it leads to (`resolve_order`).
-/
import HexDoc.Proofs.Resolution.Meaning
import HexDoc.Resolution.PostOrder
import Mathlib.Data.List.Perm.Basic
import Mathlib.Logic.Relation

namespace HexDoc

open Relation

/-! ### One name at a time -/

namespace PostOrder

variable {env : Environment} {path listed : List Name} {n : Name} {raw : Value}

theorem visit_nil : visit env path listed [] = listed := by
  rw [visit]

/-- A name that has been listed is not listed again. -/
theorem visit_singleton_of_listed (h : n ∈ listed) : visit env path listed [n] = listed := by
  rw [visit, if_pos h, visit_nil]

/-- A bound name that is new comes after all that its raw value refers to. -/
theorem visit_singleton_of_bound (h : n ∉ listed) (hn : env.get? n = some raw) (hp : n ∉ path) :
    visit env path listed [n] = visit env (n :: path) listed raw.references ++ [n] := by
  rw [visit, if_neg h]
  split
  · rename_i hn'
    cases hn.symm.trans hn'
  · rename_i raw' hn'
    cases hn.symm.trans hn'
    rw [dif_neg hp, visit_nil]

/-- Names are visited one after the other. -/
theorem visit_append (env : Environment) (path listed ns ms : List Name) :
    visit env path listed (ns ++ ms) = visit env path (visit env path listed ns) ms := by
  induction ns generalizing listed with
  | nil => rw [List.nil_append, visit_nil]
  | cons n ns ih =>
    rw [List.cons_append, visit, visit]
    split
    · exact ih _
    · split
      · exact ih _
      · split
        · exact ih _
        · exact ih _

end PostOrder

/-! ### Calls of the recursion -/

namespace Recursion

open PostOrder

/-- The names that have values after a call that has succeeded are those that had values before
and those visited from there, in the order of the visit. -/
theorem keys_eq_visit (env : Environment) :
    (∀ l n, ∀ w, (name env l n).1 = .ok w →
      (name env l n).2.1.values.keys = visit env l.underWay l.values.keys [n]) ∧
    (∀ l v, ∀ w, (value env l v).1 = .ok w →
      (value env l v).2.1.values.keys = visit env l.underWay l.values.keys v.references) ∧
    (∀ l fs, ∀ fs', (fields env l fs).1 = .ok fs' →
      (fields env l fs).2.1.values.keys =
        visit env l.underWay l.values.keys (Value.referencesOfFields fs)) := by
  apply induct_of_ok env
    (P := fun l n l' => l'.values.keys = visit env l.underWay l.values.keys [n])
    (Q := fun l v l' => l'.values.keys = visit env l.underWay l.values.keys v.references)
    (R := fun l fs l' =>
      l'.values.keys = visit env l.underWay l.values.keys (Value.referencesOfFields fs))
  case found =>
    intro l n v hv
    rw [visit_singleton_of_listed (Entries.mem_keys_of_get? hv)]
    rfl
  case filed =>
    -- the name is filed behind all that its raw value has led to
    intro l n raw v l' hv hn hp h ih
    have hnone : l'.1.values.get? n = none := get?_eq_none_of_value hv h
    rw [visit_singleton_of_bound (Entries.get?_eq_none_iff.mp hv) hn hp]
    calc (l'.1.values.put n v).keys
        = l'.1.values.keys ++ [n] := by
          rw [Entries.keys_put, if_neg (Entries.get?_eq_none_iff.mp hnone)]
      _ = visit env (n :: l.underWay) l.values.keys raw.references ++ [n] := by
          rw [ih]
          rfl
  case number =>
    intro l m
    rw [Value.references, visit_nil]
  case reference =>
    intro l n l' ih
    exact ih
  case dict =>
    intro l fs l' ih
    exact ih
  case nil =>
    intro l
    rw [Value.referencesOfFields, visit_nil]
  case cons =>
    -- the other fields are visited after what the first one has led to
    intro l k v fs l' l'' ih ihs
    rw [Value.referencesOfFields, visit_append, ← ih, ihs, l'.2]

end Recursion

/-! ### Resolvers -/

namespace Resolver

open PostOrder

variable {r : Resolver}

theorem keys_name {n : Name} {v : Value} (h : (r.name n []).result = .ok v) :
    (r.name n []).resolver.values.keys = visit r.env [] r.values.keys [n] := by
  rw [name_eq] at h ⊢
  exact (Recursion.keys_eq_visit r.env).1 _ n v h

/-- Names that are resolved one after the other are visited one after the other. -/
theorem keys_names {ns : List Name} {c : Environment} (h : (r.names ns).result = .ok c) :
    c.keys = visit r.env [] r.values.keys ns := by
  induction ns generalizing r with
  | nil =>
    cases h
    rw [visit_nil]
  | cons n ns ih =>
    rcases hn : (r.name n []).result with e | v
    · rw [names_cons_of_error hn] at h
      cases h
    · rw [names_cons_of_ok hn] at h
      calc c.keys
          = visit (r.name n []).resolver.env [] (r.name n []).resolver.values.keys ns := ih h
        _ = visit r.env [] (visit r.env [] r.values.keys [n]) ns := by
            rw [(r.adds_name n []).env, keys_name hn]
        _ = visit r.env [] r.values.keys (n :: ns) := (visit_append ..).symm

end Resolver

/-! ### Whole environments -/

namespace Settled

variable {env c : Environment}

/-- What a settled name leads to is settled. -/
theorem mem_of_leads (h : Settled env c) {n m : Name} (hn : n ∈ c.keys)
    (hm : ReflTransGen env.Refers n m) : m ∈ c.keys := by
  induction hm with
  | refl => exact hn
  | tail _ hab ih =>
    obtain ⟨⟨k, v⟩, hk, rfl⟩ := List.mem_map.mp ih
    obtain ⟨before, rest, hc⟩ := List.append_of_mem hk
    rw [hc, Entries.keys_append]
    exact List.mem_append_left _ (h.mem_of_refers hc hab)

/-- What a settled name leads to by one or more references is settled before it. -/
theorem mem_of_leads_on (h : Settled env c) {before rest : Environment} {n m : Name} {v : Value}
    (hc : c = before ++ (n, v) :: rest) (hm : TransGen env.Refers n m) : m ∈ before.keys := by
  obtain ⟨k, hnk, hkm⟩ := TransGen.head'_iff.mp hm
  exact (h.of_eq_append hc).1.mem_of_leads (h.mem_of_refers hc hnk) hkm

end Settled

/-- Where resolving an environment succeeds, the resolved bindings are its bindings, each of them
once; they have been noted as resolved in the same order; each stands behind all that it leads
to; and the order is the depth-first post-order of the references. -/
theorem resolve_order {env c : Environment} (hnames : env.keys.Nodup) (h : resolve env = .ok c) :
    c.keys.Perm env.keys ∧
      Event.resolvedNames (Resolver.ofEnvironment env).all.events = c.keys ∧
      (∀ before n v rest, c = before ++ (n, v) :: rest →
        ∀ m, TransGen env.Refers n m → m ∈ Entries.keys before) ∧
      c.keys = PostOrder.names env := by
  obtain ⟨hs, hkeys⟩ := settled_resolve h
  refine ⟨(List.perm_ext_iff_of_nodup hs.nodup_keys hnames).mpr hkeys, ?_, ?_, ?_⟩
  · obtain ⟨new, hv, he⟩ := ((Resolver.ofEnvironment env).adds_names env.keys).values
    have hc : (Resolver.ofEnvironment env).all.resolver.values = c :=
      ((Resolver.result_names (r := .ofEnvironment env) .nil env.keys).2 c h).1
    calc Event.resolvedNames (Resolver.ofEnvironment env).all.events
        = new.keys := he
      _ = c.keys := by rw [← hc]; exact congrArg Entries.keys hv.symm
  · intro before n v rest hc m hm
    exact hs.mem_of_leads_on hc hm
  · exact Resolver.keys_names h

/-- Two bindings refer to a third one, and the first of all to each of them. -/
theorem resolve_order_diamond :
    ∃ env c : Environment, env.keys = ["top", "left", "right", "base"] ∧ env.keys.Nodup ∧
      resolve env = .ok c ∧ c.keys = ["base", "left", "right", "top"] ∧ c.keys.Perm env.keys ∧
      c.keys = PostOrder.names env := by
  let env : Environment :=
    [("top", .dict [("l", .reference "left"), ("r", .reference "right"), ("b", .reference "base")]),
      ("left", .reference "base"), ("right", .dict [("b", .reference "base")]),
      ("base", .number ⟨"0x7", 7⟩)]
  have hc : resolve env = .ok [("base", .number ⟨"0x7", 7⟩), ("left", .number ⟨"0x7", 7⟩),
      ("right", .dict [("b", .number ⟨"0x7", 7⟩)]),
      ("top", .dict [("l", .number ⟨"0x7", 7⟩), ("r", .dict [("b", .number ⟨"0x7", 7⟩)]),
        ("b", .number ⟨"0x7", 7⟩)])] := by
    cbv
  have hnames : env.keys.Nodup := by decide
  obtain ⟨hperm, -, -, horder⟩ := resolve_order hnames hc
  exact ⟨env, _, rfl, hnames, hc, rfl, hperm, horder⟩

end HexDoc
