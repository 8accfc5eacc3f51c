/-
HexDoc/Proofs/Resolution/Spelling.lean

Resolving takes numbers as they are.  In an environment without spelling it goes the same way,
call by call, and comes to the same value or error, spelling apart (`Recursion.unspelled`).

Main statement: resolving commutes with forgetting the spelling (`resolve_unspelled`).
-/
import HexDoc.Proofs.Resolution.Meaning
import HexDoc.Value.Spelling

namespace HexDoc

/-- A ledger without the literals of the numbers in it. -/
def Ledger.unspelled (l : Ledger) : Ledger :=
  ⟨Value.unspelledFields l.values, l.underWay, l.events⟩

theorem Ledger.unspelled_file (l : Ledger) (n : Name) (v : Value) :
    (l.file n v).unspelled = l.unspelled.file n v.unspelled := by
  simp only [unspelled, file, Value.unspelledFields_put]

theorem Ledger.get?_unspelled (l : Ledger) (n : Name) :
    l.unspelled.values.get? n = (l.values.get? n).map Value.unspelled :=
  Value.get?_unspelledFields l.values n

namespace Recursion

/-! ### Calls -/

section
variable {α : Type} {f : α → α} {l : Ledger} {c : Resolved l.unspelled α} {d : Resolved l α}

/-- Two calls come to the same, spelling apart. -/
def Commutes (l : Ledger) (f : α → α) (c : Resolved l.unspelled α) (d : Resolved l α) : Prop :=
  c.1 = d.1.map f ∧ c.2.1 = d.2.1.unspelled

theorem Commutes.of_error {e : ResolveError} {l' : Same l} (h : Commutes l f c d)
    (hd : d = (.error e, l')) : ∃ l'', c = (.error e, l'') ∧ l''.1 = l'.1.unspelled := by
  subst hd
  exact ⟨c.2, Prod.ext h.1 rfl, h.2⟩

theorem Commutes.of_ok {a : α} {l' : Same l} (h : Commutes l f c d) (hd : d = (.ok a, l')) :
    ∃ l'', c = (.ok (f a), l'') ∧ l''.1 = l'.1.unspelled := by
  subst hd
  exact ⟨c.2, Prod.ext h.1 rfl, h.2⟩

end

/-- A call without spelling goes as the call itself. -/
theorem unspelled (env : Environment) :
    (∀ l n, Commutes l Value.unspelled
      (name (Value.unspelledFields env) l.unspelled n) (name env l n)) ∧
    (∀ l v, Commutes l Value.unspelled
      (value (Value.unspelledFields env) l.unspelled v.unspelled) (value env l v)) ∧
    (∀ l fs, Commutes l Value.unspelledFields
      (fields (Value.unspelledFields env) l.unspelled (Value.unspelledFields fs))
      (fields env l fs)) := by
  have found {l : Ledger} {n : Name} {v? : Option Value} (hv : l.values.get? n = v?) :
      l.unspelled.values.get? n = v?.map Value.unspelled := by
    rw [l.get?_unspelled, hv]
  have bound {n : Name} {v? : Option Value} (hn : env.get? n = v?) :
      Entries.get? (Value.unspelledFields env) n = v?.map Value.unspelled := by
    rw [Value.get?_unspelledFields, hn]
  apply induct env
  case found =>
    intro l n v hv
    rw [name_of_found hv, name_of_found (found hv)]
    exact ⟨rfl, rfl⟩
  case unknown =>
    intro l n hv hn
    rw [name_of_unknown hv hn, name_of_unknown (found hv) (bound hn)]
    exact ⟨rfl, rfl⟩
  case cyclic =>
    intro l n raw hv hn hp
    rw [name_of_cyclic hv hn hp, @name_of_cyclic _ l.unspelled n _ (found hv) (bound hn) hp]
    exact ⟨rfl, rfl⟩
  case failed =>
    -- the name is left in both ledgers
    intro l n raw e l' hv hn hp h ih
    obtain ⟨l'', h', hl⟩ := ih.of_error h
    rw [name_of_error hv hn hp h, @name_of_error _ l.unspelled n _ _ (found hv) (bound hn) hp _ h']
    exact ⟨rfl, congrArg (Ledger.leave · n) hl⟩
  case filed =>
    -- the value is filed in both ledgers
    intro l n raw v l' hv hn hp h ih
    obtain ⟨l'', h', hl⟩ := ih.of_ok h
    rw [name_of_ok hv hn hp h, @name_of_ok _ l.unspelled n _ _ (found hv) (bound hn) hp _ h']
    refine ⟨rfl, ?_⟩
    calc (l''.1.leave n).file n v.unspelled
        = (l'.1.unspelled.leave n).file n v.unspelled := by rw [hl]
      _ = ((l'.1.leave n).file n v).unspelled := ((l'.1.leave n).unspelled_file n v).symm
  case number =>
    intro l n
    rw [Value.unspelled, value_number, value_number]
    exact ⟨rfl, rfl⟩
  case foreign =>
    intro l k
    rw [Value.unspelled, value_foreign, value_foreign]
    exact ⟨rfl, rfl⟩
  case reference =>
    intro l n ih
    rw [Value.unspelled, value_reference, value_reference]
    exact ih
  case dict =>
    intro l fs ih
    rw [Value.unspelled, value_dict, value_dict]
    refine ⟨?_, ih.2⟩
    rw [ih.1]
    cases (fields env l fs).1 <;> rfl
  case nil =>
    intro l
    rw [Value.unspelledFields, fields_nil, fields_nil]
    exact ⟨rfl, rfl⟩
  case stopped =>
    intro l k v fs e l' h ih
    obtain ⟨l'', h', hl⟩ := ih.of_error h
    rw [Value.unspelledFields, fields_cons_of_error h, fields_cons_of_error h']
    exact ⟨rfl, hl⟩
  case cons =>
    -- the other fields go on from ledgers that are the same, spelling apart
    intro l k v fs v' l' h ih ihs
    obtain ⟨⟨l₂, hunder⟩, h', hl⟩ := ih.of_ok h
    obtain rfl : l₂ = l'.1.unspelled := hl
    rw [Value.unspelledFields, fields_cons_of_ok h, fields_cons_of_ok h']
    refine ⟨?_, ihs.2⟩
    rw [ihs.1]
    cases (fields env l'.1 fs).1 <;> rfl

end Recursion

/-! ### Whole environments -/

namespace Resolver

/-- A resolver without the literals of the numbers in it. -/
def unspelled (r : Resolver) : Resolver :=
  ⟨Value.unspelledFields r.env, Value.unspelledFields r.values⟩

theorem name_unspelled (r : Resolver) (n : Name) :
    (r.unspelled.name n []).result = (r.name n []).result.map Value.unspelled ∧
      (r.unspelled.name n []).resolver = (r.name n []).resolver.unspelled := by
  obtain ⟨hr, hl⟩ := (Recursion.unspelled r.env).1 ⟨r.values, [], []⟩ n
  rw [name_eq, name_eq]
  refine ⟨hr, ?_⟩
  exact congrArg (fun l : Ledger => (⟨Value.unspelledFields r.env, l.values⟩ : Resolver)) hl

theorem names_unspelled (r : Resolver) (ns : List Name) :
    (r.unspelled.names ns).result = (r.names ns).result.map Value.unspelledFields := by
  induction ns generalizing r with
  | nil => rfl
  | cons n ns ih =>
    obtain ⟨hr, hresolver⟩ := r.name_unspelled n
    rcases hn : (r.name n []).result with e | v <;> rw [hn] at hr
    · rw [names_cons_of_error hn, names_cons_of_error hr]
      rfl
    · rw [names_cons_of_ok hn, names_cons_of_ok hr, hresolver]
      exact ih (r.name n []).resolver

end Resolver

/-- Resolving an environment without spelling gives what resolving it gives, spelling apart. -/
theorem resolve_unspelled (env : Environment) :
    resolve (Value.unspelledFields env) = (resolve env).map Value.unspelledFields := by
  rw [resolve, Resolver.all, Resolver.ofEnvironment, Value.keys_unspelledFields]
  exact (Resolver.ofEnvironment env).names_unspelled env.keys

end HexDoc
