/-
HexDoc/Proofs/Resolution/Retry.lean

Asking the same question twice in a row.  What the first answer has completed is there when the
question is asked again, so the second answer takes a shorter way.  It comes to the same place: what
succeeded is found, and what failed fails at the same reference, with nothing left to complete
before it.

A call of the recursion can be made again on every ledger that remembers what it has completed
(`Recursion.Remembers`): if it has succeeded, such a ledger may have more values; if it has failed,
it has just those, for a name on the way to the failure must not have got a value meanwhile.  By
induction along the first call, the second comes to the same and adds no value
(`Recursion.repeats`).

Main statement: a question that is asked again changes nothing and is answered alike, failures
included (`ask_again`).
-/
import HexDoc.Proofs.Resolution.History
import HexDoc.Proofs.Resolution.Unwinding

namespace HexDoc

/-! ### Calls -/

namespace Recursion

section
variable {α β : Type} {l l' : Ledger}

/-- A ledger on which a call can be made again: the same names are under way, and the values are
there that the call has left, and no others if it has failed. -/
structure Remembers (c : Resolved l α) (l' : Ledger) : Prop where
  underWay : l'.underWay = l.underWay
  values : ∀ n v, c.2.1.values.get? n = some v → l'.values.get? n = some v
  failed : ∀ e, c.1 = .error e → l'.values = c.2.1.values

/-- A call made again: it comes to the same and adds no value. -/
structure Repeats (c : Resolved l α) (d : Resolved l' α) : Prop where
  result : d.1 = c.1
  values : d.2.1.values = l'.values

theorem Remembers.of_map {f : α → β} {c : Resolved l α} (h : Remembers (c.1.map f, c.2) l') :
    Remembers c l' :=
  ⟨h.underWay, h.values, fun e he => h.failed e (Outcome.map_eq_error_iff.mpr he)⟩

/-- An error is remembered as one of a call that would have had another kind of answer. -/
theorem Remembers.of_error {e : ResolveError} {l₁ : Same l}
    (h : Remembers ((.error e, l₁) : Resolved l β) l') :
    Remembers ((.error e, l₁) : Resolved l α) l' :=
  ⟨h.underWay, h.values, fun _ _ => h.failed e rfl⟩

variable {c : Resolved l α} {d : Resolved l' α}

theorem Repeats.map (h : Repeats c d) (f : α → β) :
    Repeats (c.1.map f, c.2) (d.1.map f, d.2) :=
  ⟨congrArg (Except.map f) h.result, h.values⟩

theorem Repeats.exists_eq (h : Repeats c d) {x : Except ResolveError α} (hx : c.1 = x) :
    ∃ l₂ : Same l', d = (x, l₂) ∧ l₂.1.values = l'.values :=
  ⟨d.2, Prod.ext (h.result.trans hx) rfl, h.values⟩

end

/-- A call that is made again on a ledger that remembers it repeats itself. -/
theorem repeats (env : Environment) :
    (∀ l n, ∀ l', Remembers (name env l n) l' → Repeats (name env l n) (name env l' n)) ∧
    (∀ l v, ∀ l', Remembers (value env l v) l' → Repeats (value env l v) (value env l' v)) ∧
    (∀ l fs, ∀ l', Remembers (fields env l fs) l' →
      Repeats (fields env l fs) (fields env l' fs)) := by
  apply induct env
  case found =>
    intro l n v hv l' h
    rw [name_of_found hv] at h ⊢
    rw [name_of_found (h.values n v hv)]
    exact ⟨rfl, rfl⟩
  case unknown =>
    intro l n hv hn l' h
    rw [name_of_unknown hv hn] at h ⊢
    rw [name_of_unknown (h.failed _ rfl ▸ hv) hn]
    exact ⟨rfl, rfl⟩
  case cyclic =>
    intro l n raw hv hn hp l' h
    rw [name_of_cyclic hv hn hp] at h ⊢
    rw [name_of_cyclic (h.failed _ rfl ▸ hv) hn (h.underWay ▸ hp)]
    exact ⟨rfl, rfl⟩
  case failed =>
    -- the name has got no value, so its raw value is resolved again, and fails again
    intro l n raw e l₁ hv hn hp hc ih l' h
    rw [name_of_error hv hn hp hc] at h ⊢
    rw [hc] at ih
    have hnone : l'.values.get? n = none := by
      rw [h.failed e rfl]
      exact get?_eq_none_of_value hv hc
    have hp' : n ∉ l'.underWay := h.underWay ▸ hp
    have hentered : Remembers (.error e, l₁) (l'.enter n) :=
      ⟨congrArg (n :: ·) h.underWay, h.values, h.failed⟩
    obtain ⟨l₂, hd, hvalues⟩ := (ih _ hentered).exists_eq rfl
    rw [name_of_error hnone hn hp' hd]
    exact ⟨rfl, hvalues⟩
  case filed =>
    -- the value has been filed, and is found
    intro l n raw v l₁ hv hn hp hc ih l' h
    rw [name_of_ok hv hn hp hc] at h ⊢
    have hfound : l'.values.get? n = some v :=
      h.values n v (by simp [Ledger.file, Entries.get?_put])
    rw [name_of_found hfound]
    exact ⟨rfl, rfl⟩
  case number =>
    intro l m l' h
    rw [value_number, value_number]
    exact ⟨rfl, rfl⟩
  case foreign =>
    intro l k l' h
    rw [value_foreign, value_foreign]
    exact ⟨rfl, rfl⟩
  case reference =>
    intro l n ih l' h
    rw [value_reference] at h ⊢
    rw [value_reference]
    exact ih l' h
  case dict =>
    intro l fs ih l' h
    rw [value_dict] at h ⊢
    rw [value_dict]
    exact (ih l' h.of_map).map Value.dict
  case nil =>
    intro l l' h
    rw [fields_nil, fields_nil]
    exact ⟨rfl, rfl⟩
  case stopped =>
    intro l k v fs e l₁ hc ih l' h
    rw [fields_cons_of_error hc] at h ⊢
    rw [hc] at ih
    obtain ⟨l₂, hd, hvalues⟩ := (ih l' h.of_error).exists_eq rfl
    rw [fields_cons_of_error hd]
    exact ⟨rfl, hvalues⟩
  case cons =>
    intro l k v fs v' l₁ hc ih ihs l' h
    rw [fields_cons_of_ok hc] at h ⊢
    rw [hc] at ih
    -- the first value is remembered, for what it has completed is still there after the others
    have hfirst : Remembers (.ok v', l₁) l' :=
      ⟨h.underWay, fun m w hm => h.values m w (((grows env).2.2 l₁ fs).1.get?_eq_some hm),
        fun e he => by cases he⟩
    obtain ⟨l₂, hd, hvalues⟩ := (ih l' hfirst).exists_eq rfl
    have hothers : Remembers (fields env l₁.1 fs) l₂.1 := by
      refine ⟨?_, ?_, ?_⟩
      · rw [l₂.2, h.underWay, l₁.2]
      · rw [hvalues]
        exact h.values
      · intro e he
        rw [hvalues]
        exact h.failed e (Outcome.map_eq_error_iff.mpr he)
    have hrepeats := ihs l₂.1 hothers
    rw [fields_cons_of_ok hd]
    exact ⟨congrArg (Except.map ((k, v') :: ·)) hrepeats.result, hrepeats.values.trans hvalues⟩

/-- The same for the calls of the resolver. -/
theorem repeats_call (env : Environment) (l l' : Ledger) (c : Call)
    (h : Remembers (call env l c) l') : Repeats (call env l c) (call env l' c) := by
  cases c with
  | name n => exact (repeats env).1 l n l' h
  | value v => exact (repeats env).2.1 l v l' h

end Recursion

/-! ### Resolvers -/

namespace Resolver

variable {r r' : Resolver} {underWay : List Name}

/-- A call that is made again by a resolver that has all values which the call has left, and no
others if it has failed: it comes to the same and leaves that resolver as it is. -/
theorem call_again {c : Call} (henv : r'.env = r.env)
    (hvalues : ∀ n v, (r.call underWay c).resolver.values.get? n = some v →
      r'.values.get? n = some v)
    (hfailed : ∀ e, (r.call underWay c).result = .error e →
      r'.values = (r.call underWay c).resolver.values) :
    (r'.call underWay c).result = (r.call underWay c).result ∧
      (r'.call underWay c).resolver = r' := by
  obtain ⟨env, values⟩ := r'
  obtain rfl : env = r.env := henv
  rw [call_eq] at hvalues hfailed
  obtain ⟨hresult, hsame⟩ := Recursion.repeats_call r.env ⟨r.values, underWay, []⟩
    ⟨values, underWay, []⟩ c ⟨rfl, hvalues, hfailed⟩
  rw [call_eq, call_eq]
  exact ⟨hresult, congrArg (Resolver.mk r.env) hsame⟩

/-- A call that is made again by the resolver that it has left. -/
theorem call_twice (r : Resolver) (underWay : List Name) (c : Call) :
    let r' := (r.call underWay c).resolver
    (r'.call underWay c).result = (r.call underWay c).result ∧
      (r'.call underWay c).resolver = r' := by
  have henv : (r.call underWay c).resolver.env = r.env := by
    rw [call_eq]
    rfl
  exact call_again henv (fun _ _ hn => hn) (fun _ _ => rfl)

/-- Names that are asked for again one after the other, by the resolver that the first time has
left. -/
theorem names_again {ns : List Name} (h : r' = (r.names ns).resolver) :
    (r'.names ns).result = (r.names ns).result ∧ (r'.names ns).resolver = r' := by
  induction ns generalizing r with
  | nil =>
    subst h
    exact ⟨rfl, rfl⟩
  | cons n ns ih =>
    rcases hn : (r.name n []).result with e | v
    · rw [names_cons_of_error hn] at h ⊢
      have hagain : (r'.name n []).result = (r.name n []).result ∧
          (r'.name n []).resolver = r' := by
        rw [h]
        exact r.call_twice [] (.name n)
      rw [names_cons_of_error (hagain.1.trans hn)]
      exact ⟨rfl, hagain.2⟩
    · rw [names_cons_of_ok hn] at h ⊢
      -- what the first name has completed is still there after the others
      have hothers := (r.name n []).resolver.adds_names ns
      have hagain : (r'.name n []).result = (r.name n []).result ∧
          (r'.name n []).resolver = r' :=
        call_again (c := .name n) (by rw [h]; exact hothers.env.trans (r.adds_name n []).env)
          (by rw [h]; exact fun _ _ hm => hothers.get?_eq_some hm)
          (fun e he => by cases hn.symm.trans he)
      rw [names_cons_of_ok (hagain.1.trans hn), hagain.2]
      exact ih h

/-- An answer that leaves its resolver as it was has noted no name as resolved. -/
theorem Adds.resolvedNames_eq_nil {α : Type} {a : Answer α} (h : r.Adds a)
    (hsame : a.resolver = r) : Event.resolvedNames a.events = [] := by
  obtain ⟨new, hv, he⟩ := h.values
  rw [hsame] at hv
  rw [he, List.self_eq_append_right.mp hv, Entries.keys_nil]

theorem underWay_names (r : Resolver) (ns : List Name) : (r.names ns).underWay = [] := by
  induction ns generalizing r with
  | nil => rfl
  | cons n ns ih =>
    rcases hn : (r.name n []).result with e | v
    · rw [names_cons_of_error hn]
      exact r.underWay_call [] (.name n)
    · rw [names_cons_of_ok hn]
      exact ih (r.name n []).resolver

end Resolver

/-! ### Questions -/

/-- The names that a question is asked with as under way. -/
def Question.underWay : Question → List Name
  | .name _ underWay => underWay
  | .value _ underWay => underWay
  | .all => []

namespace Resolver

theorem underWay_ask (r : Resolver) (q : Question) : (r.ask q).underWay = q.underWay := by
  cases q with
  | name n underWay => exact r.underWay_call underWay (.name n)
  | value v underWay => exact r.underWay_call underWay (.value v)
  | all => exact r.underWay_names r.env.keys

/-- A question that is asked again by the resolver that it has left. -/
theorem ask_twice (r : Resolver) (q : Question) :
    let r' := (r.ask q).resolver
    (r'.ask q).result = (r.ask q).result ∧ (r'.ask q).resolver = r' := by
  cases q with
  | name n underWay =>
    obtain ⟨hresult, hsame⟩ := r.call_twice underWay (.name n)
    exact ⟨congrArg (Except.map Sum.inl) hresult, hsame⟩
  | value v underWay =>
    obtain ⟨hresult, hsame⟩ := r.call_twice underWay (.value v)
    exact ⟨congrArg (Except.map Sum.inl) hresult, hsame⟩
  | all =>
    have hall : r.all.resolver.all = r.all.resolver.names r.env.keys :=
      congrArg (fun env => r.all.resolver.names (Entries.keys env)) (r.adds_names r.env.keys).env
    have hagain : (r.all.resolver.names r.env.keys).result = r.all.result ∧
        (r.all.resolver.names r.env.keys).resolver = r.all.resolver := names_again rfl
    rw [← hall] at hagain
    exact ⟨congrArg (Except.map Sum.inr) hagain.1, hagain.2⟩

end Resolver

/-- Whatever a resolver has been asked before: a question that is asked twice in a row, with the
same names under way, gives the same value or the same error the second time.  The second time the
resolver stays as it is, with its values in their order, the names under way are the same
afterwards, and no name is noted as resolved. -/
theorem ask_again (env : Environment) (qs : List Question) (q : Question) :
    let first := (History.after env qs).resolver.ask q
    let again := first.resolver.ask q
    again.result = first.result ∧ again.resolver = first.resolver ∧
      first.underWay = q.underWay ∧ again.underWay = q.underWay ∧
      Event.resolvedNames again.events = [] := by
  intro first again
  obtain ⟨hresult, hsame⟩ := (History.after env qs).resolver.ask_twice q
  exact ⟨hresult, hsame, Resolver.underWay_ask _ q, Resolver.underWay_ask _ q,
    (first.resolver.adds_ask q).resolvedNames_eq_nil hsame⟩

end HexDoc
