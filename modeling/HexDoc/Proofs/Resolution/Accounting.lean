/-
HexDoc/Proofs/Resolution/Accounting.lean

What becomes of each request for a name.  A request that succeeds notes one event: the value of
the name was there, or it has been resolved just now.  Names are requested from outside and by
the references of each raw value that is resolved, and no raw value is resolved twice.  So the
names of the events are those asked for, together with the references of the names resolved
(`Recursion.accounts`); the order in which it comes to the events does not matter.

Main statement: resolving an environment finds a name as often as its values refer to it, each
time after it has been resolved (`events_of_resolve`).
-/
import HexDoc.Proofs.Resolution.Order
import HexDoc.Value.References
import Mathlib.Data.List.Perm.Basic

namespace HexDoc

/-! ### Events -/

namespace Event

/-- The name that an event is about. -/
def name : Event → Name
  | .found n => n
  | .resolved n => n

/-- Every name that is found is known, or it has been resolved before. -/
def HitsKnown (known : List Name) : List Event → Prop
  | [] => True
  | .found n :: es => n ∈ known ∧ HitsKnown known es
  | .resolved n :: es => HitsKnown (known ++ [n]) es

theorem resolvedNames_append (es es' : List Event) :
    resolvedNames (es ++ es') = resolvedNames es ++ resolvedNames es' :=
  List.filterMap_append

theorem HitsKnown.append {known : List Name} {es es' : List Event} (h : HitsKnown known es)
    (h' : HitsKnown (known ++ resolvedNames es) es') : HitsKnown known (es ++ es') := by
  induction es generalizing known with
  | nil => simpa [resolvedNames] using h'
  | cons e es ih =>
    cases e with
    | found n => exact ⟨h.1, ih h.2 h'⟩
    | resolved n => exact ih h (by simpa [resolvedNames] using h')

/-- A name that is found is known, or it has been resolved before. -/
theorem HitsKnown.mem_of_found {known : List Name} {es before rest : List Event} {n : Name}
    (h : HitsKnown known es) (hes : es = before ++ .found n :: rest) :
    n ∈ known ∨ .resolved n ∈ before := by
  induction before generalizing known es with
  | nil =>
    subst hes
    exact .inl h.1
  | cons e before ih =>
    subst hes
    cases e with
    | found m => exact (ih h.2 rfl).imp_right (List.mem_cons_of_mem _)
    | resolved m =>
      have hrest : HitsKnown (known ++ [m]) (before ++ .found n :: rest) := h
      rcases ih hrest rfl with hmem | hmem
      · rcases List.mem_append.mp hmem with hknown | hm
        · exact .inl hknown
        · rw [List.mem_singleton.mp hm]
          exact .inr List.mem_cons_self
      · exact .inr (List.mem_cons_of_mem _ hmem)

/-- The events about a name are those that find it and those that resolve it. -/
theorem count_name (es : List Event) (n : Name) :
    (es.map name).count n = es.count (.found n) + (resolvedNames es).count n := by
  induction es with
  | nil => rfl
  | cons e es ih =>
    cases e with
    | found m =>
      have hcons : resolvedNames (.found m :: es) = resolvedNames es := rfl
      by_cases h : m = n
      · subst h
        simp [name, hcons, ih]; omega
      · simp [name, hcons, ih, h]
    | resolved m =>
      have hcons : resolvedNames (.resolved m :: es) = m :: resolvedNames es := rfl
      simp only [List.map_cons, name, hcons, List.count_cons, ih]
      simp
      omega

end Event

/-- The names that the raw value of a name refers to. -/
def Environment.referencesOf (env : Environment) (n : Name) : List Name :=
  ((env.get? n).map Value.references).getD []

/-! ### The account of a call -/

/-- Events that account for some requests: each of these requests, and each one made by a raw value
that is resolved meanwhile, has one event; and what is found has been there. -/
structure Accounts (env : Environment) (known asked : List Name) (es : List Event) : Prop where
  balance : (es.map Event.name).Perm
    (asked ++ (Event.resolvedNames es).flatMap env.referencesOf)
  hits : Event.HitsKnown known es

namespace Accounts

variable {env : Environment} {known asked asked' : List Name} {es es' : List Event} {n : Name}

theorem nil (env : Environment) (known : List Name) : Accounts env known [] [] :=
  ⟨.refl _, trivial⟩

/-- A request for a name that is known. -/
theorem found (hn : n ∈ known) : Accounts env known [n] [.found n] :=
  ⟨.refl _, hn, trivial⟩

/-- Requests one after the other. -/
theorem append (h : Accounts env known asked es)
    (h' : Accounts env (known ++ Event.resolvedNames es) asked' es') :
    Accounts env known (asked ++ asked') (es ++ es') := by
  refine ⟨?_, h.hits.append h'.hits⟩
  refine List.perm_iff_count.mpr fun m => ?_
  have hcount := h.balance.count_eq m
  have hcount' := h'.balance.count_eq m
  simp only [List.map_append, Event.resolvedNames_append, List.flatMap_append,
    List.count_append] at *
  omega

/-- A request for a name whose raw value is resolved meanwhile. -/
theorem resolved {raw : Value} (hn : env.get? n = some raw)
    (h : Accounts env known raw.references es) : Accounts env known [n] (es ++ [.resolved n]) := by
  have hreferences : env.referencesOf n = raw.references := by
    rw [Environment.referencesOf, hn]
    rfl
  refine ⟨?_, h.hits.append trivial⟩
  refine List.perm_iff_count.mpr fun m => ?_
  have hcount := h.balance.count_eq m
  have hlast : Event.resolvedNames [.resolved n] = [n] := rfl
  simp only [List.map_append, List.map_cons, List.map_nil, Event.name,
    Event.resolvedNames_append, hlast, List.flatMap_append, List.flatMap_singleton, hreferences,
    List.count_append] at *
  omega

end Accounts

/-- A later ledger whose new events account for some requests; those of them that resolve names
have added these names to the values. -/
def Ledger.AccountsFor (env : Environment) (l : Ledger) (asked : List Name) (l' : Ledger) : Prop :=
  ∃ es, l'.events = l.events ++ es ∧ l'.values.keys = l.values.keys ++ Event.resolvedNames es ∧
    Accounts env l.values.keys asked es

namespace Ledger.AccountsFor

variable {env : Environment} {l l' l'' : Ledger} {asked asked' : List Name} {n : Name} {v : Value}

theorem refl (env : Environment) (l : Ledger) : l.AccountsFor env [] l :=
  ⟨[], by simp, by simp [Event.resolvedNames], .nil env _⟩

theorem trans (h : l.AccountsFor env asked l') (h' : l'.AccountsFor env asked' l'') :
    l.AccountsFor env (asked ++ asked') l'' := by
  obtain ⟨es, hevents, hkeys, haccounts⟩ := h
  obtain ⟨es', hevents', hkeys', haccounts'⟩ := h'
  rw [hkeys] at haccounts'
  exact ⟨es ++ es', by rw [hevents', hevents, List.append_assoc],
    by rw [hkeys', hkeys, Event.resolvedNames_append, List.append_assoc],
    haccounts.append haccounts'⟩

theorem find (hn : l.values.get? n = some v) : l.AccountsFor env [n] (l.find n) :=
  ⟨[.found n], rfl, by simp [Ledger.find, Event.resolvedNames],
    .found (Entries.mem_keys_of_get? hn)⟩

/-- A name that is entered, and left with the value that has come of its raw value. -/
theorem file {raw : Value} (h : (l.enter n).AccountsFor env raw.references l')
    (hraw : env.get? n = some raw) (hn : l'.values.get? n = none) :
    l.AccountsFor env [n] ((l'.leave n).file n v) := by
  obtain ⟨es, hevents, hkeys, haccounts⟩ := h
  have hbefore : Accounts env l.values.keys raw.references es := haccounts
  refine ⟨es ++ [.resolved n], ?_, ?_, hbefore.resolved hraw⟩
  · show l'.events ++ [.resolved n] = l.events ++ (es ++ [.resolved n])
    rw [hevents, ← List.append_assoc]
    rfl
  · show (l'.values.put n v).keys = l.values.keys ++ Event.resolvedNames (es ++ [.resolved n])
    rw [Entries.keys_put, if_neg (Entries.get?_eq_none_iff.mp hn), hkeys,
      Event.resolvedNames_append, ← List.append_assoc]
    rfl

end Ledger.AccountsFor

namespace Recursion

/-- The events of a call that succeeds account for the names that it asks for. -/
theorem accounts (env : Environment) :
    (∀ l n, ∀ w, (name env l n).1 = .ok w → l.AccountsFor env [n] (name env l n).2) ∧
    (∀ l v, ∀ w, (value env l v).1 = .ok w → l.AccountsFor env v.references (value env l v).2) ∧
    (∀ l fs, ∀ fs', (fields env l fs).1 = .ok fs' →
      l.AccountsFor env (Value.referencesOfFields fs) (fields env l fs).2) := by
  apply induct_of_ok env (P := fun l n l' => l.AccountsFor env [n] l')
    (Q := fun l v l' => l.AccountsFor env v.references l')
    (R := fun l fs l' => l.AccountsFor env (Value.referencesOfFields fs) l')
  case found =>
    intro l n v hv
    exact .find hv
  case filed =>
    intro l n raw v l' hv hn hp h ih
    exact ih.file hn (get?_eq_none_of_value hv h)
  case number =>
    intro l m
    exact .refl env l
  case reference =>
    intro l n l' ih
    exact ih
  case dict =>
    intro l fs l' ih
    exact ih
  case nil =>
    intro l
    exact .refl env l
  case cons =>
    intro l k v fs l' l'' ih ihs
    exact ih.trans ihs

end Recursion

/-! ### Whole environments -/

namespace Resolver

variable {r : Resolver}

theorem accounts_name {n : Name} {v : Value} (h : (r.name n []).result = .ok v) :
    (r.name n []).resolver.values.keys =
        r.values.keys ++ Event.resolvedNames (r.name n []).events ∧
      Accounts r.env r.values.keys [n] (r.name n []).events := by
  rw [name_eq] at h ⊢
  obtain ⟨es, hevents, hkeys, haccounts⟩ := (Recursion.accounts r.env).1 _ n v h
  have hes : (r.ofCall (Recursion.name r.env ⟨r.values, [], []⟩ n)).events = es := hevents
  rw [hes]
  exact ⟨hkeys, haccounts⟩

/-- Names that are resolved one after the other: the values come as they are noted, and the events
account for the names. -/
theorem accounts_names {ns : List Name} {c : Environment} (h : (r.names ns).result = .ok c) :
    c.keys = r.values.keys ++ Event.resolvedNames (r.names ns).events ∧
      Accounts r.env r.values.keys ns (r.names ns).events := by
  induction ns generalizing r with
  | nil =>
    cases h
    exact ⟨(List.append_nil _).symm, .nil r.env _⟩
  | cons n ns ih =>
    rcases hn : (r.name n []).result with e | v
    · rw [names_cons_of_error hn] at h
      cases h
    · rw [names_cons_of_ok hn] at h ⊢
      obtain ⟨hkeys, haccounts⟩ := accounts_name hn
      obtain ⟨hkeys', haccounts'⟩ := ih h
      rw [(r.adds_name n []).env, hkeys] at haccounts'
      refine ⟨?_, haccounts.append haccounts'⟩
      rw [hkeys', hkeys, Event.resolvedNames_append, List.append_assoc]

end Resolver

/-- The references of all values, taken name by name. -/
theorem Environment.flatMap_referencesOf {env : Environment} (h : env.keys.Nodup) :
    env.keys.flatMap env.referencesOf = Value.referencesOfFields env := by
  induction env with
  | nil => rfl
  | cons b env ih =>
    obtain ⟨k, v⟩ := b
    obtain ⟨hk, hnodup⟩ := List.nodup_cons.mp h
    have hfirst : Environment.referencesOf ((k, v) :: env) k = v.references := by
      simp [Environment.referencesOf, Entries.get?]
    have hothers : ∀ n ∈ Entries.keys env,
        Environment.referencesOf ((k, v) :: env) n = Environment.referencesOf env n := by
      intro n hn
      have hne : ¬ k = n := by
        rintro rfl
        exact hk hn
      simp [Environment.referencesOf, Entries.get?, hne]
    rw [Entries.keys_cons, List.flatMap_cons, hfirst, List.flatMap_congr hothers, ih hnodup]
    rfl

/-- Where resolving an environment succeeds, each of its names is resolved once, in the order of
the values; a name is found there as often as the values of the environment refer to it, each time
after it has been resolved. -/
theorem events_of_resolve {env c : Environment} (hnames : env.keys.Nodup)
    (h : resolve env = .ok c) :
    let events := (Resolver.ofEnvironment env).all.events
    Event.resolvedNames events = c.keys ∧ c.keys.Perm env.keys ∧
      (∀ n, events.count (.found n) = (Value.referencesOfFields env).count n) ∧
      ∀ before n rest, events = before ++ .found n :: rest → .resolved n ∈ before := by
  intro events
  obtain ⟨hkeys, haccounts⟩ := Resolver.accounts_names (r := .ofEnvironment env) h
  obtain ⟨hsettled, hmem⟩ := settled_resolve h
  have hperm : c.keys.Perm env.keys :=
    (List.perm_ext_iff_of_nodup hsettled.nodup_keys hnames).mpr hmem
  have hresolved : Event.resolvedNames events = c.keys := hkeys.symm
  have hbalance : (events.map Event.name).Perm
      (env.keys ++ (Event.resolvedNames events).flatMap env.referencesOf) := haccounts.balance
  rw [hresolved] at hbalance
  refine ⟨hresolved, hperm, ?_, ?_⟩
  · intro n
    -- of the requests for `n`, from outside and by references, all but one find it
    have hrequests : (events.map Event.name).count n =
        env.keys.count n + (c.keys.flatMap env.referencesOf).count n := by
      rw [hbalance.count_eq n, List.count_append]
    have hreferences : (c.keys.flatMap env.referencesOf).count n =
        (Value.referencesOfFields env).count n := by
      rw [← Environment.flatMap_referencesOf hnames]
      exact (hperm.flatMap_right _).count_eq n
    have hevents : (events.map Event.name).count n =
        events.count (.found n) + c.keys.count n := by
      rw [Event.count_name, hresolved]
    have hcount : c.keys.count n = env.keys.count n := hperm.count_eq n
    omega
  · intro before n rest hevents
    exact (haccounts.hits.mem_of_found hevents).resolve_left (List.not_mem_nil)

end HexDoc
