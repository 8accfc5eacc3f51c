/-
HexDoc/Proofs/Resolution/Meaning.lean

Remembering values changes neither what a name means nor which error comes first.  A call of
the recursion on a settled ledger answers what plain substitution answers below the path of
the names that are under way and have no value (`Recursion.answers`).

A resolver that asks with nothing under way therefore answers as if it remembered nothing, and
`resolve_eq_substitution` says so of a whole environment: the same value for every binding, or
the same error.
-/
import HexDoc.Proofs.Resolution.Machine
import HexDoc.Proofs.Resolution.Settled

namespace HexDoc

/-! ### The path of a ledger -/

/-- The path that a ledger stands for: the names under way, except those that have a value,
since a value is found before the path is looked at. -/
def Ledger.IsPath (l : Ledger) (path : List Name) : Prop :=
  ∀ m, m ∈ path ↔ m ∈ l.underWay ∧ l.values.get? m = none

namespace Ledger.IsPath

variable {env : Environment} {l l' : Ledger} {path : List Name} {n : Name}

theorem enter (h : l.IsPath path) (hn : l.values.get? n = none) :
    (l.enter n).IsPath (n :: path) := by
  intro m
  rw [List.mem_cons, h m]
  simp only [Ledger.enter, List.mem_cons]
  constructor
  · rintro (rfl | ⟨hu, hv⟩)
    · exact ⟨.inl rfl, hn⟩
    · exact ⟨.inr hu, hv⟩
  · rintro ⟨rfl | hu, hv⟩
    · exact .inl rfl
    · exact .inr ⟨hu, hv⟩

/-- A later ledger stands for the same path: no name under way has got a value. -/
theorem grows (h : l.IsPath path) (hg : l.Grows env l') : l'.IsPath path := by
  intro m
  rw [h m, hg.underWay]
  constructor
  · rintro ⟨hu, hv⟩
    exact ⟨hu, hg.get?_eq_none hv hu⟩
  · rintro ⟨hu, hv⟩
    refine ⟨hu, ?_⟩
    rcases hl : l.values.get? m with - | v
    · rfl
    · rw [hg.get?_eq_some hl] at hv
      cases hv

/-- No settled name is on the path. -/
theorem notMem_keys (h : l.IsPath path) {m : Name} (hm : m ∈ path) : m ∉ l.values.keys :=
  Entries.get?_eq_none_iff.mp ((h m).mp hm).2

end Ledger.IsPath

/-! ### The recursion answers what substitution answers -/

namespace Recursion

/-- On a settled ledger, a call answers what substitution answers below the path of the ledger. -/
theorem answers (env : Environment) :
    (∀ l n, ∀ path, Settled env l.values → l.IsPath path →
      (name env l n).1 = Substitution.name env path n) ∧
    (∀ l v, ∀ path, Settled env l.values → l.IsPath path →
      (value env l v).1 = Substitution.value env path v) ∧
    (∀ l fs, ∀ path, Settled env l.values → l.IsPath path →
      (fields env l fs).1 = Substitution.fields env path fs) := by
  -- a name that is entered joins the path, whether its raw value can be resolved or not
  have entered {l : Ledger} {n : Name} {raw : Value} {path : List Name}
      (hv : l.values.get? n = none) (hn : env.get? n = some raw) (hu : n ∉ l.underWay)
      (hp : l.IsPath path)
      (ih : (value env (l.enter n) raw).1 = Substitution.value env (n :: path) raw) :
      (name env l n).1 = Substitution.name env path n := by
    have hnp : n ∉ path := fun hm => hu ((hp n).mp hm).1
    rw [result_of_entered hv hn hu, ih, Substitution.name_of_bound hn hnp,
      Substitution.value_eq_replace]
  apply induct env
  case found =>
    -- a value that is there already is what the name means below the path
    intro l n v hv path hs hp
    rw [name_of_found hv, hs.name_eq hv fun m hm => hp.notMem_keys hm]
  case unknown =>
    intro l n hv hn path hs hp
    rw [name_of_unknown hv hn, Substitution.name_of_unknown hn]
  case cyclic =>
    -- a name under way without a value is on the path
    intro l n raw hv hn hu path hs hp
    rw [name_of_cyclic hv hn hu, Substitution.name_of_cyclic hn ((hp n).mpr ⟨hu, hv⟩)]
  case failed =>
    intro l n raw e l' hv hn hu h ih path hs hp
    exact entered hv hn hu hp (ih _ hs (hp.enter hv))
  case filed =>
    intro l n raw v l' hv hn hu h ih path hs hp
    exact entered hv hn hu hp (ih _ hs (hp.enter hv))
  case number =>
    intro l m path hs hp
    rw [value_number, Substitution.value]
  case foreign =>
    intro l k path hs hp
    rw [value_foreign, Substitution.value]
  case reference =>
    intro l n ih path hs hp
    rw [value_reference, ih path hs hp, Substitution.name]
  case dict =>
    intro l fs ih path hs hp
    rw [value_dict, Substitution.value, ← ih path hs hp]
  case nil =>
    intro l path hs hp
    rw [fields_nil, Substitution.fields]
  case stopped =>
    intro l k v fs e l' h ih path hs hp
    have ih := ih path hs hp
    rw [h] at ih
    rw [fields_cons_of_error h, Substitution.fields, ← ih]
  case cons =>
    intro l k v fs v' l' h ih ihs path hs hp
    have ih := ih path hs hp
    -- the fields behind are resolved with what the first value has added
    have hg : l.Grows env l'.1 := grows_of_value h
    have ihs := ihs path (hg.settled hs) (hp.grows hg)
    rw [h] at ih
    rw [fields_cons_of_ok h, Substitution.fields, ← ih, ← ihs]

end Recursion

/-! ### What a resolver answers and keeps -/

/-- What an answer has done to the resolver that gave it: values have been added at the end,
each noted as resolved, and what was settled is settled still. -/
structure Resolver.Adds {α : Type} (r : Resolver) (a : Answer α) : Prop where
  env : a.resolver.env = r.env
  values : ∃ new : Environment, a.resolver.values = r.values ++ new ∧
    Event.resolvedNames a.events = new.keys
  settled : Settled r.env r.values → Settled r.env a.resolver.values

namespace Resolver

variable (r : Resolver)

/-- The resolver that an answer leaves keeps settled values, if the one before did. -/
theorem Adds.settled_resolver {α : Type} {r : Resolver} {a : Answer α} (h : r.Adds a)
    (hs : Settled r.env r.values) : Settled a.resolver.env a.resolver.values := by
  rw [h.env]
  exact h.settled hs

/-- Values that are there stay. -/
theorem Adds.get?_eq_some {α : Type} {r : Resolver} {a : Answer α} (h : r.Adds a) {n : Name}
    {v : Value} (hn : r.values.get? n = some v) : a.resolver.values.get? n = some v := by
  obtain ⟨new, hv, -⟩ := h.values
  rw [hv]
  exact Entries.get?_append_of_some hn new

/-- A second answer, given by the resolver that the first one left, adds to what that one has
added. -/
theorem Adds.trans {α β : Type} {r : Resolver} {a : Answer α} {b : Answer β} (h : r.Adds a)
    (h' : a.resolver.Adds b) : r.Adds { b with events := a.events ++ b.events } := by
  obtain ⟨new, hv, he⟩ := h.values
  obtain ⟨new', hv', he'⟩ := h'.values
  refine ⟨h'.env.trans h.env, ⟨new ++ new', ?_, ?_⟩, ?_⟩
  · show b.resolver.values = r.values ++ (new ++ new')
    rw [hv', hv, List.append_assoc]
  · rw [Entries.keys_append, ← he, ← he']
    exact List.filterMap_append
  · intro hs
    have hb := h'.settled
    rw [h.env] at hb
    exact hb (h.settled hs)

theorem adds_ofCall {underWay : List Name} {c : Recursion.Resolved ⟨r.values, underWay, []⟩ Value}
    (h : Ledger.Grows r.env ⟨r.values, underWay, []⟩ c.2) : r.Adds (r.ofCall c) := by
  obtain ⟨new, hv, -, he⟩ := h.values
  exact ⟨rfl, ⟨new, hv, by simpa [Event.resolvedNames, ofCall] using he⟩, h.settled⟩

theorem adds_name (n : Name) (underWay : List Name) : r.Adds (r.name n underWay) := by
  rw [name_eq]
  exact r.adds_ofCall ((Recursion.grows r.env).1 _ n).1

theorem adds_value (v : Value) (underWay : List Name) : r.Adds (r.value v underWay) := by
  rw [value_eq]
  exact r.adds_ofCall ((Recursion.grows r.env).2.1 _ v).1

variable {r}

/-- A name that has been answered has its value from then on. -/
theorem get?_of_name {n : Name} {underWay : List Name} {v : Value}
    (h : (r.name n underWay).result = .ok v) :
    (r.name n underWay).resolver.values.get? n = some v := by
  rw [name_eq] at h ⊢
  exact ((Recursion.grows r.env).1 _ n).2 v h

/-- With nothing under way, a resolver that keeps settled values answers what a name means. -/
theorem result_name (hs : Settled r.env r.values) (n : Name) :
    (r.name n []).result = Substitution.name r.env [] n := by
  rw [name_eq]
  exact (Recursion.answers r.env).1 _ n [] hs (by simp [Ledger.IsPath])

/-- With nothing under way, it answers for a value what its references mean. -/
theorem result_value (hs : Settled r.env r.values) (v : Value) :
    (r.value v []).result = Substitution.value r.env [] v := by
  rw [value_eq]
  exact (Recursion.answers r.env).2.1 _ v [] hs (by simp [Ledger.IsPath])

/-- A fresh resolver answers what a name means below the path of all that is under way. -/
theorem result_name_ofEnvironment (env : Environment) (n : Name) (underWay : List Name) :
    ((ofEnvironment env).name n underWay).result = Substitution.name env underWay n := by
  rw [name_eq]
  exact (Recursion.answers env).1 _ n underWay .nil (by simp [Ledger.IsPath, ofEnvironment,
    Entries.get?])

/-! ### Names one after the other -/

theorem names_cons_of_error {n : Name} {e : ResolveError} (h : (r.name n []).result = .error e)
    (ns : List Name) :
    r.names (n :: ns) = ⟨.error e, (r.name n []).resolver, (r.name n []).underWay,
      (r.name n []).events⟩ := by
  rw [names]
  simp only [h]

theorem names_cons_of_ok {n : Name} {v : Value} (h : (r.name n []).result = .ok v)
    (ns : List Name) :
    r.names (n :: ns) =
      { (r.name n []).resolver.names ns with
        events := (r.name n []).events ++ ((r.name n []).resolver.names ns).events } := by
  rw [names]
  simp only [h]

theorem adds_names (r : Resolver) (ns : List Name) : r.Adds (r.names ns) := by
  induction ns generalizing r with
  | nil => exact ⟨rfl, ⟨[], by simp [names], by simp [names, Event.resolvedNames]⟩, id⟩
  | cons n ns ih =>
    have hn := r.adds_name n []
    rcases h : (r.name n []).result with e | v
    · rw [names_cons_of_error h]
      exact ⟨hn.env, hn.values, hn.settled⟩
    · rw [names_cons_of_ok h]
      exact hn.trans (ih (r.name n []).resolver)

/-- All names are answered, with the values that are kept afterwards, or the first name that
means nothing gives its error. -/
theorem result_names (hs : Settled r.env r.values) (ns : List Name) :
    (∀ e, (r.names ns).result = .error e ↔ Substitution.environment.names r.env ns = .error e) ∧
    ∀ c, (r.names ns).result = .ok c →
      (r.names ns).resolver.values = c ∧ ∀ n ∈ ns, n ∈ c.keys := by
  induction ns generalizing r with
  | nil =>
    constructor
    · simp [names, Substitution.environment.names]
    · intro c hc
      cases hc
      exact ⟨rfl, by simp⟩
  | cons n ns ih =>
    have hn := r.adds_name n []
    have hmean := result_name hs n
    rcases h : (r.name n []).result with e | v
    · rw [names_cons_of_error h, Substitution.environment.names, ← hmean, h]
      exact ⟨fun e' => Iff.rfl, fun c hc => by cases hc⟩
    · obtain ⟨herr, hok⟩ := ih (hn.settled_resolver hs)
      rw [names_cons_of_ok h, Substitution.environment.names, ← hmean, h]
      constructor
      · intro e
        apply (herr e).trans
        rw [hn.env]
        exact Outcome.map_eq_error_iff.symm
      · intro c hc
        obtain ⟨hc, hns⟩ := hok c hc
        refine ⟨hc, ?_⟩
        intro m hm
        rcases List.mem_cons.mp hm with rfl | hm
        · rw [← hc]
          have hm := ((r.name m []).resolver.adds_names ns).get?_eq_some (get?_of_name h)
          exact Entries.mem_keys_of_get? hm
        · exact hns m hm

/-- The values that a resolver gives for all bindings are settled, and every binding has one. -/
theorem settled_all (hs : Settled r.env r.values) {c : Environment} (h : r.all.result = .ok c) :
    Settled r.env c ∧ ∀ n, n ∈ c.keys ↔ n ∈ r.env.keys := by
  obtain ⟨hc, hall⟩ := (result_names hs r.env.keys).2 c h
  have hsettled : Settled r.env c := by
    rw [← hc]
    exact (r.adds_names r.env.keys).settled hs
  refine ⟨hsettled, fun n => ⟨?_, hall n⟩⟩
  intro hn
  obtain ⟨raw, hraw⟩ := hsettled.isBound hn
  exact Entries.mem_keys_of_get? hraw

end Resolver

/-! ### The whole environment -/

namespace Substitution

/-- What stands beside each name of a list is what that name means. -/
theorem names_eq_ok {env : Environment} {ns : List Name} {s : Environment}
    (h : environment.names env ns = .ok s) :
    s.keys = ns ∧ ∀ n ∈ ns, ∃ v, s.get? n = some v ∧ name env [] n = .ok v := by
  induction ns generalizing s with
  | nil =>
    cases h
    exact ⟨rfl, by simp⟩
  | cons n ns ih =>
    rw [environment.names] at h
    rcases hn : name env [] n with e | v
    · simp only [hn] at h
      cases h
    · rcases hs : environment.names env ns with e | s'
      · simp only [hn, hs] at h
        cases h
      · simp only [hn, hs, Except.map, Except.ok.injEq] at h
        subst h
        obtain ⟨hk, hv⟩ := ih hs
        refine ⟨by rw [Entries.keys_cons, hk], ?_⟩
        intro m hm
        by_cases hnm : n = m
        · exact ⟨v, by simp [Entries.get?, hnm], hnm ▸ hn⟩
        · obtain ⟨w, hw, hm'⟩ := hv m ((List.mem_cons.mp hm).resolve_left fun h => hnm h.symm)
          exact ⟨w, by simpa [Entries.get?, hnm] using hw, hm'⟩

end Substitution

/-- The resolved values of an environment are settled, and every binding has one. -/
theorem settled_resolve {env c : Environment} (h : resolve env = .ok c) :
    Settled env c ∧ ∀ n, n ∈ c.keys ↔ n ∈ env.keys :=
  Resolver.settled_all (r := .ofEnvironment env) .nil h

/-- What has been resolved is made of numbers and dictionaries only. -/
theorem isResolved_of_resolve {env c : Environment} (h : resolve env = .ok c) :
    ∀ b ∈ c, b.2.IsResolved := by
  intro b hb
  obtain ⟨hs, -⟩ := settled_resolve h
  exact hs.isResolved ((Entries.mem_iff_get? hs.nodup_keys).mp hb)

/-- The value of every name of a resolved environment is what it means. -/
theorem get?_resolve {env c : Environment} (h : resolve env = .ok c) (n : Name) (v : Value) :
    c.get? n = some v ↔ n ∈ env.keys ∧ Substitution.name env [] n = .ok v := by
  obtain ⟨hs, hkeys⟩ := settled_resolve h
  constructor
  · intro hv
    exact ⟨(hkeys n).mp (Entries.mem_keys_of_get? hv), hs.name_eq hv (by simp)⟩
  · rintro ⟨hn, hmean⟩
    obtain ⟨w, hw⟩ := Entries.exists_get?_of_mem_keys ((hkeys n).mpr hn)
    rw [hs.name_eq hw (by simp)] at hmean
    rw [hw, Except.ok.inj hmean]

/-- Resolving an environment fails with the error of plain substitution, and with that only.
Where it succeeds so does substitution, every binding has the same value in both, and no
reference and no foreign value is left. -/
theorem resolve_eq_substitution (env : Environment) :
    (∀ e, resolve env = .error e ↔ Substitution.environment env = .error e) ∧
    ∀ r, resolve env = .ok r →
      ∃ s, Substitution.environment env = .ok s ∧ s.keys = env.keys ∧
        (∀ n, n ∈ r.keys ↔ n ∈ env.keys) ∧
        ∀ n ∈ env.keys, ∃ v, r.get? n = some v ∧ s.get? n = some v ∧ v.IsResolved := by
  have herr := (Resolver.result_names (r := .ofEnvironment env) .nil env.keys).1
  refine ⟨herr, ?_⟩
  intro r hr
  obtain ⟨hs, hkeys⟩ := settled_resolve hr
  rcases hsub : Substitution.environment env with e | s
  · -- substitution cannot fail, for resolving would fail with it
    have hr' : resolve env = .error e := (herr e).mpr hsub
    rw [hr] at hr'
    cases hr'
  · obtain ⟨hsk, hmean⟩ := Substitution.names_eq_ok hsub
    refine ⟨s, rfl, hsk, hkeys, ?_⟩
    intro n hn
    obtain ⟨v, hv⟩ := Entries.exists_get?_of_mem_keys ((hkeys n).mpr hn)
    obtain ⟨w, hw, hname⟩ := hmean n hn
    have hvw : v = w := by
      rw [hs.name_eq hv (by simp)] at hname
      exact Except.ok.inj hname
    exact ⟨v, hv, hvw ▸ hw, hs.isResolved hv⟩

end HexDoc
