/-
HexDoc/Proofs/Resolution/History.lean

A resolver over its whole life.  It is asked for names, for values and for all bindings, in any
order and with any names under way, and each time it answers or fails.  `History` keeps the
resolver together with all that has happened to it.

Whatever is asked and whatever comes of it, a question only adds settled values and notes each
of them (`Resolver.adds_ask`); so does a row of questions, by induction
(`History.keeps_after`).

Main statements: what the values of a resolver are after any questions, failed ones included
(`History.values_after_question`), and that earlier questions do not matter to what is answered
with nothing under way (`History.answers_as_fresh`).
-/
import HexDoc.Proofs.Resolution.Meaning
import Mathlib.Data.List.Induction

namespace HexDoc

/-! ### Questions -/

/-- What a resolver can be asked for: the value of a name or the resolution of a value, each
with the names that count as under way, or all bindings. -/
inductive Question
  | name (n : Name) (underWay : List Name)
  | value (v : Value) (underWay : List Name)
  | all

/-- An answer with its result changed. -/
def Answer.map {α β : Type} (f : α → β) (a : Answer α) : Answer β :=
  ⟨a.result.map f, a.resolver, a.underWay, a.events⟩

/-- The answer to a question: a value, or the resolved bindings. -/
def Resolver.ask (r : Resolver) : Question → Answer (Value ⊕ Environment)
  | .name n underWay => (r.name n underWay).map .inl
  | .value v underWay => (r.value v underWay).map .inl
  | .all => r.all.map .inr

/-- A resolver with all that has happened to it. -/
structure History where
  resolver : Resolver
  /-- What has happened, the earliest first. -/
  events : List Event

namespace History

/-- A resolver that has not been asked anything. -/
def start (env : Environment) : History :=
  ⟨.ofEnvironment env, []⟩

/-- One more question. -/
def ask (h : History) (q : Question) : History :=
  ⟨(h.resolver.ask q).resolver, h.events ++ (h.resolver.ask q).events⟩

/-- Questions one after the other, the first of them to a fresh resolver. -/
def after (env : Environment) (qs : List Question) : History :=
  qs.foldl ask (start env)

theorem after_concat (env : Environment) (qs : List Question) (q : Question) :
    after env (qs ++ [q]) = (after env qs).ask q :=
  List.foldl_append

end History

/-! ### What every question keeps -/

namespace Resolver

theorem Adds.map {α β : Type} {r : Resolver} {a : Answer α} (h : r.Adds a) (f : α → β) :
    r.Adds (a.map f) :=
  ⟨h.env, h.values, h.settled⟩

/-- A question adds settled values at the end and notes each of them. -/
theorem adds_ask (r : Resolver) (q : Question) : r.Adds (r.ask q) := by
  cases q with
  | name n underWay => exact (r.adds_name n underWay).map _
  | value v underWay => exact (r.adds_value v underWay).map _
  | all => exact (r.adds_names r.env.keys).map _

end Resolver

namespace History

/-- What every question keeps: the environment, that the values are settled, and that each of
them has been noted once, when it came. -/
structure Keeps (env : Environment) (h : History) : Prop where
  env_eq : h.resolver.env = env
  settled : Settled env h.resolver.values
  noted : Event.resolvedNames h.events = h.resolver.values.keys

variable {env : Environment} {h : History}

theorem keeps_start (env : Environment) : (start env).Keeps env :=
  ⟨rfl, .nil, rfl⟩

theorem Keeps.ask (hk : h.Keeps env) (q : Question) : (h.ask q).Keeps env := by
  obtain ⟨henv, hvalues, hsettled⟩ := h.resolver.adds_ask q
  obtain ⟨new, hv, he⟩ := hvalues
  refine ⟨henv.trans hk.env_eq, ?_, ?_⟩
  · rw [hk.env_eq] at hsettled
    exact hsettled hk.settled
  · show Event.resolvedNames (h.events ++ (h.resolver.ask q).events) =
      (h.resolver.ask q).resolver.values.keys
    rw [hv, Entries.keys_append, ← he, ← hk.noted]
    exact List.filterMap_append

theorem keeps_after (env : Environment) (qs : List Question) : (after env qs).Keeps env := by
  induction qs using List.reverseRecOn with
  | nil => exact keeps_start env
  | append_singleton qs q ih =>
    rw [after_concat]
    exact ih.ask q

end History

/-! ### The values of a resolver -/

/-- What the values of a resolver for an environment are like. -/
structure Resolver.IsFaithful (env : Environment) (r : Resolver) : Prop where
  /-- The environment is the one that the resolver started with. -/
  env_eq : r.env = env
  /-- No name has two values. -/
  nodup : r.values.keys.Nodup
  /-- Only bound names have values. -/
  bound : ∀ n ∈ r.values.keys, n ∈ env.keys
  /-- A value is the raw value of its name with every reference replaced, all the way down; it is
  made of numbers and dictionaries only. -/
  substituted : ∀ n v, (n, v) ∈ r.values →
    ∃ raw, env.get? n = some raw ∧ Substitution.value env [] raw = .ok v ∧ v.IsResolved
  /-- What a name refers to has got its value before. -/
  closed : ∀ before n v rest, r.values = before ++ (n, v) :: rest →
    ∀ m, env.Refers n m → m ∈ Entries.keys before

namespace Settled

variable {env c : Environment}

/-- A settled value is its raw value with every reference replaced, all the way down. -/
theorem substituted (h : Settled env c) {n : Name} {v : Value} (hn : (n, v) ∈ c) :
    ∃ raw, env.get? n = some raw ∧ Substitution.value env [] raw = .ok v ∧ v.IsResolved := by
  obtain ⟨before, rest, hc⟩ := List.append_of_mem hn
  obtain ⟨hbefore, raw, hraw, hv⟩ := h.of_eq_append hc
  refine ⟨raw, hraw, ?_, ?_⟩
  · rw [Substitution.value_eq_replace]
    apply Value.replace_mono hv
    intro m _ u hu
    exact hbefore.name_eq (Environment.valueOf_eq_ok_iff.mp hu) (by simp)
  · apply Value.isResolved_of_replace hv
    intro m _ u hu
    exact hbefore.isResolved (Environment.valueOf_eq_ok_iff.mp hu)

/-- A name has the same value wherever it is settled: both are what the name means. -/
theorem value_unique {c' : Environment} (h : Settled env c) (h' : Settled env c') {n : Name}
    {v v' : Value} (hv : c.get? n = some v) (hv' : c'.get? n = some v') : v = v' := by
  have hmean : Substitution.name env [] n = .ok v := h.name_eq hv (by simp)
  have hmean' : Substitution.name env [] n = .ok v' := h'.name_eq hv' (by simp)
  exact Except.ok.inj (hmean.symm.trans hmean')

theorem isFaithful {r : Resolver} (henv : r.env = env) (h : Settled env r.values) :
    r.IsFaithful env where
  env_eq := henv
  nodup := h.nodup_keys
  bound := by
    intro n hn
    obtain ⟨raw, hraw⟩ := h.isBound hn
    exact Entries.mem_keys_of_get? hraw
  substituted _ _ := h.substituted
  closed _ _ _ _ hc _ hm := h.mem_of_refers hc hm

end Settled

namespace History

/-- After any questions and one more, answered or not: the values of the resolver are faithful
to its environment, the last question has only added values at the end and noted exactly those,
in their order, and no name has been noted twice since the start. -/
theorem values_after_question (env : Environment) (qs : List Question) (q : Question) :
    let before := after env qs
    let now := after env (qs ++ [q])
    now.resolver.IsFaithful env ∧
      (∃ new : Environment, now.resolver.values = before.resolver.values ++ new ∧
        Event.resolvedNames (before.resolver.ask q).events = new.keys) ∧
      (Event.resolvedNames now.events).Nodup := by
  intro before now
  have hnow : now = before.ask q := after_concat env qs q
  have hkeeps : now.Keeps env := keeps_after env (qs ++ [q])
  refine ⟨hkeeps.settled.isFaithful hkeeps.env_eq, ?_, ?_⟩
  · rw [hnow]
    exact (before.resolver.adds_ask q).values
  · rw [hkeeps.noted]
    exact hkeeps.settled.nodup_keys

/-! ### Earlier questions do not matter -/

/-- A resolver that has been asked any questions answers for names and for values, with nothing
under way, as a fresh one does.  For all bindings it fails with the same error, or it succeeds
as well and gives every binding the same value. -/
theorem answers_as_fresh (env : Environment) (qs : List Question) :
    let r := (after env qs).resolver
    let fresh := Resolver.ofEnvironment env
    (∀ n, (r.name n []).result = (fresh.name n []).result) ∧
      (∀ v, (r.value v []).result = (fresh.value v []).result) ∧
      (∀ e, r.all.result = .error e ↔ fresh.all.result = .error e) ∧
      ((∃ c, r.all.result = .ok c) ↔ ∃ c, fresh.all.result = .ok c) ∧
      ∀ c c', r.all.result = .ok c → fresh.all.result = .ok c' →
        ∀ n ∈ env.keys, ∃ v, c.get? n = some v ∧ c'.get? n = some v := by
  intro r fresh
  obtain ⟨henv, hs, -⟩ := keeps_after env qs
  have hr : Settled r.env r.values := by rwa [henv]
  have hfresh : Settled fresh.env fresh.values := .nil
  have herr : ∀ e, r.all.result = .error e ↔ fresh.all.result = .error e := by
    intro e
    calc r.all.result = .error e
        ↔ Substitution.environment.names r.env r.env.keys = .error e :=
          (Resolver.result_names hr r.env.keys).1 e
      _ ↔ Substitution.environment.names env env.keys = .error e := by rw [henv]
      _ ↔ fresh.all.result = .error e := ((Resolver.result_names hfresh env.keys).1 e).symm
  refine ⟨?_, ?_, herr, Outcome.exists_ok_iff_of_error_iff herr, ?_⟩
  · intro n
    rw [Resolver.result_name hr, Resolver.result_name hfresh, henv]
    rfl
  · intro v
    rw [Resolver.result_value hr, Resolver.result_value hfresh, henv]
    rfl
  · intro c c' hc hc' n hn
    obtain ⟨hcs, hck⟩ := Resolver.settled_all hr hc
    obtain ⟨hcs', hck'⟩ := Resolver.settled_all hfresh hc'
    rw [henv] at hcs hck
    obtain ⟨v, hv⟩ := Entries.exists_get?_of_mem_keys ((hck n).mpr hn)
    obtain ⟨v', hv'⟩ := Entries.exists_get?_of_mem_keys ((hck' n).mpr hn)
    exact ⟨v, hv, hcs.value_unique hcs' hv hv' ▸ hv'⟩

end History

end HexDoc
