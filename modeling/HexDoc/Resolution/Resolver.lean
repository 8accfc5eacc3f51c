/-
HexDoc/Resolution/Resolver.lean

A resolver answers for one environment and remembers every value it has completed, so no
binding is resolved twice.  Each question is asked with the names that count as under way; a
reference to one of them is a cycle.

`Resolver.all` resolves every binding of the environment, in its order.  The values it returns
are in the order of completion, a binding after everything that it refers to; `resolve` does so
from scratch.
-/
import HexDoc.Resolution.Driver

namespace HexDoc

/-- An environment with the values resolved so far. -/
structure Resolver where
  env : Environment
  /-- The resolved values, in the order of completion. -/
  values : Environment

/-- What comes of asking a resolver. -/
structure Answer (α : Type) where
  result : Except ResolveError α
  /-- The resolver afterwards. -/
  resolver : Resolver
  /-- The names under way afterwards. -/
  underWay : List Name
  /-- What has happened meanwhile. -/
  events : List Event

namespace Resolver

/-- A resolver that has resolved nothing yet. -/
def ofEnvironment (env : Environment) : Resolver :=
  ⟨env, []⟩

/-- Runs a call. -/
def call (r : Resolver) (underWay : List Name) (c : Call) : Answer Value :=
  let o := Driver.run r.env ⟨.start c, [], ⟨r.values, underWay, []⟩⟩
  ⟨o.result, ⟨r.env, o.ledger.values⟩, o.ledger.underWay, o.ledger.events⟩

/-- Resolves a name. -/
def name (r : Resolver) (n : Name) (underWay : List Name) : Answer Value :=
  r.call underWay (.name n)

/-- Resolves a value. -/
def value (r : Resolver) (v : Value) (underWay : List Name) : Answer Value :=
  r.call underWay (.value v)

/-- Resolves names one after the other, up to the first error; nothing else is under way. -/
def names (r : Resolver) : List Name → Answer Environment
  | [] => ⟨.ok r.values, r, [], []⟩
  | n :: ns =>
    let a := r.name n []
    match a.result with
    | .error e => ⟨.error e, a.resolver, a.underWay, a.events⟩
    | .ok _ =>
      let b := a.resolver.names ns
      ⟨b.result, b.resolver, b.underWay, a.events ++ b.events⟩

/-- Resolves every binding. -/
def all (r : Resolver) : Answer Environment :=
  r.names r.env.keys

end Resolver

/-- The resolved values of an environment, in the order of completion. -/
def resolve (env : Environment) : Except ResolveError Environment :=
  (Resolver.ofEnvironment env).all.result

end HexDoc
