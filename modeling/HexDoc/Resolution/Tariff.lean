/-
HexDoc/Resolution/Tariff.lean

What a run may cost.  A tariff puts a price on every turn and says with what it is paid in advance:
with the call whose turn it is, with a suspended call, or with a binding whose name may still be
entered.  The budget of a run adds up what has been paid (`Driver.budget`); once an error is on its
way only the suspended calls count, for no name is entered any more.

A tariff covers the loop if no turn costs more than what has been paid for it, what it leads to
included (`Tariff.Covers`).  There are two: `Tariff.requests` charges for each request for a name
and `Tariff.turns` for each turn.
-/
import Mathlib.Algebra.GroupWithZero.Nat
import HexDoc.Resolution.Driver
import HexDoc.Value.References

namespace HexDoc

/-- Prices for turns, and what is paid for them in advance. -/
structure Tariff where
  /-- The price of a turn that begins with a signal. -/
  turn : Signal → Nat
  /-- What is paid for a call, names that are entered on its way aside. -/
  call : Call → Nat
  /-- What is paid for a suspended call. -/
  suspended : Suspended → Nat
  /-- What is paid for the turn that ends a run. -/
  ending : Nat

namespace Tariff

/-- What is paid for a binding: for its raw value, and for its name that waits for it. -/
def binding (p : Tariff) (b : Name × Value) : Nat :=
  p.call (.value b.2) + p.suspended (.binding b.1)

/-- What is paid for the bindings whose names may still be entered. -/
def fresh (p : Tariff) (env : Environment) (l : Ledger) : Nat :=
  ((env.filter fun b => decide (l.IsFresh b.1)).map p.binding).sum

/-- What has been paid for all that follows on a turn, the calls that were suspended before it
aside. -/
def due (p : Tariff) (env : Environment) (t : Turn) : Nat :=
  match t.action with
  | .asks s c => p.suspended s + (p.call c + p.fresh env t.ledger)
  | .returns _ => p.fresh env t.ledger
  | .raises _ => 0

/-- No turn costs more than what has been paid for it, what it leads to included. -/
structure Covers (p : Tariff) : Prop where
  start : ∀ c, p.turn (.start c) ≤ p.call c
  reference : ∀ n, p.turn (.start (.value (.reference n))) + p.suspended .reference +
    p.call (.name n) ≤ p.call (.value (.reference n))
  dict : ∀ k v rest, p.turn (.start (.value (.dict ((k, v) :: rest)))) +
    p.suspended (.field [] k rest) + p.call (.value v) ≤ p.call (.value (.dict ((k, v) :: rest)))
  send : ∀ v s, p.turn (.send v) ≤ p.suspended s
  next : ∀ v done k k' v' rest, p.turn (.send v) +
    p.suspended (.field (done ++ [(k, v)]) k' rest) + p.call (.value v') ≤
      p.suspended (.field done k ((k', v') :: rest))
  throw : ∀ e s, p.turn (.throw e) ≤ p.suspended s
  send_ending : ∀ v, p.turn (.send v) ≤ p.ending
  throw_ending : ∀ e, p.turn (.throw e) ≤ p.ending

/-- Each request for a name costs one; it is paid with the reference that makes it. -/
def requests : Tariff where
  turn
    | .start (.name _) => 1
    | _ => 0
  call
    | .name _ => 1
    | .value v => v.references.length
  suspended
    | .field _ _ rest => (Value.referencesOfFields rest).length
    | _ => 0
  ending := 0

/-- Each turn costs one. -/
def turns : Tariff where
  turn _ := 1
  call := Call.weight
  suspended := Suspended.weight
  ending := 1

end Tariff

namespace Driver

/-- What has been paid for the turns that are left, the last one aside. -/
def budget (p : Tariff) (env : Environment) (d : Driver) : Nat :=
  (d.stack.map p.suspended).sum +
    match d.signal with
    | .start c => p.call c + p.fresh env d.ledger
    | .send _ => p.fresh env d.ledger
    | .throw _ => 0

/-- What a row of turns costs. -/
def cost (p : Tariff) (ds : List Driver) : Nat :=
  (ds.map fun d => p.turn d.signal).sum

/-- Whether the next turn is that of a request for a name. -/
def requestsName (d : Driver) : Bool :=
  match d.signal with
  | .start (.name _) => true
  | _ => false

end Driver

end HexDoc
