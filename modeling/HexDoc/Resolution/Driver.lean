/-
HexDoc/Resolution/Driver.lean

The loop that runs the calls of the resolver one at a time.  A call that needs the answer of
another one is suspended, and a list keeps the suspended calls, the innermost first.  Chains of
references and nested dictionaries make that list long, never the call stack.

A turn starts a call, sends a value to the innermost suspended one, or throws an error into it;
whatever that call does, the next turn is for the call that it asks for, or for the one below it.
An error goes down the list one call at a time, so each suspended call is there to clean up.

Each turn that enters or leaves a name leaves a `Mark`; `Driver.trail` lists the states that a
run goes through.

Main statement: every turn throws, enters a fresh name or leaves less to do
(`Driver.step_decreases`), so `Driver.run` ends.
-/
import HexDoc.Resolution.Ledger

namespace HexDoc

/-- A call of the resolver. -/
inductive Call
  /-- Resolve a name. -/
  | name (n : Name)
  /-- Resolve a value. -/
  | value (v : Value)

/-- A call that waits for the answer of another one. -/
inductive Suspended
  /-- A name that waits for its value. -/
  | binding (n : Name)
  /-- A reference that waits for the value of its name. -/
  | reference
  /-- A dictionary that waits for the value of a field: the fields resolved so far, the field it
  is for and the raw fields after. -/
  | field (done : Fields) (key : Name) (rest : Fields)

/-- What a call does with its turn. -/
inductive Action
  /-- It asks for another call and waits. -/
  | asks (s : Suspended) (c : Call)
  | returns (v : Value)
  | raises (e : ResolveError)

/-- The resolution of a name starts, or it is cleaned up. -/
inductive Mark
  | entered (n : Name)
  | left (n : Name)
deriving DecidableEq, Repr

/-- A turn of a call: what it does, the ledger afterwards, and the mark that it leaves. -/
structure Turn where
  action : Action
  ledger : Ledger
  mark? : Option Mark

/-- The first turn of a call. -/
def Call.begin (env : Environment) (l : Ledger) : Call → Turn
  | .name n =>
    match l.values.get? n with
    | some v => ⟨.returns v, l.find n, none⟩
    | none =>
      match env.get? n with
      | none => ⟨.raises (.unknown n), l, none⟩
      | some raw =>
        if n ∈ l.underWay then ⟨.raises (.cyclic n), l, none⟩
        else ⟨.asks (.binding n) (.value raw), l.enter n, some (.entered n)⟩
  | .value (.number m) => ⟨.returns (.number m), l, none⟩
  | .value (.reference n) => ⟨.asks .reference (.name n), l, none⟩
  | .value (.dict []) => ⟨.returns (.dict []), l, none⟩
  | .value (.dict ((k, v) :: rest)) => ⟨.asks (.field [] k rest) (.value v), l, none⟩
  | .value (.foreign k) => ⟨.raises (.foreign k), l, none⟩

/-- The turn of a suspended call that is sent the value it waits for. -/
def Suspended.receive (l : Ledger) (v : Value) : Suspended → Turn
  | .binding n => ⟨.returns v, (l.leave n).file n v, some (.left n)⟩
  | .reference => ⟨.returns v, l, none⟩
  | .field done k [] => ⟨.returns (.dict (done ++ [(k, v)])), l, none⟩
  | .field done k ((k', v') :: rest) =>
    ⟨.asks (.field (done ++ [(k, v)]) k' rest) (.value v'), l, none⟩

/-- The turn of a suspended call into which an error is thrown. -/
def Suspended.abort (l : Ledger) (e : ResolveError) : Suspended → Turn
  | .binding n => ⟨.raises e, l.leave n, some (.left n)⟩
  | .reference | .field .. => ⟨.raises e, l, none⟩

/-- What the next turn begins with. -/
inductive Signal
  | start (c : Call)
  | send (v : Value)
  | throw (e : ResolveError)

/-- The loop between two turns. -/
structure Driver where
  signal : Signal
  /-- The suspended calls, the innermost first. -/
  stack : List Suspended
  ledger : Ledger

/-- How a run ends. -/
structure Outcome where
  result : Except ResolveError Value
  ledger : Ledger

/-- What a turn leads to. -/
inductive Driver.Next
  | more (d : Driver)
  | halt (o : Outcome)

namespace Driver

/-- Goes on after a turn. -/
def after (t : Turn) (stack : List Suspended) : Driver :=
  match t.action with
  | .asks s c => ⟨.start c, s :: stack, t.ledger⟩
  | .returns v => ⟨.send v, stack, t.ledger⟩
  | .raises e => ⟨.throw e, stack, t.ledger⟩

/-- One turn.  A value or an error that no suspended call waits for ends the run. -/
def step (env : Environment) (d : Driver) : Next :=
  match d.signal, d.stack with
  | .start c, stack => .more (after (c.begin env d.ledger) stack)
  | .send v, [] => .halt ⟨.ok v, d.ledger⟩
  | .send v, s :: stack => .more (after (s.receive d.ledger v) stack)
  | .throw e, [] => .halt ⟨.error e, d.ledger⟩
  | .throw e, s :: stack => .more (after (s.abort d.ledger e) stack)

/-- The mark that the next turn leaves. -/
def mark? (env : Environment) (d : Driver) : Option Mark :=
  match d.signal, d.stack with
  | .start c, _ => (c.begin env d.ledger).mark?
  | .send v, s :: _ => (s.receive d.ledger v).mark?
  | .throw e, s :: _ => (s.abort d.ledger e).mark?
  | _, [] => none

/-- The names whose resolution is suspended, the innermost first. -/
def suspended (d : Driver) : List Name :=
  d.stack.filterMap fun
    | .binding n => some n
    | _ => none

end Driver

/-! ### Why a run ends -/

mutual

/-- Half the number of turns that a value asks for by itself, or more. -/
def Value.weight : Value → Nat
  | .number _ => 1
  | .foreign _ => 1
  | .reference _ => 2
  | .dict fs => Value.fieldsWeight fs + 1

/-- Half the number of turns that fields ask for by themselves, or more. -/
def Value.fieldsWeight : List (Name × Value) → Nat
  | [] => 0
  | (_, v) :: fs => v.weight + 1 + fieldsWeight fs

end

/-- The number of turns that a call asks for by itself, or more. -/
def Call.weight : Call → Nat
  | .name _ => 1
  | .value v => 2 * v.weight

/-- The number of turns that a suspended call asks for by itself, or more. -/
def Suspended.weight : Suspended → Nat
  | .binding _ => 1
  | .reference => 1
  | .field _ _ rest => 2 * Value.fieldsWeight rest + 1

/-- The number of turns that the next signal asks for by itself, or more. -/
def Signal.weight : Signal → Nat
  | .start c => c.weight
  | .send _ | .throw _ => 0

namespace Driver

/-- The number of turns that are left unless a name is entered, or more. -/
def weight (d : Driver) : Nat :=
  d.signal.weight + d.stack.foldr (fun s n => s.weight + n) 0

/-- Whether no error has been thrown, as a number, and how many names may still be entered then. -/
def hope (env : Environment) (d : Driver) : Nat :=
  match d.signal with
  | .throw _ => 0
  | _ => (Ledger.fresh env d.ledger).length + 1

/-- A turn that starts no error and enters or leaves no name leaves less to do. -/
theorem decreases_of_weight_lt {env : Environment} {d d' : Driver}
    (hhope : d'.hope env ≤ d.hope env) (hweight : d'.weight < d.weight) :
    Prod.Lex (· < ·) (· < ·) (d'.hope env, d'.weight) (d.hope env, d.weight) := by
  rcases Nat.lt_or_eq_of_le hhope with hlt | heq
  · exact Prod.Lex.left _ _ hlt
  · rw [heq]
    exact Prod.Lex.right _ hweight

/-- Every turn raises an error, enters a fresh name or leaves less to do. -/
theorem step_decreases {env : Environment} {d d' : Driver} (h : d.step env = .more d') :
    Prod.Lex (· < ·) (· < ·) (d'.hope env, d'.weight) (d.hope env, d.weight) := by
  obtain ⟨signal, stack, ledger⟩ := d
  cases signal with
  | start c =>
    cases h
    have raised (e : ResolveError) (l : Ledger) : Prod.Lex (· < ·) (· < ·)
        (hope env ⟨.throw e, stack, l⟩, weight ⟨.throw e, stack, l⟩)
        (hope env ⟨.start c, stack, ledger⟩, weight ⟨.start c, stack, ledger⟩) :=
      Prod.Lex.left _ _ (Nat.succ_pos _)
    cases c with
    | name n =>
      simp only [Call.begin]
      split
      · exact decreases_of_weight_lt (Nat.le_refl _) (by
          simp [after, weight, Signal.weight, Call.weight])
      · rename_i hv
        split
        · exact raised _ _
        · rename_i raw hr
          split
          · exact raised _ _
          · rename_i hu
            have hn : n ∈ env.keys := (Entries.isSome_get? env n).mp (by simp [hr])
            exact Prod.Lex.left _ _
              (Nat.succ_lt_succ (Ledger.length_fresh_enter_lt hn ⟨hv, hu⟩))
    | value v =>
      cases v with
      | number m =>
        exact decreases_of_weight_lt (Nat.le_refl _) (by
          simp [after, Call.begin, weight, Signal.weight, Call.weight, Value.weight])
      | reference n =>
        exact decreases_of_weight_lt (Nat.le_refl _) (by
          simp [after, Call.begin, weight, Signal.weight, Call.weight, Value.weight,
            Suspended.weight]; omega)
      | foreign k => exact raised _ _
      | dict fs =>
        rcases fs with - | ⟨⟨k, v⟩, rest⟩
        · exact decreases_of_weight_lt (Nat.le_refl _) (by
            simp [after, Call.begin, weight, Signal.weight, Call.weight, Value.weight])
        · exact decreases_of_weight_lt (Nat.le_refl _) (by
            simp [after, Call.begin, weight, Signal.weight, Call.weight, Value.weight,
              Suspended.weight, Value.fieldsWeight]; omega)
  | send v =>
    rcases stack with - | ⟨s, stack⟩
    · cases h
    · cases h
      cases s with
      | binding n =>
        have hle := Ledger.length_fresh_file_leave_le env ledger n v
        exact decreases_of_weight_lt (Nat.succ_le_succ hle) (by
          simp [after, Suspended.receive, weight, Signal.weight, Suspended.weight])
      | reference =>
        exact decreases_of_weight_lt (Nat.le_refl _) (by
          simp [after, Suspended.receive, weight, Signal.weight, Suspended.weight])
      | field done k rest =>
        rcases rest with - | ⟨⟨k', v'⟩, rest⟩
        · exact decreases_of_weight_lt (Nat.le_refl _) (by
            simp [after, Suspended.receive, weight, Signal.weight, Suspended.weight])
        · exact decreases_of_weight_lt (Nat.le_refl _) (by
            simp [after, Suspended.receive, weight, Signal.weight, Call.weight, Suspended.weight,
              Value.fieldsWeight]; omega)
  | throw e =>
    rcases stack with - | ⟨s, stack⟩
    · cases h
    · cases h
      have hpos : 0 < s.weight := by cases s <;> simp [Suspended.weight]
      cases s <;> exact decreases_of_weight_lt (Nat.le_refl _) (by
        simp [after, Suspended.abort, weight, Signal.weight]; exact hpos)

/-- Runs to the end. -/
def run (env : Environment) (d : Driver) : Outcome :=
  match _h : d.step env with
  | .halt o => o
  | .more d' => run env d'
termination_by (d.hope env, d.weight)
decreasing_by exact step_decreases _h

/-- The states that a run goes through, the first and the last included. -/
def trail (env : Environment) (d : Driver) : List Driver :=
  match _h : d.step env with
  | .halt _ => [d]
  | .more d' => d :: trail env d'
termination_by (d.hope env, d.weight)
decreasing_by exact step_decreases _h

/-- The marks that a row of turns leaves. -/
def marks (env : Environment) (ds : List Driver) : List Mark :=
  ds.filterMap (mark? env)

end Driver

/-- The names that are entered and not yet left after some marks, the latest first.  Only the
latest of them may be left. -/
def Mark.openAfter? : List Name → List Mark → Option (List Name)
  | names, [] => some names
  | names, .entered n :: ms => openAfter? (n :: names) ms
  | n :: names, .left m :: ms => if m = n then openAfter? names ms else none
  | [], .left _ :: _ => none

end HexDoc
