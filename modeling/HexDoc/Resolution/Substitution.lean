/-
HexDoc/Resolution/Substitution.lean

What a reference means: the raw value of the name it names, with every reference in it replaced
in the same way.  Nothing is remembered; only the names on the path from the start are known,
and a reference back to one of them is a cycle.

Beside the resolver, which remembers every value it has completed, this says what the values
are and which error comes first.
-/
import HexDoc.Resolution.Ledger

namespace HexDoc.Substitution

mutual

/-- A value with its references replaced. -/
def value (env : Environment) (path : List Name) : Value → Except ResolveError Value
  | .number n => .ok (.number n)
  | .foreign k => .error (.foreign k)
  | .reference n =>
    match _hn : env.get? n with
    | none => .error (.unknown n)
    | some raw => if _hp : n ∈ path then .error (.cyclic n) else value env (n :: path) raw
  | .dict fs => (fields env path fs).map .dict
termination_by v => ((unvisited env path).length, sizeOf v)
decreasing_by
  · exact Prod.Lex.left _ _ (length_unvisited_cons_lt _hn _hp)
  · exact Prod.Lex.right _ (by simp)

/-- Fields with the references in their values replaced. -/
def fields (env : Environment) (path : List Name) :
    List (Name × Value) → Except ResolveError (List (Name × Value))
  | [] => .ok []
  | (k, v) :: fs =>
    match value env path v with
    | .error e => .error e
    | .ok v' => (fields env path fs).map ((k, v') :: ·)
termination_by fs => ((unvisited env path).length, sizeOf fs)
decreasing_by
  · exact Prod.Lex.right _ (by simp only [List.cons.sizeOf_spec, Prod.mk.sizeOf_spec]; omega)
  · exact Prod.Lex.right _ (by simp only [List.cons.sizeOf_spec, Prod.mk.sizeOf_spec]; omega)

end

/-- What a name stands for. -/
def name (env : Environment) (path : List Name) (n : Name) : Except ResolveError Value :=
  value env path (.reference n)

/-- Every binding with its references replaced, in the order of the environment. -/
def environment (env : Environment) : Except ResolveError Environment :=
  names env.keys
where
  /-- What the names of a list stand for, up to the first error. -/
  names : List Name → Except ResolveError Environment
    | [] => .ok []
    | n :: ns =>
      match name env [] n with
      | .error e => .error e
      | .ok v => (names ns).map ((n, v) :: ·)

end HexDoc.Substitution
