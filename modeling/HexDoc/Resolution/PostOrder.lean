/-
HexDoc/Resolution/PostOrder.lean

The depth-first post-order of the references between bindings: roots in the order of the
environment, the references of each raw value from left to right, and every name after all
that it leads to.  A name that has been listed is not listed again; one that is not bound is
passed over, and so is one that leads back to itself.
-/
import HexDoc.Resolution.Unvisited
import HexDoc.Value.References

namespace HexDoc.PostOrder

/-- Lists the names reached from `names` after those listed already, from below a path. -/
def visit (env : Environment) (path listed : List Name) : List Name → List Name
  | [] => listed
  | n :: ns =>
    if n ∈ listed then visit env path listed ns
    else
      match _hn : env.get? n with
      | none => visit env path listed ns
      | some raw =>
        if _hp : n ∈ path then visit env path listed ns
        else visit env path (visit env (n :: path) listed raw.references ++ [n]) ns
termination_by ns => ((unvisited env path).length, ns.length)
decreasing_by
  · exact Prod.Lex.right _ (by simp)
  · exact Prod.Lex.right _ (by simp)
  · exact Prod.Lex.right _ (by simp)
  · exact Prod.Lex.left _ _ (length_unvisited_cons_lt _hn _hp)
  · exact Prod.Lex.right _ (by simp)

/-- The names of an environment in depth-first post-order. -/
def names (env : Environment) : List Name :=
  visit env [] [] env.keys

end HexDoc.PostOrder
