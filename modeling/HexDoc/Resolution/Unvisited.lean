/-
HexDoc/Resolution/Unvisited.lean

Following references through an environment ends because every name on the way is bound and no
name is entered twice.  `unvisited` lists the bound names that are not on a path, and entering
one of them leaves fewer (`length_unvisited_cons_lt`).
-/
import HexDoc.Value.Basic

namespace HexDoc

theorem length_filter_le_of_imp {α : Type} {p q : α → Bool} (xs : List α)
    (h : ∀ x, p x = true → q x = true) : (xs.filter p).length ≤ (xs.filter q).length := by
  induction xs with
  | nil => exact Nat.le_refl _
  | cons x xs ih =>
    by_cases hp : p x = true
    · simp [hp, h x hp, ih]
    · by_cases hq : q x = true <;> simp [hp, hq] <;> omega

theorem length_filter_lt_of_imp {α : Type} {p q : α → Bool} {xs : List α} {x : α}
    (h : ∀ x, p x = true → q x = true) (hx : x ∈ xs) (hq : q x = true) (hp : ¬ p x = true) :
    (xs.filter p).length < (xs.filter q).length := by
  induction xs with
  | nil => cases hx
  | cons y xs ih =>
    have hle := length_filter_le_of_imp xs h
    rcases List.mem_cons.mp hx with rfl | hx
    · simp [hp, hq]; omega
    · have := ih hx
      by_cases hpy : p y = true
      · simp [hpy, h y hpy, this]
      · by_cases hqy : q y = true <;> simp [hpy, hqy] <;> omega

/-- The bound names that are not on a path. -/
def unvisited (env : Environment) (path : List Name) : List Name :=
  env.keys.filter fun n => decide (n ∉ path)

/-- A bound name that is entered leaves fewer unvisited. -/
theorem length_unvisited_cons_lt {env : Environment} {path : List Name} {n : Name} {v : Value}
    (hn : env.get? n = some v) (hp : n ∉ path) :
    (unvisited env (n :: path)).length < (unvisited env path).length := by
  have hk : n ∈ env.keys := (Entries.isSome_get? env n).mp (by simp [hn])
  refine length_filter_lt_of_imp (fun m hm => ?_) hk (by simpa using hp) (by simp)
  exact decide_eq_true fun h => of_decide_eq_true hm (List.mem_cons_of_mem _ h)

end HexDoc
