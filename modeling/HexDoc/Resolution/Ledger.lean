/-
HexDoc/Resolution/Ledger.lean

What a resolution keeps: the values found so far, the names whose resolution is under way, and
a record of what has happened.  A name is entered when its resolution starts and left when it
ends, whether it succeeds or not; a value is filed under its name only when it is complete.

`Ledger.fresh` lists the names that a resolution may still enter.  Entering one leaves fewer
(`Ledger.length_fresh_enter_lt`), which is why every resolution ends.
-/
import HexDoc.Resolution.Unvisited
import HexDoc.Text.Position

namespace HexDoc

/-- Why a value cannot be resolved. -/
inductive ResolveError
  /-- A reference to a name that is not bound. -/
  | unknown (name : Name)
  /-- A binding that is needed while it is being resolved. -/
  | cyclic (name : Name)
  /-- A value of a kind that the language does not have. -/
  | foreign (kind : String)
deriving DecidableEq, Repr

/-- The wording of an error. -/
def ResolveError.message : ResolveError → String
  | .unknown n => "Unknown constant: " ++ n
  | .cyclic n => "Cyclic constant dependency detected: " ++ n
  | .foreign k => "Unknown value type: " ++ k

/-- The full text of an error; a reference keeps no place. -/
def ResolveError.render (e : ResolveError) : String :=
  errorLine .nowhere e.message

/-- Something worth noting during a resolution. -/
inductive Event
  /-- The value of a name was there already. -/
  | found (name : Name)
  /-- The value of a name has been resolved. -/
  | resolved (name : Name)
deriving DecidableEq, Repr

/-- The names that a run of events resolves, in order. -/
def Event.resolvedNames (es : List Event) : List Name :=
  es.filterMap fun
    | .resolved n => some n
    | .found _ => none

/-- The state of a resolution. -/
structure Ledger where
  /-- The values resolved so far, in the order in which they were completed. -/
  values : Environment
  /-- The names whose resolution is under way, the latest first. -/
  underWay : List Name
  /-- What has happened, the earliest first. -/
  events : List Event

namespace Ledger

/-- Notes that the value of a name was there already. -/
def find (l : Ledger) (n : Name) : Ledger :=
  { l with events := l.events ++ [.found n] }

/-- Starts the resolution of a name. -/
def enter (l : Ledger) (n : Name) : Ledger :=
  { l with underWay := n :: l.underWay }

/-- Ends the resolution of a name, without a value. -/
def leave (l : Ledger) (n : Name) : Ledger :=
  { l with underWay := l.underWay.filter (· ≠ n) }

/-- Files the value of a name and notes it. -/
def file (l : Ledger) (n : Name) (v : Value) : Ledger :=
  { l with values := l.values.put n v, events := l.events ++ [.resolved n] }

/-- Whether the resolution of a name may still be entered. -/
def IsFresh (l : Ledger) (n : Name) : Prop :=
  l.values.get? n = none ∧ n ∉ l.underWay

instance (l : Ledger) (n : Name) : Decidable (l.IsFresh n) :=
  inferInstanceAs (Decidable (_ ∧ _))

/-- The bound names whose resolution may still be entered. -/
def fresh (env : Environment) (l : Ledger) : List Name :=
  env.keys.filter fun n => decide (l.IsFresh n)

/-! ### Entering leaves fewer fresh names, leaving with a value no more -/

/-- What is fresh after a name has been entered was fresh before. -/
theorem isFresh_of_enter {l : Ledger} {n m : Name} (h : (l.enter n).IsFresh m) : l.IsFresh m :=
  ⟨h.1, fun hm => h.2 (List.mem_cons_of_mem _ hm)⟩

/-- A name that has been entered is not fresh. -/
theorem not_isFresh_enter (l : Ledger) (n : Name) : ¬ (l.enter n).IsFresh n :=
  fun h => h.2 List.mem_cons_self

/-- What is fresh after a name has been left with its value filed was fresh before. -/
theorem isFresh_of_file_leave {l : Ledger} {n m : Name} {v : Value}
    (h : ((l.leave n).file n v).IsFresh m) : l.IsFresh m := by
  obtain ⟨hv, hu⟩ := h
  simp only [file, leave] at hv hu
  rw [Entries.get?_put] at hv
  by_cases h : n = m
  · simp [h] at hv
  · refine ⟨by simpa [h] using hv, fun hm => hu (List.mem_filter.mpr ⟨hm, ?_⟩)⟩
    simpa using fun hmn : m = n => h hmn.symm

/-- A fresh name that is entered is fresh no more. -/
theorem length_fresh_enter_lt {env : Environment} {l : Ledger} {n : Name} (hn : n ∈ env.keys)
    (hl : l.IsFresh n) : (fresh env (l.enter n)).length < (fresh env l).length := by
  refine length_filter_lt_of_imp (fun m hm => ?_) hn (by simpa using hl) ?_
  · exact decide_eq_true (isFresh_of_enter (of_decide_eq_true hm))
  · exact fun h => not_isFresh_enter l n (of_decide_eq_true h)

/-- A name that is left with its value filed does not become fresh. -/
theorem length_fresh_file_leave_le (env : Environment) (l : Ledger) (n : Name) (v : Value) :
    (fresh env ((l.leave n).file n v)).length ≤ (fresh env l).length :=
  length_filter_le_of_imp _ fun _ hm =>
    decide_eq_true (isFresh_of_file_leave (of_decide_eq_true hm))

end Ledger

end HexDoc
