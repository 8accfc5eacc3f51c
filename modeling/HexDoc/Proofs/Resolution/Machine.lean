/-
HexDoc/Proofs/Resolution/Machine.lean

The loop over a stack of suspended calls is the recursion.  A call that is started, whatever waits
below it, goes on as if the recursion had answered at once: its value is sent to the suspended
call below, or its error is thrown into it.

Main statement: `Driver.run_start`, by induction along the calls of the recursion
(`Driver.run_eq_resume`).  With no suspended call below, it says what a resolver answers
(`Resolver.call_eq`, `Resolver.name_eq`, `Resolver.value_eq`).
-/
import HexDoc.Resolution.Recursion
import HexDoc.Resolution.Resolver

namespace HexDoc

/-- A call of the resolver as a call of the recursion. -/
def Recursion.call (env : Environment) (l : Ledger) : Call → Recursion.Resolved l Value
  | .name n => Recursion.name env l n
  | .value v => Recursion.value env l v

namespace Driver

open Recursion

variable {env : Environment} {d d' : Driver} {o : Outcome}

/-! ### Single turns -/

theorem run_of_more (h : d.step env = .more d') : run env d = run env d' := by
  rw [run]
  split <;> rename_i h' <;> cases h.symm.trans h'
  rfl

theorem run_of_halt (h : d.step env = .halt o) : run env d = o := by
  rw [run]
  split <;> rename_i h' <;> cases h.symm.trans h'
  rfl

/-! ### The simulation -/

/-- What becomes of a run when the call at hand has been answered. -/
def resume (env : Environment) (stack : List Suspended) :
    Except ResolveError Value → Ledger → Outcome
  | .ok v, l => run env ⟨.send v, stack, l⟩
  | .error e, l => run env ⟨.throw e, stack, l⟩

/-- With no suspended call below, the answer is the outcome. -/
theorem resume_nil (x : Except ResolveError Value) (l : Ledger) : resume env [] x l = ⟨x, l⟩ := by
  cases x <;> exact run_of_halt rfl

/-- The run that has some fields of a dictionary behind it and the others ahead. -/
def atFields (done : Fields) (l : Ledger) (stack : List Suspended) :
    List (Name × Value) → Driver
  | [] => ⟨.send (.dict done), stack, l⟩
  | (k, v) :: rest => ⟨.start (.value v), .field done k rest :: stack, l⟩

theorem run_enter {l : Ledger} {n : Name} {raw : Value} (hv : l.values.get? n = none)
    (hn : env.get? n = some raw) (hp : n ∉ l.underWay) (stack : List Suspended) :
    run env ⟨.start (.name n), stack, l⟩ =
      run env ⟨.start (.value raw), .binding n :: stack, l.enter n⟩ :=
  run_of_more (by simp [step, Call.begin, after, hv, hn, hp])

theorem run_reference (n : Name) (stack : List Suspended) (l : Ledger) :
    run env ⟨.start (.value (.reference n)), stack, l⟩ =
      run env ⟨.start (.name n), .reference :: stack, l⟩ :=
  run_of_more rfl

theorem run_dict (fs : List (Name × Value)) (stack : List Suspended) (l : Ledger) :
    run env ⟨.start (.value (.dict fs)), stack, l⟩ = run env (atFields [] l stack fs) := by
  rcases fs with - | ⟨⟨k, v⟩, rest⟩ <;> exact run_of_more rfl

theorem run_send_field (done : Fields) (k : Name) (v : Value) (rest : List (Name × Value))
    (stack : List Suspended) (l : Ledger) :
    run env ⟨.send v, .field done k rest :: stack, l⟩ =
      run env (atFields (done ++ [(k, v)]) l stack rest) := by
  rcases rest with - | ⟨⟨k', v'⟩, rest⟩ <;> exact run_of_more rfl

/-- A run goes on as the recursion answers: for a name, for a value, and for the fields that are
left of a dictionary. -/
theorem run_eq_resume (env : Environment) :
    (∀ l n, ∀ stack, run env ⟨.start (.name n), stack, l⟩ =
      resume env stack (name env l n).1 (name env l n).2) ∧
    (∀ l v, ∀ stack, run env ⟨.start (.value v), stack, l⟩ =
      resume env stack (value env l v).1 (value env l v).2) ∧
    (∀ l fs, ∀ done stack, run env (atFields done l stack fs) =
      resume env stack ((fields env l fs).1.map fun fs' => .dict (done ++ fs'))
        (fields env l fs).2) := by
  apply Recursion.induct env
  case found =>
    intro l n v hv stack
    rw [name_of_found hv]
    exact run_of_more (by simp [step, Call.begin, after, hv])
  case unknown =>
    intro l n hv hn stack
    rw [name_of_unknown hv hn]
    exact run_of_more (by simp [step, Call.begin, after, hv, hn])
  case cyclic =>
    intro l n raw hv hn hp stack
    rw [name_of_cyclic hv hn hp]
    exact run_of_more (by simp [step, Call.begin, after, hv, hn, hp])
  case failed =>
    -- the raw value fails, and the error is thrown into the name
    intro l n raw e l' hv hn hp h ih stack
    rw [run_enter hv hn hp, ih, name_of_error hv hn hp h, h]
    exact run_of_more rfl
  case filed =>
    -- the raw value is resolved and sent to the name
    intro l n raw v l' hv hn hp h ih stack
    rw [run_enter hv hn hp, ih, name_of_ok hv hn hp h, h]
    exact run_of_more rfl
  case number =>
    intro l n stack
    rw [value_number]
    exact run_of_more rfl
  case foreign =>
    intro l k stack
    rw [value_foreign]
    exact run_of_more rfl
  case reference =>
    -- a reference hands on whatever becomes of its name
    intro l n ih stack
    rw [run_reference, ih, value_reference]
    rcases (name env l n).1 <;> exact run_of_more rfl
  case dict =>
    intro l fs ih stack
    rw [run_dict, ih, value_dict]
    rfl
  case nil =>
    intro l done stack
    rw [fields_nil]
    simp [atFields, Except.map, resume]
  case stopped =>
    -- the error of a field is thrown into its dictionary
    intro l k v fs e l' h ih done stack
    rw [atFields, ih, fields_cons_of_error h, h]
    exact run_of_more rfl
  case cons =>
    -- the first field joins those that are done, and the induction takes the others from there
    intro l k v fs v' l' h ih ihs done stack
    rw [atFields, ih, fields_cons_of_ok h, h, resume, run_send_field, ihs]
    rcases fields env l'.1 fs with ⟨_ | fs', l''⟩
    · rfl
    · simp [Except.map, fromHere]

/-- A call that is started goes on as the recursion answers. -/
theorem run_start (env : Environment) (l : Ledger) (c : Call) (stack : List Suspended) :
    run env ⟨.start c, stack, l⟩ =
      resume env stack (Recursion.call env l c).1 (Recursion.call env l c).2 := by
  cases c with
  | name n => exact (run_eq_resume env).1 l n stack
  | value v => exact (run_eq_resume env).2.1 l v stack

end Driver

/-! ### What a resolver answers -/

namespace Resolver

/-- The answer that a call of the recursion amounts to. -/
def ofCall {l : Ledger} (r : Resolver) (c : Recursion.Resolved l Value) : Answer Value :=
  ⟨c.1, ⟨r.env, c.2.1.values⟩, c.2.1.underWay, c.2.1.events⟩

theorem call_eq (r : Resolver) (underWay : List Name) (c : Call) :
    r.call underWay c = r.ofCall (Recursion.call r.env ⟨r.values, underWay, []⟩ c) := by
  simp only [call, Driver.run_start, Driver.resume_nil, ofCall]

theorem name_eq (r : Resolver) (n : Name) (underWay : List Name) :
    r.name n underWay = r.ofCall (Recursion.name r.env ⟨r.values, underWay, []⟩ n) :=
  r.call_eq underWay (.name n)

theorem value_eq (r : Resolver) (v : Value) (underWay : List Name) :
    r.value v underWay = r.ofCall (Recursion.value r.env ⟨r.values, underWay, []⟩ v) :=
  r.call_eq underWay (.value v)

/-- What is under way after a call was under way before it, whatever comes of the call. -/
theorem underWay_call (r : Resolver) (underWay : List Name) (c : Call) :
    (r.call underWay c).underWay = underWay := by
  rw [call_eq]
  exact (Recursion.call r.env ⟨r.values, underWay, []⟩ c).2.2

end Resolver

end HexDoc
