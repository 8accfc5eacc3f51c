/-
HexDoc/Proofs/Resolution/Budget.lean

No work is done twice.  Under a tariff that covers the loop, the price of every turn comes out of
the budget (`Tariff.Covers.step`): following a reference may lead to a value that is larger than
all that is left of the others, but that value has been paid for with its binding, and a binding
whose name has been entered is not paid for again.  So a whole run costs no more than its budget at
the start (`Tariff.Covers.trail`), and neither do the runs for all bindings, one after the other
(`Tariff.Covers.loopsOfNames`), for a value that has been filed stays filed.

Main statement: whatever has been asked before, a question is answered by loops that end, after a
number of turns that is linear in the size of the values; no name is entered twice meanwhile, and
there is one request for each name asked for and for each reference at most (`work_of_ask`).
-/
import Mathlib.Algebra.Order.BigOperators.Group.List
import Mathlib.Algebra.Order.Group.Nat
import HexDoc.Proofs.Resolution.UnderWay
import HexDoc.Resolution.Tariff

namespace HexDoc

open Driver

namespace Driver

variable {env : Environment} {d last : Driver} {o : Outcome}

/-- A run ends with a value or with an error that nothing waits for. -/
theorem halt_cases (h : last.step env = .halt o) :
    last.stack = [] ∧
      ((∃ v, last.signal = .send v ∧ o = ⟨.ok v, last.ledger⟩) ∨
        ∃ e, last.signal = .throw e ∧ o = ⟨.error e, last.ledger⟩) := by
  refine ⟨(stack_of_halt h).1, ?_⟩
  obtain ⟨signal, stack, ledger⟩ := last
  cases signal with
  | start c => cases h
  | send v =>
    cases stack <;> cases h
    exact .inl ⟨v, rfl, rfl⟩
  | throw e =>
    cases stack <;> cases h
    exact .inr ⟨e, rfl, rfl⟩

end Driver

/-! ### What is paid for fresh bindings -/

namespace Tariff

variable {p : Tariff} {env : Environment} {l : Ledger} {n : Name} {raw : Value}

/-- What is in a list and not in a part of it adds to the part's weight. -/
theorem add_sum_map_le_of_sublist {α : Type} (w : α → Nat) {xs ys : List α} {x : α}
    (h : xs.Sublist ys) (hx : x ∈ ys) (hn : x ∉ xs) :
    w x + (xs.map w).sum ≤ (ys.map w).sum := by
  classical
  have hothers : xs.Sublist (ys.erase x) := List.erase_of_not_mem hn ▸ h.erase x
  rw [← List.sum_map_erase w hx]
  exact Nat.add_le_add_left ((hothers.map w).sum_le_sum fun _ _ => Nat.zero_le _) _

theorem filter_isFresh_sublist {l' : Ledger} (env : Environment)
    (h : ∀ m, l'.IsFresh m → l.IsFresh m) :
    (env.filter fun b => decide (l'.IsFresh b.1)).Sublist
      (env.filter fun b => decide (l.IsFresh b.1)) :=
  List.monotone_filter_right env fun b hb => decide_eq_true (h b.1 (of_decide_eq_true hb))

theorem fresh_le_of_isFresh {l' : Ledger} (h : ∀ m, l'.IsFresh m → l.IsFresh m) :
    p.fresh env l' ≤ p.fresh env l :=
  ((filter_isFresh_sublist env h).map p.binding).sum_le_sum fun _ _ => Nat.zero_le _

/-- What has been paid for a binding is there when its name is entered. -/
theorem fresh_enter_le (hn : env.get? n = some raw) (hl : l.IsFresh n) :
    p.call (.value raw) + p.suspended (.binding n) + p.fresh env (l.enter n) ≤ p.fresh env l := by
  refine add_sum_map_le_of_sublist p.binding (x := (n, raw))
    (filter_isFresh_sublist env fun m => Ledger.isFresh_of_enter)
    (List.mem_filter.mpr ⟨Entries.mem_of_get? hn, decide_eq_true hl⟩) fun hb => ?_
  exact Ledger.not_isFresh_enter l n (of_decide_eq_true (List.mem_filter.mp hb).2)

theorem fresh_le (p : Tariff) (env : Environment) (l : Ledger) :
    p.fresh env l ≤ (env.map p.binding).sum :=
  (List.filter_sublist.map p.binding).sum_le_sum fun _ _ => Nat.zero_le _

/-! ### Turns -/

theorem budget_after (p : Tariff) (env : Environment) (t : Turn) (stack : List Suspended) :
    (after t stack).budget p env = (stack.map p.suspended).sum + p.due env t := by
  obtain ⟨action, l, mark?⟩ := t
  cases action with
  | asks s c =>
    show p.suspended s + (stack.map p.suspended).sum + (p.call c + p.fresh env l) =
      (stack.map p.suspended).sum + (p.suspended s + (p.call c + p.fresh env l))
    omega
  | returns v => rfl
  | raises e => rfl

/-- The first turn of a call is paid with the call, and with a binding where a name is entered. -/
theorem Covers.begin (h : p.Covers) (env : Environment) (l : Ledger) (c : Call) :
    p.turn (.start c) + p.due env (c.begin env l) ≤ p.call c + p.fresh env l := by
  have hstart := h.start c
  fun_cases Call.begin env l c with
  | case1 n v hv =>
    have hfresh : p.fresh env (l.find n) = p.fresh env l := rfl
    simp only [due, hfresh]
    omega
  | case2 n hv hn =>
    simp only [due]
    omega
  | case3 n hv raw hn hu =>
    simp only [due]
    omega
  | case4 n hv raw hn hu =>
    have henter := fresh_enter_le (p := p) hn ⟨hv, hu⟩
    simp only [due]
    omega
  | case5 m =>
    simp only [due]
    omega
  | case6 n =>
    have hreference := h.reference n
    simp only [due]
    omega
  | case7 =>
    simp only [due]
    omega
  | case8 k v rest =>
    have hdict := h.dict k v rest
    simp only [due]
    omega
  | case9 k =>
    simp only [due]
    omega

/-- The turn of a suspended call that is sent a value is paid with that call. -/
theorem Covers.receive (h : p.Covers) (env : Environment) (l : Ledger) (v : Value)
    (s : Suspended) :
    p.turn (.send v) + p.due env (s.receive l v) ≤ p.suspended s + p.fresh env l := by
  have hsend := h.send v s
  fun_cases Suspended.receive l v s with
  | case1 n =>
    have hfresh : p.fresh env ((l.leave n).file n v) ≤ p.fresh env l :=
      fresh_le_of_isFresh fun m => Ledger.isFresh_of_file_leave
    simp only [due]
    omega
  | case2 =>
    simp only [due]
    omega
  | case3 done k =>
    simp only [due]
    omega
  | case4 done k k' v' rest =>
    have hnext := h.next v done k k' v' rest
    simp only [due]
    omega

/-- So is the turn of one into which an error is thrown. -/
theorem Covers.abort (h : p.Covers) (env : Environment) (l : Ledger) (e : ResolveError)
    (s : Suspended) : p.turn (.throw e) + p.due env (s.abort l e) ≤ p.suspended s := by
  have hdue : p.due env (s.abort l e) = 0 := by cases s <;> rfl
  rw [hdue]
  exact h.throw e s

/-! ### Runs -/

variable {d d' : Driver} {before : List Driver}

/-- The price of a turn comes out of the budget. -/
theorem Covers.step (h : p.Covers) (hstep : d.step env = .more d') :
    p.turn d.signal + d'.budget p env ≤ d.budget p env := by
  obtain ⟨signal, stack, l⟩ := d
  cases signal with
  | start c =>
    cases hstep
    have hbegin := h.begin env l c
    rw [budget_after]
    simp only [budget]
    omega
  | send v =>
    rcases stack with - | ⟨s, stack⟩ <;> cases hstep
    have hreceive := h.receive env l v s
    rw [budget_after]
    simp only [budget, List.map_cons, List.sum_cons]
    omega
  | throw e =>
    rcases stack with - | ⟨s, stack⟩ <;> cases hstep
    have habort := h.abort env l e s
    rw [budget_after]
    simp only [budget, List.map_cons, List.sum_cons]
    omega

/-- So does the price of a row of turns. -/
theorem Covers.reaches (h : p.Covers) (hreaches : Reaches env d before d') :
    cost p before + d'.budget p env ≤ d.budget p env := by
  induction hreaches with
  | here => exact Nat.le_of_eq (Nat.zero_add _)
  | @turn d d₁ d' before hstep _ ih =>
    have hturn := h.step hstep
    have hcons : cost p (d :: before) = p.turn d.signal + cost p before := rfl
    omega

/-- A run costs no more than its budget and the price of its end.  Where it succeeds, what has been
paid for the bindings that are fresh then is left over. -/
theorem Covers.trail (h : p.Covers) (env : Environment) (d : Driver) :
    cost p (d.trail env) + (match (d.run env).result with
      | .ok _ => p.fresh env (d.run env).ledger
      | .error _ => 0) ≤ d.budget p env + p.ending := by
  obtain ⟨before, last, htrail, hlast⟩ := exists_trail_eq_append env d
  have hbefore := h.reaches (reaches_of_trail htrail).1
  have hcost : cost p (d.trail env) = cost p before + p.turn last.signal := by
    simp [cost, htrail]
  obtain ⟨hstack, ⟨v, hsignal, ho⟩ | ⟨e, hsignal, ho⟩⟩ := halt_cases hlast
  · have hending := h.send_ending v
    have hleft : last.budget p env = p.fresh env last.ledger := by
      simp [budget, hstack, hsignal]
    simp only [ho, hcost, hsignal]
    omega
  · have hending := h.throw_ending e
    simp only [ho, hcost, hsignal]
    omega

end Tariff

/-! ### Names are entered once -/

namespace Driver

variable {env : Environment} {d d' : Driver} {names : List Name} {before : List Driver}
variable {o : Outcome} {n : Name} {v : Value}

theorem cost_append (p : Tariff) (ds ds' : List Driver) :
    cost p (ds ++ ds') = cost p ds + cost p ds' := by
  rw [cost, List.map_append, List.sum_append]
  rfl

theorem marks_append (env : Environment) (ds ds' : List Driver) :
    marks env (ds ++ ds') = marks env ds ++ marks env ds' :=
  List.filterMap_append

theorem Reaches.spent (h : Reaches env d before d') (hn : d.Spent n) : d'.Spent n :=
  h.keeps (P := (Spent · n)) (fun hstep hP => hP.step hstep) hn

/-- A name that has been entered on the way is spent at its end. -/
theorem Reaches.spent_of_entered (h : Reaches env d before d') (hkeeps : d.KeepsUnderWay names)
    (hn : .entered n ∈ marks env before) : d'.Spent n := by
  induction h with
  | here => cases hn
  | turn hstep hreaches ih =>
    rw [marks_cons, List.mem_append] at hn
    rcases hn with hmark | hn
    · have hspent := (Driver.spent_of_entered hkeeps (Option.mem_toList.mp hmark) hstep).2
      exact hreaches.spent hspent
    · exact ih (hkeeps.step hstep) hn

/-- A name that is spent where a run succeeds has a value. -/
theorem Spent.mem_keys (h : d.Spent n) (hstep : d.step env = .halt o) (hok : o.result = .ok v) :
    n ∈ o.ledger.values.keys := by
  obtain ⟨hstack, ⟨w, hsignal, rfl⟩ | ⟨e, -, rfl⟩⟩ := halt_cases hstep
  · rcases h with hs | hv | ⟨e, he⟩
    · rw [suspended, hstack] at hs
      cases hs
    · exact hv
    · cases hsignal.symm.trans he
  · cases hok

/-- A run enters a name once at most, and never one that is spent before; where it succeeds, the
names that it has entered have values. -/
theorem entered_trail (env : Environment) (hkeeps : d.KeepsUnderWay names) (n : Name) :
    (marks env (d.trail env)).count (.entered n) ≤ 1 ∧
    (d.Spent n → (marks env (d.trail env)).count (.entered n) = 0) ∧
    ∀ v, (d.run env).result = .ok v → .entered n ∈ marks env (d.trail env) ∨ d.Spent n →
      n ∈ (d.run env).ledger.values.keys := by
  obtain ⟨before, last, htrail, hlast⟩ := exists_trail_eq_append env d
  have hreaches := (reaches_of_trail htrail).1
  have hmarks : marks env (d.trail env) = marks env before := by
    rw [htrail, marks_append, marks_cons, (stack_of_halt hlast).2]
    exact List.append_nil _
  rw [hmarks]
  refine ⟨hreaches.count_entered_le_one hkeeps n,
    fun hn => hreaches.count_entered_eq_zero hkeeps hn, fun v hok hn => ?_⟩
  have hspent : last.Spent n := hn.elim (hreaches.spent_of_entered hkeeps) hreaches.spent
  exact hspent.mem_keys hlast hok

end Driver

/-! ### Questions -/

namespace Resolver

/-- The loop before its first turn for a call. -/
def driver (r : Resolver) (underWay : List Name) (c : Call) : Driver :=
  ⟨.start c, [], ⟨r.values, underWay, []⟩⟩

/-- The loops for names, one after the other, each with the values that are there by then; the last
of them is the first one that fails. -/
def loopsOfNames (r : Resolver) : List Name → List Driver
  | [] => []
  | n :: ns =>
    let a := r.name n []
    r.driver [] (.name n) ::
      match a.result with
      | .error _ => []
      | .ok _ => a.resolver.loopsOfNames ns

/-- The loops that a question is answered by. -/
def loops (r : Resolver) : Question → List Driver
  | .name n underWay => [r.driver underWay (.name n)]
  | .value v underWay => [r.driver underWay (.value v)]
  | .all => r.loopsOfNames r.env.keys

variable {r : Resolver} {n : Name} {ns : List Name} {v : Value} {e : ResolveError}

theorem loopsOfNames_cons_of_error (h : (r.name n []).result = .error e) :
    r.loopsOfNames (n :: ns) = [r.driver [] (.name n)] := by
  rw [loopsOfNames, h]

theorem loopsOfNames_cons_of_ok (h : (r.name n []).result = .ok v) :
    r.loopsOfNames (n :: ns) =
      r.driver [] (.name n) :: (r.name n []).resolver.loopsOfNames ns := by
  rw [loopsOfNames, h]

theorem keepsUnderWay_driver (r : Resolver) (underWay : List Name) (c : Call) :
    (r.driver underWay c).KeepsUnderWay underWay :=
  ⟨rfl, List.nodup_nil, by simp [driver, Driver.suspended]⟩

/-- A loop comes to what the resolver answers. -/
theorem run_driver (r : Resolver) (n : Name) :
    (r.driver [] (.name n)).run r.env =
      ⟨(r.name n []).result, ⟨(r.name n []).resolver.values, [], (r.name n []).events⟩⟩ := by
  have hrun := r.run_call [] (.name n)
  rwa [r.underWay_call] at hrun

/-- What happens while a question is answered happens in its loops. -/
theorem events_names (r : Resolver) (ns : List Name) :
    (r.names ns).events =
      (r.loopsOfNames ns).flatMap fun d => (d.run r.env).ledger.events := by
  induction ns generalizing r with
  | nil => rfl
  | cons n ns ih =>
    rcases h : (r.name n []).result with e | v
    · rw [names_cons_of_error h, loopsOfNames_cons_of_error h, List.flatMap_singleton, run_driver]
    · rw [names_cons_of_ok h, loopsOfNames_cons_of_ok h, List.flatMap_cons, run_driver]
      exact congrArg ((r.name n []).events ++ ·) (ih (r.name n []).resolver)

/-- Names fail with the error of one of their loops. -/
theorem error_names (r : Resolver) (ns : List Name) :
    (r.names ns).result = .error e ↔
      ∃ d ∈ r.loopsOfNames ns, (d.run r.env).result = .error e := by
  induction ns generalizing r with
  | nil => simp [names, loopsOfNames]
  | cons n ns ih =>
    rcases h : (r.name n []).result with e' | v
    · rw [names_cons_of_error h, loopsOfNames_cons_of_error h]
      simp [run_driver, h]
    · have hothers := ih (r.name n []).resolver
      rw [(r.adds_name n []).env] at hothers
      rw [names_cons_of_ok h, loopsOfNames_cons_of_ok h]
      simpa [run_driver, h] using hothers

/-- The loops for names cost no more than has been paid for the names and for the bindings that are
fresh at the start. -/
theorem cost_loopsOfNames {p : Tariff} (h : p.Covers) (r : Resolver) (ns : List Name) :
    cost p ((r.loopsOfNames ns).flatMap (Driver.trail r.env)) ≤
      (ns.map fun n => p.call (.name n) + p.ending).sum + p.fresh r.env ⟨r.values, [], []⟩ := by
  induction ns generalizing r with
  | nil => exact Nat.zero_le _
  | cons n ns ih =>
    have hfirst := h.trail r.env (r.driver [] (.name n))
    have hbudget : (r.driver [] (.name n)).budget p r.env =
        p.call (.name n) + p.fresh r.env ⟨r.values, [], []⟩ := by
      simp [driver, Driver.budget]
    rw [run_driver, hbudget] at hfirst
    rcases hn : (r.name n []).result with e | v
    · rw [loopsOfNames_cons_of_error hn, List.flatMap_singleton]
      simp only [hn, List.map_cons, List.sum_cons] at hfirst ⊢
      omega
    · -- what the first loop has left pays for the others
      have hothers := ih (r.name n []).resolver
      rw [(r.adds_name n []).env] at hothers
      rw [loopsOfNames_cons_of_ok hn, List.flatMap_cons, Driver.cost_append]
      simp only [hn, List.map_cons, List.sum_cons] at hfirst ⊢
      have hleft : p.fresh r.env ⟨(r.name n []).resolver.values, [], (r.name n []).events⟩ =
          p.fresh r.env ⟨(r.name n []).resolver.values, [], []⟩ := rfl
      omega

/-- The loops for names enter a name once at most, and none that has a value before. -/
theorem entered_loopsOfNames (r : Resolver) (ns : List Name) (n : Name) :
    (Driver.marks r.env ((r.loopsOfNames ns).flatMap (Driver.trail r.env))).count
        (.entered n) ≤ 1 ∧
      (n ∈ r.values.keys →
        (Driver.marks r.env ((r.loopsOfNames ns).flatMap (Driver.trail r.env))).count
          (.entered n) = 0) := by
  induction ns generalizing r with
  | nil => exact ⟨Nat.zero_le 1, fun _ => rfl⟩
  | cons m ns ih =>
    obtain ⟨honce, hspent, hkeys⟩ :=
      Driver.entered_trail r.env (r.keepsUnderWay_driver [] (.name m)) n
    have hstart (hn : n ∈ r.values.keys) : (r.driver [] (.name m)).Spent n := .inr (.inl hn)
    rw [run_driver] at hkeys
    rcases hm : (r.name m []).result with e | v
    · rw [loopsOfNames_cons_of_error hm, List.flatMap_singleton]
      exact ⟨honce, fun hn => hspent (hstart hn)⟩
    · have hothers := ih (r.name m []).resolver
      rw [(r.adds_name m []).env] at hothers
      obtain ⟨honce', hzero'⟩ := hothers
      rw [loopsOfNames_cons_of_ok hm, List.flatMap_cons, Driver.marks_append, List.count_append]
      refine ⟨?_, fun hn => ?_⟩
      · by_cases hentered : .entered n ∈ Driver.marks r.env ((r.driver [] (.name m)).trail r.env)
        · rw [hzero' (hkeys v hm (.inl hentered))]
          exact honce
        · rw [List.count_eq_zero.mpr hentered, Nat.zero_add]
          exact honce'
      · rw [hspent (hstart hn), hzero' (hkeys v hm (.inr (hstart hn)))]

end Resolver

/-! ### The tariffs -/

namespace Tariff

theorem covers_requests : requests.Covers where
  start c := by
    rcases c with n | v
    · exact Nat.le_refl 1
    · exact Nat.zero_le _
  reference n := by simp [requests, Value.references]
  dict k v rest := by
    simp [requests, Value.references, Value.referencesOfFields]
    omega
  send v s := Nat.zero_le _
  next v done k k' v' rest := by
    simp [requests, Value.referencesOfFields]
    omega
  throw e s := Nat.zero_le _
  send_ending v := Nat.zero_le _
  throw_ending e := Nat.zero_le _

theorem covers_turns : turns.Covers where
  start c := by
    rcases c with n | v
    · exact Nat.le_refl 1
    · have hpos : 0 < v.weight := by cases v <;> simp [Value.weight]
      simp only [turns, Call.weight]
      omega
  reference n := by simp [turns, Call.weight, Suspended.weight, Value.weight]
  dict k v rest := by
    simp [turns, Call.weight, Suspended.weight, Value.weight, Value.fieldsWeight]
    omega
  send v s := by cases s <;> simp [turns, Suspended.weight]
  next v done k k' v' rest := by
    simp [turns, Call.weight, Suspended.weight, Value.fieldsWeight]
    omega
  throw e s := by cases s <;> simp [turns, Suspended.weight]
  send_ending v := Nat.le_refl 1
  throw_ending e := Nat.le_refl 1

/-- What is paid for all bindings: for each reference in their values. -/
theorem sum_binding_requests (env : Environment) :
    (env.map requests.binding).sum = (Value.referencesOfFields env).length := by
  induction env with
  | nil => rfl
  | cons b env ih =>
    rw [List.map_cons, List.sum_cons, ih, Value.referencesOfFields, List.length_append]
    rfl

theorem sum_binding_turns (env : Environment) :
    (env.map turns.binding).sum + env.length = 2 * Value.fieldsWeight env := by
  induction env with
  | nil => rfl
  | cons b env ih =>
    have hbinding : turns.binding b = 2 * b.2.weight + 1 := rfl
    rw [List.map_cons, List.sum_cons, List.length_cons, Value.fieldsWeight, hbinding]
    omega

end Tariff

namespace Driver

theorem cost_requests (ds : List Driver) : cost .requests ds = ds.countP requestsName := by
  induction ds with
  | nil => rfl
  | cons d ds ih =>
    have hcons : cost .requests (d :: ds) = Tariff.requests.turn d.signal + cost .requests ds := rfl
    rw [hcons, ih, List.countP_cons, Nat.add_comm]
    obtain ⟨signal, stack, ledger⟩ := d
    rcases signal with (n | v) | v | e <;> rfl

theorem cost_turns (ds : List Driver) : cost .turns ds = ds.length := by
  simp [cost, Tariff.turns, List.map_const']

end Driver

/-! ### The work of a question -/

namespace Question

/-- The names that the value of a question refers to. -/
def references : Question → List Name
  | .value v _ => v.references
  | .name .. | .all => []

/-- The weight of the value of a question. -/
def weight : Question → Nat
  | .value v _ => v.weight
  | .name .. | .all => 0

/-- What is paid for a question, bindings aside. -/
def price (p : Tariff) (env : Environment) : Question → Nat
  | .name n _ => p.call (.name n) + p.ending
  | .value v _ => p.call (.value v) + p.ending
  | .all => (env.keys.map fun n => p.call (.name n) + p.ending).sum

theorem price_requests_le (env : Environment) (q : Question) :
    q.price .requests env ≤ 1 + env.length + q.references.length := by
  cases q with
  | name n underWay => simp [price, Tariff.requests, references]
  | value v underWay => simp [price, Tariff.requests, references]
  | all =>
    simp [price, Tariff.requests, Entries.keys, List.map_const', Function.comp_def]
    omega

theorem price_turns_le (env : Environment) (q : Question) :
    q.price .turns env ≤ 2 * (q.weight + env.length + 1) := by
  cases q with
  | name n underWay =>
    simp only [price, Tariff.turns, Call.weight, weight]
    omega
  | value v underWay =>
    simp only [price, Tariff.turns, Call.weight, weight]
    omega
  | all =>
    simp [price, Tariff.turns, Call.weight, Entries.keys, List.map_const', Function.comp_def]
    omega

end Question

namespace Resolver

/-- A loop costs no more than has been paid for its call and for all bindings. -/
theorem cost_driver {p : Tariff} (h : p.Covers) (r : Resolver) (underWay : List Name) (c : Call) :
    cost p ((r.driver underWay c).trail r.env) ≤
      p.call c + p.ending + (r.env.map p.binding).sum := by
  have htrail := h.trail r.env (r.driver underWay c)
  have hfresh := p.fresh_le r.env ⟨r.values, underWay, []⟩
  have hbudget : (r.driver underWay c).budget p r.env =
      p.call c + p.fresh r.env ⟨r.values, underWay, []⟩ := by
    simp [driver, Driver.budget]
  omega

theorem cost_loops {p : Tariff} (h : p.Covers) (r : Resolver) (q : Question) :
    cost p ((r.loops q).flatMap (Driver.trail r.env)) ≤
      q.price p r.env + (r.env.map p.binding).sum := by
  cases q with
  | name n underWay =>
    rw [loops, List.flatMap_singleton]
    exact r.cost_driver h underWay (.name n)
  | value v underWay =>
    rw [loops, List.flatMap_singleton]
    exact r.cost_driver h underWay (.value v)
  | all =>
    have hloops := r.cost_loopsOfNames h r.env.keys
    have hfresh := p.fresh_le r.env ⟨r.values, [], []⟩
    simp only [loops, Question.price]
    omega

theorem entered_loops (r : Resolver) (q : Question) (n : Name) :
    (Driver.marks r.env ((r.loops q).flatMap (Driver.trail r.env))).count (.entered n) ≤ 1 := by
  cases q with
  | name m underWay =>
    rw [loops, List.flatMap_singleton]
    exact (Driver.entered_trail r.env (r.keepsUnderWay_driver underWay (.name m)) n).1
  | value v underWay =>
    rw [loops, List.flatMap_singleton]
    exact (Driver.entered_trail r.env (r.keepsUnderWay_driver underWay (.value v)) n).1
  | all => exact (r.entered_loopsOfNames r.env.keys n).1

/-- The answer to a call is an error if its loop comes to that error. -/
theorem error_driver (r : Resolver) (underWay : List Name) (c : Call) {e : ResolveError} :
    (r.call underWay c).result = .error e ↔
      ∃ d ∈ [r.driver underWay c], (d.run r.env).result = .error e := by
  simp [driver, r.run_call underWay c]

/-- What comes of a question comes of its loops. -/
theorem ask_loops (r : Resolver) (q : Question) :
    ((r.ask q).events = (r.loops q).flatMap fun d => (d.run r.env).ledger.events) ∧
      ∀ e, (r.ask q).result = .error e ↔
        ∃ d ∈ r.loops q, (d.run r.env).result = .error e := by
  cases q with
  | name n underWay =>
    refine ⟨?_, fun e => Outcome.map_eq_error_iff.trans (r.error_driver underWay (.name n))⟩
    rw [loops, List.flatMap_singleton, driver, r.run_call underWay (.name n)]
    rfl
  | value v underWay =>
    refine ⟨?_, fun e => Outcome.map_eq_error_iff.trans (r.error_driver underWay (.value v))⟩
    rw [loops, List.flatMap_singleton, driver, r.run_call underWay (.value v)]
    rfl
  | all =>
    exact ⟨r.events_names r.env.keys, fun e =>
      Outcome.map_eq_error_iff.trans (r.error_names r.env.keys)⟩

end Resolver

/-- Whatever a resolver has been asked before, and for a name, for a value with any names under way
or for all bindings: the question is answered by loops that end.  Each of them gets by single turns
from its start to a state that halts; together they take a number of turns that is linear in the
weight of all values, cyclic or not and however often they are shared.

Meanwhile no name is entered twice, so no raw value is walked through twice; and a name is requested
once for each reference at most, besides the names that are asked for. -/
theorem work_of_ask (env : Environment) (qs : List Question) (q : Question) :
    let r := (History.after env qs).resolver
    let states := (r.loops q).flatMap (Driver.trail env)
    ((r.ask q).events = (r.loops q).flatMap (fun d => (d.run env).ledger.events) ∧
      ∀ e, (r.ask q).result = .error e ↔ ∃ d ∈ r.loops q, (d.run env).result = .error e) ∧
    (∀ d ∈ r.loops q, ∃ before last, d.trail env = before ++ [last] ∧
      Driver.Reaches env d before last ∧ last.step env = .halt (d.run env)) ∧
    states.length ≤ 2 * (Value.fieldsWeight env + q.weight + 1) + env.length ∧
    (∀ n, (Driver.marks env states).count (.entered n) ≤ 1) ∧
    states.countP Driver.requestsName ≤
      1 + env.length + (Value.referencesOfFields env).length + q.references.length := by
  intro r states
  have henv : r.env = env := (History.keeps_after env qs).env_eq
  have hturns := r.cost_loops Tariff.covers_turns q
  have hrequests := r.cost_loops Tariff.covers_requests q
  have hanswer := r.ask_loops q
  have hentered := r.entered_loops q
  rw [henv] at hturns hrequests hanswer hentered
  refine ⟨hanswer, fun d _ => ?_, ?_, hentered, ?_⟩
  · obtain ⟨before, last, htrail, hlast⟩ := Driver.exists_trail_eq_append env d
    exact ⟨before, last, htrail, (Driver.reaches_of_trail htrail).1, hlast⟩
  · have hprice := q.price_turns_le env
    have hbindings := Tariff.sum_binding_turns env
    rw [Driver.cost_turns] at hturns
    show ((r.loops q).flatMap (Driver.trail env)).length ≤ _
    omega
  · have hprice := q.price_requests_le env
    have hbindings := Tariff.sum_binding_requests env
    rw [Driver.cost_requests] at hrequests
    show ((r.loops q).flatMap (Driver.trail env)).countP Driver.requestsName ≤ _
    omega

end HexDoc
