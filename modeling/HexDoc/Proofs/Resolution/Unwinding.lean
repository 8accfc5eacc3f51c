/-
HexDoc/Proofs/Resolution/Unwinding.lean

What becomes of the suspended calls of a run.  An error that is thrown goes down the whole stack.
The marks tell what becomes of the names on the way: a name is left by the call that has entered
it, the latest first (`Driver.openAfter?_trail`), and from the moment an error is thrown nothing
happens but that (`Driver.marks_of_throw`).

Main statement: what comes of a call is the same for the loop, for the resolver and for the
recursion, and on every failure each suspended name is cleaned up once, the innermost first
(`driver_eq_recursion`).
-/
import HexDoc.Proofs.Resolution.Machine

namespace HexDoc

theorem Mark.openAfter?_append (names : List Name) (ms ms' : List Mark) :
    openAfter? names (ms ++ ms') = (openAfter? names ms).bind (openAfter? · ms') := by
  fun_induction openAfter? names ms with
  | case1 names => rfl
  | case2 names n ms ih => exact ih
  | case3 names n ms ih =>
    rw [List.cons_append, openAfter?, if_pos rfl]
    exact ih
  | case4 n names m ms hne =>
    rw [List.cons_append, openAfter?, if_neg hne]
    rfl
  | case5 => rfl

namespace Driver

variable {env : Environment} {d d' : Driver} {o : Outcome}

/-! ### The states of a run -/

theorem trail_of_more (h : d.step env = .more d') : trail env d = d :: trail env d' := by
  rw [trail]
  split <;> rename_i h' <;> cases h.symm.trans h'
  rfl

theorem trail_of_halt (h : d.step env = .halt o) : trail env d = [d] := by
  rw [trail]
  split <;> rename_i h' <;> cases h.symm.trans h'
  rfl

/-- The loop gets from one state to another by way of some states, the last one not among them. -/
inductive Reaches (env : Environment) : Driver → List Driver → Driver → Prop
  | here {d : Driver} : Reaches env d [] d
  | turn {d d₁ d' : Driver} {before : List Driver} :
      d.step env = .more d₁ → Reaches env d₁ before d' → Reaches env d (d :: before) d'

variable {before rest : List Driver}

/-- A run reaches every state that it goes through, and goes through the others from there. -/
theorem reaches_of_trail (h : trail env d = before ++ d' :: rest) :
    Reaches env d before d' ∧ trail env d' = d' :: rest := by
  induction before generalizing d with
  | nil =>
    rcases hstep : d.step env with d₁ | o
    · rw [trail_of_more hstep] at h
      obtain ⟨rfl, rfl⟩ := List.cons.inj h
      exact ⟨.here, trail_of_more hstep⟩
    · rw [trail_of_halt hstep] at h
      obtain ⟨rfl, rfl⟩ := List.cons.inj h
      exact ⟨.here, trail_of_halt hstep⟩
  | cons b before ih =>
    rcases hstep : d.step env with d₁ | o
    · rw [trail_of_more hstep] at h
      obtain ⟨rfl, htail⟩ := List.cons.inj h
      obtain ⟨hreaches, htrail⟩ := ih htail
      exact ⟨.turn hstep hreaches, htrail⟩
    · rw [trail_of_halt hstep] at h
      simp at h

namespace Reaches

theorem run_eq (h : Reaches env d before d') : run env d' = run env d := by
  induction h with
  | here => rfl
  | turn hstep _ ih => rw [ih, run_of_more hstep]

/-- What every turn keeps holds in every state. -/
theorem keeps {P : Driver → Prop} (hP : ∀ {d d'}, d.step env = .more d' → P d → P d')
    (h : Reaches env d before d') (hd : P d) : P d' := by
  induction h with
  | here => exact hd
  | turn hstep _ ih => exact ih (hP hstep hd)

end Reaches

/-- A run goes on until nothing is suspended any more. -/
theorem exists_trail_eq_append (env : Environment) (d : Driver) :
    ∃ before last, trail env d = before ++ [last] ∧ last.step env = .halt (run env d) := by
  fun_induction trail env d with
  | case1 d o h => exact ⟨[], d, rfl, by rw [run_of_halt h, h]⟩
  | case2 d d' h ih =>
    obtain ⟨before, last, htrail, hlast⟩ := ih
    exact ⟨d :: before, last, by rw [htrail]; rfl, by rw [run_of_more h, hlast]⟩

/-- Where a run ends nothing is suspended, and no mark is left. -/
theorem stack_of_halt (h : d.step env = .halt o) : d.stack = [] ∧ d.mark? env = none := by
  obtain ⟨signal, stack, ledger⟩ := d
  cases signal with
  | start c => cases h
  | send v =>
    cases stack <;> cases h
    exact ⟨rfl, rfl⟩
  | throw e =>
    cases stack <;> cases h
    exact ⟨rfl, rfl⟩

/-! ### Names that are entered and left -/

/-- A turn leaves the names alone, enters a name that is not under way, or leaves the name that has
been suspended last.  It leaves a mark exactly if it enters or leaves a name. -/
theorem step_cases (h : d.step env = .more d') :
    (d'.suspended = d.suspended ∧ d'.ledger.underWay = d.ledger.underWay ∧ d.mark? env = none) ∨
    (∃ n, n ∉ d.ledger.underWay ∧ d'.suspended = n :: d.suspended ∧
      d'.ledger.underWay = (d.ledger.enter n).underWay ∧ d.mark? env = some (.entered n)) ∨
    ∃ n, d.suspended = n :: d'.suspended ∧ d'.ledger.underWay = (d.ledger.leave n).underWay ∧
      d.mark? env = some (.left n) := by
  obtain ⟨signal, stack, ledger⟩ := d
  cases signal with
  | start c =>
    cases h
    cases c with
    | name n =>
      simp only [mark?, Call.begin]
      split
      · exact .inl ⟨rfl, rfl, rfl⟩
      · split
        · exact .inl ⟨rfl, rfl, rfl⟩
        · split
          · exact .inl ⟨rfl, rfl, rfl⟩
          · rename_i hn
            exact .inr (.inl ⟨n, hn, rfl, rfl, rfl⟩)
    | value v =>
      cases v with
      | dict fs => rcases fs with - | ⟨⟨k, v⟩, rest⟩ <;> exact .inl ⟨rfl, rfl, rfl⟩
      | _ => exact .inl ⟨rfl, rfl, rfl⟩
  | send v =>
    rcases stack with - | ⟨s, stack⟩ <;> cases h
    cases s with
    | binding n => exact .inr (.inr ⟨n, rfl, rfl, rfl⟩)
    | reference => exact .inl ⟨rfl, rfl, rfl⟩
    | field done k rest =>
      rcases rest with - | ⟨⟨k', v'⟩, rest⟩ <;> exact .inl ⟨rfl, rfl, rfl⟩
  | throw e =>
    rcases stack with - | ⟨s, stack⟩ <;> cases h
    cases s with
    | binding n => exact .inr (.inr ⟨n, rfl, rfl, rfl⟩)
    | reference => exact .inl ⟨rfl, rfl, rfl⟩
    | field done k rest => exact .inl ⟨rfl, rfl, rfl⟩

/-- The mark of a turn tells what becomes of the suspended names. -/
theorem openAfter?_step (h : d.step env = .more d') :
    Mark.openAfter? d.suspended (d.mark? env).toList = some d'.suspended := by
  rcases step_cases h with ⟨hs, -, hmark⟩ | ⟨n, -, hs, -, hmark⟩ | ⟨n, hs, -, hmark⟩
  · rw [hmark, hs]
    rfl
  · rw [hmark, hs]
    rfl
  · rw [hmark, hs]
    exact if_pos rfl

theorem marks_cons (env : Environment) (d : Driver) (ds : List Driver) :
    marks env (d :: ds) = (d.mark? env).toList ++ marks env ds := by
  rw [marks, List.filterMap_cons]
  cases d.mark? env <;> rfl

/-- The suspended names are those that have been entered and not left. -/
theorem Reaches.openAfter? (h : Reaches env d before d') :
    Mark.openAfter? d.suspended (marks env before) = some d'.suspended := by
  induction h with
  | here => rfl
  | @turn d d₁ d' before hstep _ ih =>
    rw [marks_cons, Mark.openAfter?_append, openAfter?_step hstep]
    exact ih

/-- A run reaches a state where nothing is suspended, and has left all its marks by then. -/
theorem exists_reaches_last (env : Environment) (d : Driver) :
    ∃ before last, Reaches env d before last ∧ last.suspended = [] ∧
      marks env (trail env d) = marks env before := by
  obtain ⟨before, last, htrail, hlast⟩ := exists_trail_eq_append env d
  obtain ⟨hstack, hmark⟩ := stack_of_halt hlast
  refine ⟨before, last, (reaches_of_trail htrail).1, ?_, ?_⟩
  · rw [suspended, hstack, List.filterMap_nil]
  · rw [htrail, marks, List.filterMap_append, List.filterMap_cons_none hmark, List.filterMap_nil,
      List.append_nil]
    rfl

/-- At the end of a run every name that has been entered has been left, the latest first. -/
theorem openAfter?_trail (env : Environment) (d : Driver) :
    Mark.openAfter? d.suspended (marks env (trail env d)) = some [] := by
  obtain ⟨before, last, hreaches, hsuspended, hmarks⟩ := exists_reaches_last env d
  rw [hmarks, hreaches.openAfter?, hsuspended]

/-- After an error has been thrown nothing is left to happen but that each suspended name is
left, the innermost first, and the run ends with that error. -/
theorem marks_of_throw (env : Environment) (e : ResolveError) (stack : List Suspended) (l : Ledger) :
    let d : Driver := ⟨.throw e, stack, l⟩
    marks env (trail env d) = d.suspended.map .left ∧ (run env d).result = .error e := by
  induction stack generalizing l with
  | nil =>
    have hstep : step env ⟨.throw e, [], l⟩ = .halt ⟨.error e, l⟩ := rfl
    simp only [trail_of_halt hstep, run_of_halt hstep]
    exact ⟨rfl, trivial⟩
  | cons s stack ih =>
    have hstep : step env ⟨.throw e, s :: stack, l⟩ =
        .more ⟨.throw e, stack, (s.abort l e).ledger⟩ := by cases s <;> rfl
    obtain ⟨hmarks, hresult⟩ := ih (s.abort l e).ledger
    simp only [trail_of_more hstep, run_of_more hstep, marks_cons, hmarks]
    exact ⟨by cases s <;> rfl, hresult⟩

/-! ### Names under way -/

/-- Beside the names that were under way before a run, those that are suspended are, each once. -/
structure KeepsUnderWay (names : List Name) (d : Driver) : Prop where
  underWay : d.ledger.underWay = d.suspended ++ names
  nodup : d.suspended.Nodup
  disjoint : ∀ n ∈ d.suspended, n ∉ names

theorem KeepsUnderWay.step {names : List Name} (h : d.KeepsUnderWay names)
    (hstep : d.step env = .more d') : d'.KeepsUnderWay names := by
  rcases step_cases hstep with ⟨hs, hl, -⟩ | ⟨n, hn, hs, hl, -⟩ | ⟨n, hs, hl, -⟩
  · exact ⟨by rw [hl, hs, h.underWay], hs ▸ h.nodup, hs ▸ h.disjoint⟩
  · -- the name was not under way, so it is suspended once
    have hnot := hn
    rw [h.underWay, List.mem_append, not_or] at hnot
    refine ⟨by rw [hl, hs, Ledger.enter, h.underWay, List.cons_append], ?_, ?_⟩
    · rw [hs]
      exact List.nodup_cons.mpr ⟨hnot.1, h.nodup⟩
    · rw [hs]
      exact List.forall_mem_cons.mpr ⟨hnot.2, h.disjoint⟩
  · -- what is under way is what was under way before the name was entered
    have hnodup := h.nodup
    have hdisjoint := h.disjoint
    rw [hs] at hnodup hdisjoint
    obtain ⟨hn, hnodup⟩ := List.nodup_cons.mp hnodup
    obtain ⟨hnames, hdisjoint⟩ := List.forall_mem_cons.mp hdisjoint
    let below : Ledger := { d.ledger with underWay := d'.suspended ++ names }
    have hfresh : n ∉ below.underWay := fun hmem => (List.mem_append.mp hmem).elim hn hnames
    have hentered : d.ledger.underWay = (below.enter n).underWay := by
      rw [h.underWay, hs]
      rfl
    exact ⟨hl.trans (Recursion.underWay_leave_enter hfresh hentered), hnodup, hdisjoint⟩

/-- In every state of a run the names under way are those from before and the suspended ones. -/
theorem Reaches.keepsUnderWay (h : Reaches env d before d') (hd : d.stack = []) :
    d'.KeepsUnderWay d.ledger.underWay := by
  refine h.keeps (P := KeepsUnderWay d.ledger.underWay) (fun hstep hP => hP.step hstep) ?_
  have hnil : d.suspended = [] := by rw [suspended, hd, List.filterMap_nil]
  exact ⟨by rw [hnil, List.nil_append], by rw [hnil]; exact List.nodup_nil, by simp [hnil]⟩

end Driver

/-- Running a call over a stack of suspended calls comes to what the recursion comes to: the same
value or error, the same values in the same order, the same events and the same names under way.
So does the resolver, for any values that it may have and any names under way.

In every state of the run the names under way are those from before and the suspended ones, each
once, and the suspended ones are those that have been entered and not been left; at the end every
name that has been entered has been left, the latest first.  Where an error is thrown, each name
suspended there is left once, the innermost first, and no other is; the run ends with that
error. -/
theorem driver_eq_recursion (r : Resolver) (underWay : List Name) (c : Call) :
    let l : Ledger := ⟨r.values, underWay, []⟩
    let d : Driver := ⟨.start c, [], l⟩
    let answer := Recursion.call r.env l c
    d.run r.env = ⟨answer.1, answer.2.1⟩ ∧
    r.call underWay c = r.ofCall answer ∧
    Mark.openAfter? [] (Driver.marks r.env (d.trail r.env)) = some [] ∧
    ∀ before d' rest, d.trail r.env = before ++ d' :: rest →
      (d'.ledger.underWay = d'.suspended ++ underWay ∧ d'.suspended.Nodup ∧
        ∀ n ∈ d'.suspended, n ∉ underWay) ∧
      Mark.openAfter? [] (Driver.marks r.env before) = some d'.suspended ∧
      ∀ e, d'.signal = .throw e →
        Driver.marks r.env (d' :: rest) = d'.suspended.map .left ∧ answer.1 = .error e := by
  intro l d answer
  have hrun : d.run r.env = ⟨answer.1, answer.2.1⟩ := by
    rw [Driver.run_start, Driver.resume_nil]
  refine ⟨hrun, r.call_eq underWay c, Driver.openAfter?_trail r.env d, ?_⟩
  intro before d' rest htrail
  obtain ⟨hreaches, hrest⟩ := Driver.reaches_of_trail htrail
  have hkeeps := hreaches.keepsUnderWay rfl
  refine ⟨⟨hkeeps.underWay, hkeeps.nodup, hkeeps.disjoint⟩, hreaches.openAfter?, ?_⟩
  rintro e he
  obtain ⟨signal, stack, l'⟩ := d'
  cases he
  obtain ⟨hmarks, hresult⟩ := Driver.marks_of_throw r.env e stack l'
  rw [hrest] at hmarks
  rw [hreaches.run_eq, hrun] at hresult
  exact ⟨hmarks, hresult⟩

/-- Where `a` refers to `b` and `b` cannot be resolved, both are suspended when the error is thrown:
`b` is left first, then `a`. -/
theorem driver_eq_recursion_unwinds :
    let env : Environment := [("a", .reference "b"), ("b", .foreign "list")]
    let d : Driver := ⟨.start (.name "a"), [], ⟨[], [], []⟩⟩
    ∃ before d' rest, d.trail env = before ++ d' :: rest ∧ d'.signal = .throw (.foreign "list") ∧
      d'.ledger.underWay = ["b", "a"] ∧
      Driver.marks env (d' :: rest) = [.left "b", .left "a"] ∧
      (Recursion.call env ⟨[], [], []⟩ (.name "a")).1 = .error (.foreign "list") := by
  intro env d
  let under (names : List Name) : Ledger := ⟨[], names, []⟩
  let d₁ : Driver := ⟨.start (.value (.reference "b")), [.binding "a"], under ["a"]⟩
  let d₂ : Driver := ⟨.start (.name "b"), [.reference, .binding "a"], under ["a"]⟩
  let d₃ : Driver := ⟨.start (.value (.foreign "list")),
    [.binding "b", .reference, .binding "a"], under ["b", "a"]⟩
  let d₄ : Driver := ⟨.throw (.foreign "list"), [.binding "b", .reference, .binding "a"],
    under ["b", "a"]⟩
  let d₅ : Driver := ⟨.throw (.foreign "list"), [.reference, .binding "a"], under ["a"]⟩
  have htrail : d.trail env = [d, d₁, d₂, d₃] ++ d₄ :: d₅.trail env := by
    rw [Driver.trail_of_more (show d.step env = .more d₁ from rfl),
      Driver.trail_of_more (show d₁.step env = .more d₂ from rfl),
      Driver.trail_of_more (show d₂.step env = .more d₃ from rfl),
      Driver.trail_of_more (show d₃.step env = .more d₄ from rfl),
      Driver.trail_of_more (show d₄.step env = .more d₅ from rfl)]
    rfl
  obtain ⟨-, -, -, hstates⟩ := driver_eq_recursion ⟨env, []⟩ [] (.name "a")
  obtain ⟨⟨hunder, -⟩, -, hthrow⟩ := hstates _ _ _ htrail
  obtain ⟨hmarks, hanswer⟩ := hthrow _ rfl
  exact ⟨_, d₄, _, htrail, rfl, hunder, hmarks, hanswer⟩

end HexDoc
