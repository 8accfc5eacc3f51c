/-
HexDoc/Proofs/Resolution/UnderWay.lean

What a question does to the names that count as under way.  The loop has one such collection for
all its calls, and an error leaves through all of them; yet the collection comes out as it went in.

Of every name, the marks tell how often it has been entered and left (`Mark.count_of_openAfter?`).
A name that has been entered is spent: it stays suspended until it has a value or an error is on its
way, and neither lets it be entered again (`Driver.Spent.step`).  The names that were under way
before a run are not touched by any mark (`Driver.name_notMem_of_mark`).

Main statement: whatever has been asked before, and whatever comes of a call, the names under way
are the same afterwards, and in between they are these and the suspended ones
(`call_restores_underWay`).
-/
import HexDoc.Proofs.Resolution.History
import HexDoc.Proofs.Resolution.Unwinding

namespace HexDoc

/-! ### Marks -/

namespace Mark

/-- The name that a mark is about. -/
def name : Mark → Name
  | .entered n => n
  | .left n => n

/-- The names open after some marks are those open before and those that have been entered, less
those that have been left. -/
theorem count_of_openAfter? {names names' : List Name} {ms : List Mark}
    (h : openAfter? names ms = some names') (n : Name) :
    ms.count (.entered n) + names.count n = ms.count (.left n) + names'.count n := by
  fun_induction openAfter? names ms with
  | case1 names =>
    cases h
    rfl
  | case2 names m ms ih =>
    have hcount := ih h
    by_cases hm : m = n
    · subst hm
      simp at hcount ⊢
      omega
    · simpa [hm] using hcount
  | case3 names m ms ih =>
    have hcount := ih h
    by_cases hm : m = n
    · subst hm
      simp at hcount ⊢
      omega
    · simpa [hm] using hcount
  | case4 n' names m ms hne => cases h
  | case5 m ms => cases h

end Mark

namespace Driver

variable {env : Environment} {d d' : Driver} {names : List Name} {before : List Driver} {n : Name}

/-! ### Names that were under way before -/

/-- A mark is about a name that was not under way before the run. -/
theorem name_notMem_of_mark (h : d.KeepsUnderWay names) {m : Mark} (hm : d.mark? env = some m) :
    m.name ∉ names := by
  rcases hstep : d.step env with d' | o
  · rcases step_cases hstep with ⟨-, -, hmark⟩ | ⟨n, hn, -, -, hmark⟩ | ⟨n, hs, -, hmark⟩ <;>
      cases hm.symm.trans hmark
    · rw [h.underWay, List.mem_append, not_or] at hn
      exact hn.2
    · exact h.disjoint n (hs ▸ List.mem_cons_self)
  · cases hm.symm.trans (stack_of_halt hstep).2

/-! ### No name is entered twice -/

theorem ledger_after (t : Turn) (stack : List Suspended) : (after t stack).ledger = t.ledger := by
  unfold after
  split <;> rfl

/-- A turn suspends a call or leaves the suspended ones alone. -/
theorem suspended_subset_after (d : Driver) (t : Turn) :
    d.suspended ⊆ (after t d.stack).suspended := by
  unfold after
  split
  · exact List.Sublist.subset ((List.sublist_cons_self _ _).filterMap _)
  · exact fun _ hn => hn
  · exact fun _ hn => hn

/-- A call that starts files no value. -/
theorem values_begin (env : Environment) (l : Ledger) (c : Call) :
    (c.begin env l).ledger.values = l.values := by
  cases c with
  | name n =>
    simp only [Call.begin]
    split
    · rfl
    · split
      · rfl
      · split <;> rfl
  | value v =>
    cases v with
    | dict fs => rcases fs with - | ⟨⟨k, v⟩, rest⟩ <;> rfl
    | _ => rfl

/-- A name that a run does not enter any more: it is suspended, it has a value, or an error has
been thrown. -/
def Spent (d : Driver) (n : Name) : Prop :=
  n ∈ d.suspended ∨ n ∈ d.ledger.values.keys ∨ ∃ e, d.signal = .throw e

/-- A turn that files no value keeps spent what is spent, unless it is up against an error. -/
theorem Spent.after {t : Turn} (h : d.Spent n) (hsignal : ∀ e, d.signal ≠ .throw e)
    (hvalues : t.ledger.values = d.ledger.values) : (after t d.stack).Spent n := by
  rcases h with hs | hv | ⟨e, he⟩
  · exact .inl (suspended_subset_after d t hs)
  · exact .inr (.inl (by rwa [ledger_after, hvalues]))
  · exact absurd he (hsignal e)

theorem Spent.step (h : d.Spent n) (hstep : d.step env = .more d') : d'.Spent n := by
  obtain ⟨signal, stack, ledger⟩ := d
  cases signal with
  | start c =>
    cases hstep
    exact h.after (by simp) (values_begin env ledger c)
  | send v =>
    rcases stack with - | ⟨s, stack⟩ <;> cases hstep
    cases s with
    | binding m =>
      -- the name that is left has its value
      have hvalues : (Driver.after (Suspended.receive ledger v (.binding m)) stack).ledger.values =
          ledger.values.put m v := rfl
      rcases h with hs | hv | ⟨e, he⟩
      · rcases List.mem_cons.mp hs with rfl | hs
        · refine .inr (.inl ?_)
          rw [hvalues]
          exact Entries.mem_keys_of_get? (by rw [Entries.get?_put, if_pos rfl])
        · exact .inl hs
      · refine .inr (.inl ?_)
        rw [hvalues, Entries.keys_put]
        split
        · exact hv
        · exact List.mem_append_left _ hv
      · cases he
    | reference => exact Spent.after (d := ⟨.send v, stack, ledger⟩) h (by simp) rfl
    | field done k rest =>
      refine Spent.after (d := ⟨.send v, stack, ledger⟩) h (by simp) ?_
      rcases rest with - | ⟨⟨k', v'⟩, rest⟩ <;> rfl
  | throw e =>
    rcases stack with - | ⟨s, stack⟩ <;> cases hstep
    cases s <;> exact .inr (.inr ⟨e, rfl⟩)

/-- A name is entered where it is asked for and has no value. -/
theorem of_mark_entered (h : d.mark? env = some (.entered n)) :
    d.signal = .start (.name n) ∧ d.ledger.values.get? n = none := by
  obtain ⟨signal, stack, ledger⟩ := d
  cases signal with
  | start c =>
    cases c with
    | name m =>
      simp only [mark?, Call.begin] at h
      split at h
      · cases h
      · rename_i hv
        split at h
        · cases h
        · split at h <;> cases h
          exact ⟨rfl, hv⟩
    | value v =>
      cases v with
      | dict fs => rcases fs with - | ⟨⟨k, v⟩, rest⟩ <;> cases h
      | _ => cases h
  | send v =>
    rcases stack with - | ⟨s, stack⟩
    · cases h
    · cases s with
      | field done k rest => rcases rest with - | ⟨⟨k', v'⟩, rest⟩ <;> cases h
      | _ => cases h
  | throw e =>
    rcases stack with - | ⟨s, stack⟩
    · cases h
    · cases s <;> cases h

/-- A name is entered only while it is not spent, and it is spent from then on. -/
theorem spent_of_entered (h : d.KeepsUnderWay names) (hmark : d.mark? env = some (.entered n))
    (hstep : d.step env = .more d') : ¬ d.Spent n ∧ d'.Spent n := by
  rcases step_cases hstep with ⟨-, -, hm⟩ | ⟨m, hm, hs, -, hmark'⟩ | ⟨m, -, -, hm⟩
  · cases hmark.symm.trans hm
  · cases hmark.symm.trans hmark'
    obtain ⟨hsignal, hv⟩ := of_mark_entered hmark
    refine ⟨?_, .inl (hs ▸ List.mem_cons_self)⟩
    rintro (hn | hn | ⟨e, he⟩)
    · exact hm (h.underWay ▸ List.mem_append_left names hn)
    · exact Entries.get?_eq_none_iff.mp hv hn
    · cases hsignal.symm.trans he
  · cases hmark.symm.trans hm

theorem Reaches.count_entered_eq_zero (h : Reaches env d before d') (hkeeps : d.KeepsUnderWay names)
    (hn : d.Spent n) : (marks env before).count (.entered n) = 0 := by
  induction h with
  | here => rfl
  | turn hstep _ ih =>
    rw [marks_cons, List.count_append, ih (hkeeps.step hstep) (hn.step hstep), Nat.add_zero]
    refine List.count_eq_zero.mpr fun hmem => ?_
    exact (spent_of_entered hkeeps (Option.mem_toList.mp hmem) hstep).1 hn

/-- No name is entered twice on the way from one state to another. -/
theorem Reaches.count_entered_le_one (h : Reaches env d before d') (hkeeps : d.KeepsUnderWay names)
    (n : Name) : (marks env before).count (.entered n) ≤ 1 := by
  induction h with
  | here => exact Nat.zero_le 1
  | @turn d d₁ d' before hstep hreaches ih =>
    rw [marks_cons, List.count_append]
    by_cases hmark : d.mark? env = some (.entered n)
    · have hspent := (spent_of_entered hkeeps hmark hstep).2
      rw [hreaches.count_entered_eq_zero (hkeeps.step hstep) hspent, hmark]
      simp
    · have hzero : (d.mark? env).toList.count (.entered n) = 0 :=
        List.count_eq_zero.mpr fun hmem => hmark (Option.mem_toList.mp hmem)
      rw [hzero, Nat.zero_add]
      exact ih (hkeeps.step hstep)

end Driver

/-! ### Calls -/

/-- The answer to a call is what the loop comes to. -/
theorem Resolver.run_call (r : Resolver) (underWay : List Name) (c : Call) :
    Driver.run r.env ⟨.start c, [], ⟨r.values, underWay, []⟩⟩ =
      ⟨(r.call underWay c).result, ⟨(r.call underWay c).resolver.values,
        (r.call underWay c).underWay, (r.call underWay c).events⟩⟩ :=
  rfl

/-- Whatever a resolver has been asked before, with whatever names under way, and whether the call
succeeds or fails and where: the names under way are the same after a call as before it.

In every state of the run, the names under way are those from before and the suspended ones, each
of these once.  A name is suspended if it has been entered once more than it has been left; no name
is entered twice, and none that was under way before is entered or left at all. -/
theorem call_restores_underWay (env : Environment) (qs : List Question) (underWay : List Name)
    (c : Call) :
    let r := (History.after env qs).resolver
    let a := r.call underWay c
    let d : Driver := ⟨.start c, [], ⟨r.values, underWay, []⟩⟩
    a.underWay = underWay ∧
    d.run env = ⟨a.result, ⟨a.resolver.values, underWay, a.events⟩⟩ ∧
    (∀ before d' rest, d.trail env = before ++ d' :: rest →
      d'.ledger.underWay = d'.suspended ++ underWay ∧ d'.suspended.Nodup ∧
      (∀ n ∈ d'.suspended, n ∉ underWay) ∧
      ∀ n, (Driver.marks env before).count (.entered n) =
        (Driver.marks env before).count (.left n) + d'.suspended.count n) ∧
    (∀ n, (Driver.marks env (d.trail env)).count (.entered n) ≤ 1) ∧
    ∀ m ∈ Driver.marks env (d.trail env), m.name ∉ underWay := by
  intro r a d
  have henv : r.env = env := (History.keeps_after env qs).env_eq
  have hunder : a.underWay = underWay := r.underWay_call underWay c
  have hrun : d.run env = ⟨a.result, ⟨a.resolver.values, underWay, a.events⟩⟩ := by
    have hrun := r.run_call underWay c
    rwa [henv, r.underWay_call] at hrun
  have hstart : d.KeepsUnderWay underWay := ⟨rfl, List.nodup_nil, by simp [d, Driver.suspended]⟩
  refine ⟨hunder, hrun, ?_, ?_, ?_⟩
  · intro before d' rest htrail
    have hreaches := (Driver.reaches_of_trail htrail).1
    have hkeeps := hreaches.keepsUnderWay rfl
    refine ⟨hkeeps.underWay, hkeeps.nodup, hkeeps.disjoint, fun n => ?_⟩
    simpa [d, Driver.suspended] using Mark.count_of_openAfter? hreaches.openAfter? n
  · intro n
    obtain ⟨before, last, hreaches, -, hmarks⟩ := Driver.exists_reaches_last env d
    rw [hmarks]
    exact hreaches.count_entered_le_one hstart n
  · intro m hm
    obtain ⟨d', hd', hmark⟩ := List.mem_filterMap.mp hm
    obtain ⟨before, rest, htrail⟩ := List.append_of_mem hd'
    have hkeeps := (Driver.reaches_of_trail htrail).1.keepsUnderWay rfl
    exact Driver.name_notMem_of_mark hkeeps hmark

end HexDoc
