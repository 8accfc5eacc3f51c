/-
HexDoc/Resolution/Recursion.lean

The resolver as a plain recursion on values and names.  It keeps the ledger that the loop keeps
and does the same to it; what the loop has in suspended calls, the recursion has in its own.

Every call gives back a ledger with the same names under way, which is why a name that has
been left can be entered again and why the recursion ends.

There is one equation for each way in which a call can go.  `induct` is the induction along the
calls, with the cases named for what happens in them and with the hypotheses that the equations
have.  `induct_of_ok` is the induction along the calls that succeed, for what a call makes of its
ledger.
-/
import HexDoc.Resolution.Ledger

namespace HexDoc.Recursion

/-- A ledger in which the same names are under way. -/
abbrev Same (l : Ledger) := { l' : Ledger // l'.underWay = l.underWay }

/-- What comes of resolving with a ledger. -/
abbrev Resolved (l : Ledger) (α : Type) := Except ResolveError α × Same l

/-- Sees what was resolved with a later ledger as resolved with this one. -/
def fromHere {α : Type} {l : Ledger} (l' : Same l) (r : Resolved l'.1 α) : Resolved l α :=
  (r.1, ⟨r.2.1, r.2.2.trans l'.2⟩)

/-- A name that is entered and left again changes nothing about what is under way. -/
theorem underWay_leave_enter {l l' : Ledger} {n : Name} (hn : n ∉ l.underWay)
    (h : l'.underWay = (l.enter n).underWay) : (l'.leave n).underWay = l.underWay := by
  simp only [Ledger.leave, h, Ledger.enter]
  rw [List.filter_cons_of_neg (by simp)]
  refine List.filter_eq_self.mpr fun m hm => ?_
  simpa using fun hmn : m = n => hn (hmn ▸ hm)

mutual

/-- Resolves a name. -/
def name (env : Environment) (l : Ledger) (n : Name) : Resolved l Value :=
  match l.values.get? n with
  | some v => (.ok v, ⟨l.find n, rfl⟩)
  | none =>
    match _hn : env.get? n with
    | none => (.error (.unknown n), ⟨l, rfl⟩)
    | some raw =>
      if hp : n ∈ l.underWay then (.error (.cyclic n), ⟨l, rfl⟩)
      else
        match value env (l.enter n) raw with
        | (.error e, l') => (.error e, ⟨l'.1.leave n, underWay_leave_enter hp l'.2⟩)
        | (.ok v, l') => (.ok v, ⟨(l'.1.leave n).file n v, underWay_leave_enter hp l'.2⟩)
termination_by ((unvisited env l.underWay).length, 1, 0)
decreasing_by exact Prod.Lex.left _ _ (length_unvisited_cons_lt _hn hp)

/-- Resolves a value. -/
def value (env : Environment) (l : Ledger) (v : Value) : Resolved l Value :=
  match v with
  | .number n => (.ok (.number n), ⟨l, rfl⟩)
  | .foreign k => (.error (.foreign k), ⟨l, rfl⟩)
  | .reference n => name env l n
  | .dict fs =>
    match fields env l fs with
    | (.error e, l') => (.error e, l')
    | (.ok fs', l') => (.ok (.dict fs'), l')
termination_by ((unvisited env l.underWay).length, 2, sizeOf v)
decreasing_by
  · exact Prod.Lex.right _ (Prod.Lex.left _ _ (by omega))
  · exact Prod.Lex.right _ (Prod.Lex.right _ (by simp))

/-- Resolves the values of fields, in order. -/
def fields (env : Environment) (l : Ledger) (fs : List (Name × Value)) : Resolved l Fields :=
  match fs with
  | [] => (.ok [], ⟨l, rfl⟩)
  | (k, v) :: fs =>
    match value env l v with
    | (.error e, l') => (.error e, l')
    | (.ok v', l') =>
      fromHere l' <|
        match fields env l'.1 fs with
        | (.error e, l'') => (.error e, l'')
        | (.ok fs', l'') => (.ok ((k, v') :: fs'), l'')
termination_by ((unvisited env l.underWay).length, 2, sizeOf fs)
decreasing_by
  · exact Prod.Lex.right _ (Prod.Lex.right _ (by simp only [List.cons.sizeOf_spec, Prod.mk.sizeOf_spec]; omega))
  · rw [l'.2]
    exact Prod.Lex.right _ (Prod.Lex.right _ (by simp only [List.cons.sizeOf_spec, Prod.mk.sizeOf_spec]; omega))

end

/-! ### One equation for each case -/

variable {env : Environment} {l : Ledger} {n : Name} {raw v v' : Value} {k : Name}
variable {fs : List (Name × Value)} {e : ResolveError}

theorem name_of_found (hv : l.values.get? n = some v) :
    name env l n = (.ok v, ⟨l.find n, rfl⟩) := by
  rw [name]
  split
  · rename_i v' hv'
    cases hv.symm.trans hv'
    rfl
  · rename_i hv'
    cases hv.symm.trans hv'

/-- A name without a value is decided by its raw value. -/
theorem name_of_not_found (hv : l.values.get? n = none) :
    name env l n =
      match _hn : env.get? n with
      | none => (.error (.unknown n), ⟨l, rfl⟩)
      | some raw =>
        if hp : n ∈ l.underWay then (.error (.cyclic n), ⟨l, rfl⟩)
        else
          match value env (l.enter n) raw with
          | (.error e, l') => (.error e, ⟨l'.1.leave n, underWay_leave_enter hp l'.2⟩)
          | (.ok v, l') => (.ok v, ⟨(l'.1.leave n).file n v, underWay_leave_enter hp l'.2⟩) := by
  rw [name]
  split
  · rename_i v' hv'
    cases hv.symm.trans hv'
  · rfl

theorem name_of_unknown (hv : l.values.get? n = none) (hn : env.get? n = none) :
    name env l n = (.error (.unknown n), ⟨l, rfl⟩) := by
  rw [name_of_not_found hv]
  split
  · rfl
  · rename_i raw hn'
    cases hn.symm.trans hn'

theorem name_of_cyclic (hv : l.values.get? n = none) (hn : env.get? n = some raw)
    (hp : n ∈ l.underWay) : name env l n = (.error (.cyclic n), ⟨l, rfl⟩) := by
  rw [name_of_not_found hv]
  split
  · rename_i hn'
    cases hn.symm.trans hn'
  · rw [dif_pos hp]

theorem name_of_error (hv : l.values.get? n = none) (hn : env.get? n = some raw)
    (hp : n ∉ l.underWay) {l' : Same (l.enter n)}
    (h : value env (l.enter n) raw = (.error e, l')) :
    name env l n = (.error e, ⟨l'.1.leave n, underWay_leave_enter hp l'.2⟩) := by
  rw [name_of_not_found hv]
  split
  · rename_i hn'
    cases hn.symm.trans hn'
  · rename_i raw' hn'
    cases hn.symm.trans hn'
    rw [dif_neg hp, h]

theorem name_of_ok (hv : l.values.get? n = none) (hn : env.get? n = some raw)
    (hp : n ∉ l.underWay) {l' : Same (l.enter n)}
    (h : value env (l.enter n) raw = (.ok v, l')) :
    name env l n = (.ok v, ⟨(l'.1.leave n).file n v, underWay_leave_enter hp l'.2⟩) := by
  rw [name_of_not_found hv]
  split
  · rename_i hn'
    cases hn.symm.trans hn'
  · rename_i raw' hn'
    cases hn.symm.trans hn'
    rw [dif_neg hp, h]

/-- A name that is entered is answered as its raw value is. -/
theorem result_of_entered (hv : l.values.get? n = none) (hn : env.get? n = some raw)
    (hp : n ∉ l.underWay) : (name env l n).1 = (value env (l.enter n) raw).1 := by
  rcases h : value env (l.enter n) raw with ⟨e | v, l'⟩
  · rw [name_of_error hv hn hp h]
  · rw [name_of_ok hv hn hp h]

theorem value_number (m : Number) : value env l (.number m) = (.ok (.number m), ⟨l, rfl⟩) := by
  rw [value]

theorem value_foreign (t : String) :
    value env l (.foreign t) = (.error (.foreign t), ⟨l, rfl⟩) := by
  rw [value]

theorem value_reference : value env l (.reference n) = name env l n := by
  rw [value]

theorem value_dict :
    value env l (.dict fs) = ((fields env l fs).1.map .dict, (fields env l fs).2) := by
  rw [value]
  rcases fields env l fs with ⟨_ | fs', l'⟩ <;> rfl

theorem fields_nil : fields env l [] = (.ok [], ⟨l, rfl⟩) := by
  rw [fields]

theorem fields_cons_of_error {l' : Same l} (h : value env l v = (.error e, l')) :
    fields env l ((k, v) :: fs) = (.error e, l') := by
  rw [fields, h]

theorem fields_cons_of_ok {l' : Same l} (h : value env l v = (.ok v', l')) :
    fields env l ((k, v) :: fs) =
      ((fields env l'.1 fs).1.map ((k, v') :: ·), (fromHere l' (fields env l'.1 fs)).2) := by
  rw [fields, h]
  simp only
  rcases fields env l'.1 fs with ⟨_ | fs', l''⟩ <;> rfl

/-! ### Induction along the calls -/

/-- Induction along the calls.  A name is found, unknown or cyclic, or its raw value fails or is
filed; fields stop at the first one that fails. -/
theorem induct (env : Environment) {P : Ledger → Name → Prop} {Q : Ledger → Value → Prop}
    {R : Ledger → List (Name × Value) → Prop}
    (found : ∀ l n v, l.values.get? n = some v → P l n)
    (unknown : ∀ l n, l.values.get? n = none → env.get? n = none → P l n)
    (cyclic : ∀ l n raw, l.values.get? n = none → env.get? n = some raw → n ∈ l.underWay → P l n)
    (failed : ∀ l n raw e l', l.values.get? n = none → env.get? n = some raw → n ∉ l.underWay →
      value env (l.enter n) raw = (.error e, l') → Q (l.enter n) raw → P l n)
    (filed : ∀ l n raw v l', l.values.get? n = none → env.get? n = some raw → n ∉ l.underWay →
      value env (l.enter n) raw = (.ok v, l') → Q (l.enter n) raw → P l n)
    (number : ∀ l m, Q l (.number m))
    (foreign : ∀ l t, Q l (.foreign t))
    (reference : ∀ l n, P l n → Q l (.reference n))
    (dict : ∀ l fs, R l fs → Q l (.dict fs))
    (nil : ∀ l, R l [])
    (stopped : ∀ l k v fs e l', value env l v = (.error e, l') → Q l v → R l ((k, v) :: fs))
    (cons : ∀ l k v fs v' l', value env l v = (.ok v', l') → Q l v → R l'.1 fs →
      R l ((k, v) :: fs)) :
    (∀ l n, P l n) ∧ (∀ l v, Q l v) ∧ ∀ l fs, R l fs :=
  name.mutual_induct env P Q R found unknown
    (fun l n hv raw => cyclic l n raw hv)
    (fun l n hv raw hn hp e l' => failed l n raw e l' hv hn hp)
    (fun l n hv raw hn hp v l' => filed l n raw v l' hv hn hp)
    number foreign reference (fun l fs _ _ _ => dict l fs) (fun l fs _ _ _ => dict l fs) nil
    stopped cons

/-- Induction along the calls that succeed, for the ledger that each of them leaves. -/
theorem induct_of_ok (env : Environment) {P : Ledger → Name → Ledger → Prop}
    {Q : Ledger → Value → Ledger → Prop} {R : Ledger → List (Name × Value) → Ledger → Prop}
    (found : ∀ l n v, l.values.get? n = some v → P l n (l.find n))
    (filed : ∀ l n raw v (l' : Same (l.enter n)), l.values.get? n = none →
      env.get? n = some raw → n ∉ l.underWay → value env (l.enter n) raw = (.ok v, l') →
      Q (l.enter n) raw l' → P l n ((l'.1.leave n).file n v))
    (number : ∀ l m, Q l (.number m) l)
    (reference : ∀ l n l', P l n l' → Q l (.reference n) l')
    (dict : ∀ l fs l', R l fs l' → Q l (.dict fs) l')
    (nil : ∀ l, R l [] l)
    (cons : ∀ l k v fs (l' : Same l) l'', Q l v l' → R l' fs l'' → R l ((k, v) :: fs) l'') :
    (∀ l n w, (name env l n).1 = .ok w → P l n (name env l n).2) ∧
    (∀ l v w, (value env l v).1 = .ok w → Q l v (value env l v).2) ∧
    ∀ l fs fs', (fields env l fs).1 = .ok fs' → R l fs (fields env l fs).2 := by
  -- a call that fails has no answer, so nothing is asked of its ledger
  apply induct env
  case found =>
    intro l n v hv w hw
    rw [name_of_found hv]
    exact found l n v hv
  case unknown =>
    intro l n hv hn w hw
    rw [name_of_unknown hv hn] at hw
    cases hw
  case cyclic =>
    intro l n raw hv hn hp w hw
    rw [name_of_cyclic hv hn hp] at hw
    cases hw
  case failed =>
    intro l n raw e l' hv hn hp h ih w hw
    rw [name_of_error hv hn hp h] at hw
    cases hw
  case filed =>
    intro l n raw v l' hv hn hp h ih w hw
    rw [h] at ih
    rw [name_of_ok hv hn hp h]
    exact filed l n raw v l' hv hn hp h (ih v rfl)
  case number =>
    intro l m w hw
    rw [value_number]
    exact number l m
  case foreign =>
    intro l t w hw
    rw [value_foreign] at hw
    cases hw
  case reference =>
    intro l n ih w hw
    rw [value_reference] at hw ⊢
    exact reference l n _ (ih w hw)
  case dict =>
    intro l fs ih w hw
    rw [value_dict] at hw ⊢
    rcases h : (fields env l fs).1 with e | fs'
    · rw [h] at hw
      cases hw
    · exact dict l fs _ (ih fs' h)
  case nil =>
    intro l fs' hfs
    rw [fields_nil]
    exact nil l
  case stopped =>
    intro l k v fs e l' h ih fs' hfs
    rw [fields_cons_of_error h] at hfs
    cases hfs
  case cons =>
    intro l k v fs v' l' h ih ihs fs' hfs
    rw [h] at ih
    rw [fields_cons_of_ok h] at hfs ⊢
    rcases hrest : (fields env l'.1 fs).1 with e | rest
    · rw [hrest] at hfs
      cases hfs
    · exact cons l k v fs l' _ (ih v' rfl) (ihs rest hrest)

end HexDoc.Recursion
