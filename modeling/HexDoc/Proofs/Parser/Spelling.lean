/-
HexDoc/Proofs/Parser/Spelling.lean

What two documents come to that have the same tokens but for the spelling of numbers.  Tokens
agree if they have the same kind and text, or if they are numbers with digits whose values agree
in the low 64 bits (`Token.Agrees`).

The reader never looks at the numbers it has read: a step from a state without spelling leads
where the step from the state itself does, spelling apart (`ValueState.step_unspelled`), and
tokens that agree lead to the same (`ValueState.step_of_agrees`).  Main statement: over tokens
that agree, two runs end in the same state, spelling apart, or at tokens of the same index with
the same fault (`DocumentState.run_of_agrees`).
-/
import HexDoc.Proofs.Parser.Stream
import HexDoc.Value.Spelling
import Mathlib.Data.List.Forall2

namespace HexDoc

/-- Two tokens are the same by kind and text, or numbers that stand for the same word. -/
def Token.Agrees (t u : Token) : Prop :=
  t.lexeme = u.lexeme ∨
    t.kind = .number ∧ u.kind = .number ∧
      ∃ ds es, Hex.digitsOf? t.text = some ds ∧ Hex.digitsOf? u.text = some es ∧
        Hex.positional ds % UInt64.size = Hex.positional es % UInt64.size

theorem Token.Agrees.kind_eq {t u : Token} (h : t.Agrees u) : t.kind = u.kind := by
  rcases h with h | ⟨ht, hu, -⟩
  · exact congrArg Prod.fst h
  · rw [ht, hu]

/-- Literals whose values agree in the low 64 bits are the same number, spelling apart. -/
theorem Number.exists_ofLexeme? {l m : String} {ds es : List Char}
    (hl : Hex.digitsOf? l = some ds) (hm : Hex.digitsOf? m = some es)
    (h : Hex.positional ds % UInt64.size = Hex.positional es % UInt64.size) :
    ∃ a b, Number.ofLexeme? l = some a ∧ Number.ofLexeme? m = some b ∧
      a.unspelled = b.unspelled := by
  refine ⟨⟨l, Hex.word ds⟩, ⟨m, Hex.word es⟩, ?_, ?_, ?_⟩
  · simp only [ofLexeme?, Hex.decode?, hl, Option.map_some]
  · simp only [ofLexeme?, Hex.decode?, hm, Option.map_some]
  · rw [unspelled, unspelled, Hex.word_eq_iff.mpr h]

/-! ### States without spelling -/

/-- An open dictionary without the literals of its numbers. -/
def OpenDict.unspelled (d : OpenDict) : OpenDict :=
  ⟨Value.unspelledFields d.fields, d.key⟩

/-- What comes next in a value, with the fields before it without the literals of their
numbers. -/
def Phase.unspelled : Phase → Phase
  | .nextField fs => .nextField (Value.unspelledFields fs)
  | .fieldColon fs k => .fieldColon (Value.unspelledFields fs) k
  | .fieldEnd fs => .fieldEnd (Value.unspelledFields fs)
  | p => p

/-- A value read in part, without the literals of its numbers. -/
def ValueState.unspelled (s : ValueState) : ValueState :=
  ⟨s.phase.unspelled, s.pending.map OpenDict.unspelled⟩

/-- A binding read in part, without the literals of its numbers. -/
def BindingState.unspelled : BindingState → BindingState
  | .inside n s => .inside n s.unspelled
  | s => s

/-- A document read in part, without the literals of its numbers. -/
def DocumentState.unspelled (s : DocumentState) : DocumentState :=
  ⟨Value.unspelledFields s.env, s.bound, s.binding.unspelled⟩

/-- Where a reader of values stands, without the literals of the numbers. -/
def ValueState.unspelledProgress : Progress ValueState Value → Progress ValueState Value
  | .more s => .more s.unspelled
  | .complete v => .complete v.unspelled

/-- Where a reader of bindings stands, without the literals of the numbers. -/
def BindingState.unspelledProgress :
    Progress BindingState (Name × Value) → Progress BindingState (Name × Value)
  | .more s => .more s.unspelled
  | .complete (n, v) => .complete (n, v.unspelled)

/-- There is nothing left to forget. -/
@[simp]
theorem OpenDict.unspelled_comp_unspelled :
    OpenDict.unspelled ∘ OpenDict.unspelled = OpenDict.unspelled := by
  funext d
  simp [unspelled]

/-! ### Steps of a value -/

namespace ValueState

/-- Handing over a value does not look at its numbers. -/
theorem unspelledProgress_supply (v : Value) (ds : List OpenDict) :
    unspelledProgress (supply v ds) = supply v.unspelled (ds.map OpenDict.unspelled) := by
  cases ds with
  | nil => rfl
  | cons d ds =>
    simp only [supply, unspelledProgress, unspelled, Phase.unspelled, List.map_cons,
      OpenDict.unspelled, Value.unspelledFields_put]

/-- A step does not look at the numbers that have been read. -/
theorem step_unspelled (s : ValueState) (t : Token) :
    (s.unspelled.step t).map unspelledProgress = (s.step t).map unspelledProgress := by
  obtain ⟨phase, ds⟩ := s
  cases phase with
  | value =>
    simp only [unspelled, Phase.unspelled, step]
    split
    · simp [Except.map, unspelledProgress, unspelled]
    · simp [Except.map, unspelledProgress, unspelled]
    · split
      · simp [Except.map, unspelledProgress_supply]
      · rfl
    · rfl
  | referenceName =>
    simp only [unspelled, Phase.unspelled, step]
    split
    · simp [Except.map, unspelledProgress, unspelled]
    · rfl
  | referenceEnd n =>
    simp only [unspelled, Phase.unspelled, step]
    cases t.demand .closeBracket with
    | error f => rfl
    | ok u => simp [Except.map, unspelledProgress_supply]
  | firstField =>
    simp only [unspelled, Phase.unspelled, step]
    split
    · simp [Except.map, unspelledProgress_supply]
    · cases fieldName t with
      | error f => rfl
      | ok k => simp [Except.map, unspelledProgress, unspelled]
  | nextField fs =>
    simp only [unspelled, Phase.unspelled, step]
    split
    · rfl
    · cases fieldName t with
      | error f => rfl
      | ok k => simp [Except.map, unspelledProgress, unspelled, Phase.unspelled]
  | fieldColon fs k =>
    simp only [unspelled, Phase.unspelled, step]
    cases t.demand .colon with
    | error f => rfl
    | ok u => simp [Except.map, unspelledProgress, unspelled, OpenDict.unspelled]
  | fieldEnd fs =>
    simp only [unspelled, Phase.unspelled, step]
    split
    · simp [Except.map, unspelledProgress, unspelled, Phase.unspelled]
    · simp [Except.map, unspelledProgress_supply, Value.unspelled]
    · rfl

/-- A number stands where a value is to come, and its word is all that counts. -/
theorem step_of_agrees (s : ValueState) {t u : Token} (h : t.Agrees u) :
    (s.step t).map unspelledProgress = (s.step u).map unspelledProgress := by
  rcases h with h | ⟨ht, hu, ds, es, hds, hes, hw⟩
  · have hstep : s.step t = s.step u := calc
      s.step t = s.step ⟨t.lexeme.1, t.lexeme.2, .nowhere⟩ := rfl
      _ = s.step ⟨u.lexeme.1, u.lexeme.2, .nowhere⟩ := by rw [h]
      _ = s.step u := rfl
    rw [hstep]
  · obtain ⟨a, b, ha, hb, hab⟩ := Number.exists_ofLexeme? hds hes hw
    obtain ⟨phase, ds⟩ := s
    cases phase with
    | value =>
      simp only [step, ht, hu, ha, hb, Except.map, unspelledProgress_supply, Value.unspelled, hab]
    | _ => simp [step, ht, hu, Token.demand, fieldName]

end ValueState

/-! ### Steps of a document -/

namespace BindingState

/-- Where a binding stands when its value stands there. -/
def enclose (n : Name) : Progress ValueState Value → Progress BindingState (Name × Value)
  | .more s => .more (.inside n s)
  | .complete v => .complete (n, v)

theorem step_inside (n : Name) (s : ValueState) (t : Token) :
    ((inside n s).step t).map unspelledProgress =
      ((s.step t).map ValueState.unspelledProgress).map (enclose n) := by
  rw [step]
  rcases s.step t with f | (s' | v) <;> rfl

theorem unspelled_eq_name_iff (s : BindingState) : s.unspelled = .name ↔ s = .name := by
  cases s <;> simp [unspelled]

/-- A step does not look at the numbers that have been read. -/
theorem step_unspelled (s : BindingState) (t : Token) :
    (s.unspelled.step t).map unspelledProgress = (s.step t).map unspelledProgress := by
  cases s with
  | name => rfl
  | equals n => rfl
  | inside n s => rw [unspelled, step_inside, step_inside, s.step_unspelled]

/-- A number fits inside a value only. -/
theorem step_of_agrees (s : BindingState) {t u : Token} (h : t.Agrees u) :
    (s.step t).map unspelledProgress = (s.step u).map unspelledProgress := by
  cases s with
  | name =>
    rcases h with h | ⟨ht, hu, -⟩
    · obtain ⟨hk, htext⟩ := Prod.mk.inj h
      simp only [step, hk, htext]
    · simp [step, ht, hu]
  | equals n => simp only [step, Token.demand, h.kind_eq]
  | inside n s => rw [step_inside, step_inside, s.step_of_agrees h]

end BindingState

namespace DocumentState

variable {s s' : DocumentState} {t u : Token}

theorem unspelled_after (s : DocumentState) (p : Progress BindingState (Name × Value)) :
    (s.after p).unspelled = s.unspelled.after (BindingState.unspelledProgress p) := by
  cases p with
  | more b => rfl
  | complete b => simp only [after, BindingState.unspelledProgress, unspelled,
      Value.unspelledFields_put, BindingState.unspelled]

theorem unspelled_step (s : DocumentState) (t : Token) :
    (s.step t).map unspelled =
      ((s.binding.step t).map BindingState.unspelledProgress).map s.unspelled.after := by
  rw [step]
  cases s.binding.step t with
  | error f => rfl
  | ok p => exact congrArg Except.ok (s.unspelled_after p)

/-- From states that are the same, spelling apart, tokens that agree lead to states that are the
same, spelling apart. -/
theorem step_of_agrees (hs : s.unspelled = s'.unspelled) (h : t.Agrees u) :
    (s.step t).map unspelled = (s'.step u).map unspelled := by
  have hb : s.binding.unspelled = s'.binding.unspelled := congrArg binding hs
  have hstep := calc
    (s.binding.step t).map BindingState.unspelledProgress
      = (s.binding.unspelled.step t).map BindingState.unspelledProgress :=
        (s.binding.step_unspelled t).symm
    _ = (s'.binding.step t).map BindingState.unspelledProgress := by
        rw [hb, s'.binding.step_unspelled]
    _ = (s'.binding.step u).map BindingState.unspelledProgress := s'.binding.step_of_agrees h
  rw [unspelled_step, unspelled_step, hstep, hs]

/-- Over tokens that agree, runs end in states that are the same, spelling apart, or with the
same fault at tokens of the same index. -/
theorem run_of_agrees {ts us : List Token} (h : List.Forall₂ Token.Agrees ts us)
    (hs : s.unspelled = s'.unspelled) :
    (∃ r r', run none s ts = .ok r ∧ run none s' us = .ok r' ∧ r.unspelled = r'.unspelled) ∨
      ∃ (i : Nat) (t u : Token) (f : GrammarFault), ts[i]? = some t ∧ us[i]? = some u ∧
        run none s ts = .error (.grammatical ⟨t.position, f⟩) ∧
        run none s' us = .error (.grammatical ⟨u.position, f⟩) := by
  induction h generalizing s s' with
  | nil => exact .inl ⟨s, s', rfl, rfl, hs⟩
  | @cons t u ts us htu _ ih =>
    have hname : s.binding = .name ↔ s'.binding = .name := by
      have hb : s.binding.unspelled = s'.binding.unspelled := congrArg binding hs
      rw [← s.binding.unspelled_eq_name_iff, hb, s'.binding.unspelled_eq_name_iff]
    by_cases hend : t.kind = .endOfText ∧ s.binding = .name
    · refine .inl ⟨s, s', run_cons_of_end hend.1 hend.2, ?_, hs⟩
      exact run_cons_of_end (htu.kind_eq ▸ hend.1) (hname.mp hend.2)
    have hend' : ¬ (u.kind = .endOfText ∧ s'.binding = .name) := by
      rwa [← htu.kind_eq, ← hname]
    rcases Outcome.cases_of_map_eq (step_of_agrees hs htu) with
      ⟨f, ht, hu⟩ | ⟨s₁, s₁', ht, hu, hstep⟩
    · exact .inr ⟨0, t, u, f, rfl, rfl, run_cons_of_error ht hend, run_cons_of_error hu hend'⟩
    · rw [run_cons_of_ok ht, run_cons_of_ok hu]
      rcases ih hstep with hok | ⟨i, v, w, f, hv, hw, herr⟩
      · exact .inl hok
      · exact .inr ⟨i + 1, v, w, f, hv, hw, herr⟩

end DocumentState

/-- Texts with tokens that agree are the same document, spelling apart, or have the same fault at
tokens of the same index. -/
theorem parse_of_agrees {s t : String} {ts us : List Token} (hs : tokenize s = .ok ts)
    (ht : tokenize t = .ok us) (h : List.Forall₂ Token.Agrees ts us) :
    (∃ env env', parse s = .ok env ∧ parse t = .ok env' ∧
        Value.unspelledFields env = Value.unspelledFields env') ∨
      ∃ (i : Nat) (u v : Token) (f : GrammarFault), ts[i]? = some u ∧ us[i]? = some v ∧
        parse s = .error (.grammatical ⟨u.position, f⟩) ∧
        parse t = .error (.grammatical ⟨v.position, f⟩) := by
  obtain ⟨hfs, hts⟩ := tokenize_eq_ok_iff.mp hs
  obtain ⟨hft, hus⟩ := tokenize_eq_ok_iff.mp ht
  rw [parse_eq_run, parse_eq_run, hfs, hts, hft, hus]
  rcases DocumentState.run_of_agrees h rfl with
    ⟨r, r', hr, hr', hrr⟩ | ⟨i, u, v, f, hu, hv, hr, hr'⟩
  · rw [hr, hr']
    exact .inl ⟨r.env, r'.env, rfl, rfl, congrArg DocumentState.env hrr⟩
  · rw [hr, hr']
    exact .inr ⟨i, u, v, f, hu, hv, rfl, rfl⟩

end HexDoc
