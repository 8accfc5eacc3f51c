/-
HexDoc/Proofs/Document/Recognition.lean

Reading tokens is recognising what they spell.  `Opened` says which tokens a row of open
dictionaries stands for, and `Partway` which tokens a value read in part stands for: each open
dictionary has been spelled as a brace, the fields before, a key and its colon.

Main statements: a token that fits a value read in part leaves a value spelled by one token more
(`Partway.step`), the tokens of a value lead past that value (`DocumentState.feed_value`), and
so the tokens that lead from the start to a state between two bindings are those of a
well-formed document, whose meaning is the environment of that state
(`DocumentState.feed_initial_eq_ok_iff`).
-/
import HexDoc.Proofs.Parser.Stream
import HexDoc.Proofs.Parser.Transitions

namespace HexDoc

open Written (WellFormedFields lexemesOfFields)

/-- What fields come to, read one by one. -/
def Written.collapsed (fs : List (Name × Written)) : Fields :=
  Entries.collapse (Written.valuesOfFields fs)

theorem Written.collapsed_snoc (fs : List (Name × Written)) (k : Name) (w : Written) :
    Written.collapsed (fs ++ [(k, w)]) = (Written.collapsed fs).put k w.value := by
  rw [collapsed, collapsed, valuesOfFields_eq_map, valuesOfFields_eq_map, List.map_append]
  exact Entries.collapse_snoc _ k w.value

/-- The tokens of fields and of the key of a further one. -/
def Written.upToKey (fs : List (Name × Written)) (k : Name) : List Lexeme :=
  (lexemesOfFields fs ++ [Lexeme.comma, .ofName k]).tail

theorem Written.tail_lexemesOfFields_snoc (fs : List (Name × Written)) (k : Name) (w : Written) :
    (lexemesOfFields (fs ++ [(k, w)])).tail = upToKey fs k ++ .colon :: w.lexemes := by
  rw [lexemesOfFields_snoc, upToKey, ← List.tail_append_of_ne_nil (by simp)]
  simp

theorem Written.upToKey_of_ne_nil {fs : List (Name × Written)} (h : fs ≠ []) (k : Name) :
    upToKey fs k = (lexemesOfFields fs).tail ++ [Lexeme.comma, .ofName k] :=
  List.tail_append_of_ne_nil (lexemesOfFields_ne_nil h)

/-! ### What has been spelled -/

/-- The tokens that a row of open dictionaries has been spelled with, the outermost first. -/
inductive Opened : List OpenDict → List Lexeme → Prop
  | nil : Opened [] []
  | cons {ds : List OpenDict} {ls : List Lexeme} {fs : List (Name × Written)} {k : Name} :
      Opened ds ls → WellFormedFields fs → IsName k →
      Opened (⟨Written.collapsed fs, k⟩ :: ds)
        (ls ++ .openBrace :: (Written.upToKey fs k ++ [.colon]))

/-- The tokens that a value read in part has been spelled with. -/
inductive Partway : ValueState → List Lexeme → Prop
  | value {ds : List OpenDict} {ls : List Lexeme} : Opened ds ls → Partway ⟨.value, ds⟩ ls
  | referenceName {ds : List OpenDict} {ls : List Lexeme} :
      Opened ds ls → Partway ⟨.referenceName, ds⟩ (ls ++ [.openBracket])
  | referenceEnd {ds : List OpenDict} {ls : List Lexeme} {n : Name} :
      Opened ds ls → IsName n →
      Partway ⟨.referenceEnd n, ds⟩ (ls ++ [.openBracket, .ofName n])
  | firstField {ds : List OpenDict} {ls : List Lexeme} :
      Opened ds ls → Partway ⟨.firstField, ds⟩ (ls ++ [.openBrace])
  | fieldColon {ds : List OpenDict} {ls : List Lexeme} {fs : List (Name × Written)} {k : Name} :
      Opened ds ls → WellFormedFields fs → IsName k →
      Partway ⟨.fieldColon (Written.collapsed fs) k, ds⟩
        (ls ++ .openBrace :: Written.upToKey fs k)
  | fieldEnd {ds : List OpenDict} {ls : List Lexeme} {fs : List (Name × Written)} :
      Opened ds ls → WellFormedFields fs → fs ≠ [] →
      Partway ⟨.fieldEnd (Written.collapsed fs), ds⟩
        (ls ++ .openBrace :: (lexemesOfFields fs).tail)
  | nextField {ds : List OpenDict} {ls : List Lexeme} {fs : List (Name × Written)} :
      Opened ds ls → WellFormedFields fs → fs ≠ [] →
      Partway ⟨.nextField (Written.collapsed fs), ds⟩
        (ls ++ .openBrace :: ((lexemesOfFields fs).tail ++ [.comma]))

/-- The tokens that have been spelled when a value is complete, or is still read in part. -/
def Spelled : Progress ValueState Value → List Lexeme → Prop
  | .more s, ls => Partway s ls
  | .complete v, ls => ∃ w : Written, w.WellFormed ∧ w.value = v ∧ w.lexemes = ls

/-- A value that is handed to the open dictionaries has been spelled behind them. -/
theorem Opened.supply {ds : List OpenDict} {ls : List Lexeme} (h : Opened ds ls) {w : Written}
    (hw : w.WellFormed) : Spelled (ValueState.supply w.value ds) (ls ++ w.lexemes) := by
  cases h with
  | nil => exact ⟨w, hw, rfl, rfl⟩
  | @cons ds ls fs k hds hfs hk =>
    -- the field is now one of those that have been read
    have hne : fs ++ [(k, w)] ≠ [] := by simp
    have hend := Partway.fieldEnd hds (Written.wellFormedFields_snoc hfs hk hw) hne
    rw [Written.collapsed_snoc, Written.tail_lexemesOfFields_snoc] at hend
    simpa [ValueState.supply, Spelled] using hend

/-- A token that fits a value read in part leaves it spelled by one token more. -/
theorem Partway.step {s : ValueState} {ls : List Lexeme} (h : Partway s ls) {l : Lexeme}
    (hl : IsLexeme l) {p : Progress ValueState Value} (hp : s.Fits l p) :
    Spelled p (ls ++ [l]) := by
  cases hp with
  | openBrace =>
    cases h with
    | value hds => exact .firstField hds
  | openBracket =>
    cases h with
    | value hds => exact .referenceName hds
  | @number ds l w hw =>
    cases h with
    | value hds =>
      have hsup := hds.supply (w := .number l) (by simp [Written.WellFormed, hw])
      simpa [Written.value, hw, Written.lexemes] using hsup
  | referenceName =>
    cases h with
    | @referenceName ds ls hds =>
      rw [List.append_assoc]
      exact .referenceEnd hds hl
  | @closeBracket ds n =>
    cases h with
    | @referenceEnd ds ls n hds hn =>
      rw [List.append_assoc]
      show Spelled (ValueState.supply (Written.reference n).value ds)
        (ls ++ (Written.reference n).lexemes)
      exact hds.supply hn
  | @emptyDict ds =>
    cases h with
    | @firstField ds ls hds =>
      rw [List.append_assoc]
      show Spelled (ValueState.supply (Written.dict []).value ds) (ls ++ (Written.dict []).lexemes)
      exact hds.supply trivial
  | firstKey =>
    cases h with
    | @firstField ds ls hds =>
      rw [List.append_assoc]
      -- no field has been read yet, so the key stands right behind the brace
      exact @Partway.fieldColon _ _ [] _ hds trivial hl
  | @nextKey ds fs k =>
    cases h with
    | @nextField ds ls fs hds hfs hne =>
      have hk : IsName k := hl
      have hcolon := Partway.fieldColon hds hfs hk
      rw [Written.upToKey_of_ne_nil hne] at hcolon
      simpa [Spelled] using hcolon
  | @colon ds fs k =>
    cases h with
    | @fieldColon ds ls fs k hds hfs hk =>
      rw [List.append_assoc]
      exact Partway.value (.cons hds hfs hk)
  | comma =>
    cases h with
    | @fieldEnd ds ls fs hds hfs hne =>
      rw [List.append_assoc]
      exact .nextField hds hfs hne
  | closeBrace =>
    cases h with
    | @fieldEnd ds ls fs hds hfs hne =>
      -- the dictionary is complete: it has been spelled from its brace to this one
      have hsup := hds.supply (w := .dict fs) hfs
      rw [Written.lexemes_dict] at hsup
      rw [List.append_assoc]
      exact hsup

/-! ### Bindings and documents -/

/-- The tokens that a binding read in part has been spelled with. -/
inductive BindingState.Spelled : BindingState → List Lexeme → Prop
  | name : Spelled .name []
  | equals {n : Name} : IsName n → Spelled (.equals n) [.ofName n]
  | inside {n : Name} {s : ValueState} {ls : List Lexeme} :
      IsName n → Partway s ls → Spelled (.inside n s) (.ofName n :: .equals :: ls)

namespace WrittenDocument

theorem lexemes_snoc (d : WrittenDocument) (n : Name) (w : Written) :
    lexemes (d ++ [(n, w)]) = d.lexemes ++ .ofName n :: .equals :: w.lexemes := by
  induction d with
  | nil => simp [lexemes]
  | cons b d ih => simp [lexemes, ih]

theorem environment_snoc (d : WrittenDocument) (n : Name) (w : Written) :
    environment (d ++ [(n, w)]) = d.environment.put n w.value := by
  rw [environment, environment, List.map_append]
  exact Entries.collapse_snoc _ n w.value

theorem wellFormed_snoc {d : WrittenDocument} {n : Name} {w : Written} (hd : d.WellFormed)
    (hn : IsName n) (hw : w.WellFormed) : WellFormed (d ++ [(n, w)]) :=
  Written.wellFormedFields_iff.mp
    (Written.wellFormedFields_snoc (Written.wellFormedFields_iff.mpr hd) hn hw)

end WrittenDocument

namespace DocumentState

/-- A document in which the value of a binding is read in part, or has just been read. -/
def inValue (env : Environment) (bound : List Name) (n : Name) :
    Progress ValueState Value → DocumentState
  | .more s => ⟨env, bound, .inside n s⟩
  | .complete v => ⟨env.put n v, bound ++ [n], .name⟩

variable {env : Environment} {bound : List Name} {n : Name}

/-- Inside a value the reader of values decides. -/
theorem step_inside_eq_ok_iff {s : ValueState} {t : Token} {s' : DocumentState} :
    step ⟨env, bound, .inside n s⟩ t = .ok s' ↔
      ∃ p, s.step t = .ok p ∧ inValue env bound n p = s' := by
  simp only [step, BindingState.step, Outcome.map_eq_ok_iff]
  constructor
  · rintro ⟨_, ⟨p, hp, rfl⟩, rfl⟩
    exact ⟨p, hp, by cases p <;> rfl⟩
  · rintro ⟨p, hp, rfl⟩
    exact ⟨_, ⟨p, hp, rfl⟩, by cases p <;> rfl⟩

/-! ### What is accepted has been spelled -/

/-- What a document read in part has been spelled with: the bindings of `d`, and `ls` of the
binding that is being read. -/
structure Spelled (s : DocumentState) (d : WrittenDocument) (ls : List Lexeme) : Prop where
  wellFormed : d.WellFormed
  env : s.env = d.environment
  bound : s.bound = Entries.keys d
  binding : s.binding.Spelled ls

theorem spelled_initial : initial.Spelled [] [] :=
  ⟨by simp [WrittenDocument.WellFormed], rfl, rfl, .name⟩

/-- A value that is complete, or read on, has been spelled behind the name of its binding. -/
theorem spelled_inValue {d : WrittenDocument} (hd : d.WellFormed) (hn : IsName n)
    {p : Progress ValueState Value} {ls : List Lexeme} (hp : HexDoc.Spelled p ls) :
    ∃ d' ls', (inValue d.environment (Entries.keys d) n p).Spelled d' ls' ∧
      d'.lexemes ++ ls' = d.lexemes ++ .ofName n :: .equals :: ls := by
  cases p with
  | more s => exact ⟨d, _, ⟨hd, rfl, rfl, .inside hn hp⟩, rfl⟩
  | complete v =>
    obtain ⟨w, hw, rfl, rfl⟩ := hp
    refine ⟨d ++ [(n, w)], [], ⟨WrittenDocument.wellFormed_snoc hd hn hw, ?_, ?_, .name⟩, ?_⟩
    · rw [WrittenDocument.environment_snoc]
      rfl
    · rw [Entries.keys_append]
      rfl
    · rw [WrittenDocument.lexemes_snoc, List.append_nil]

/-- A token that is accepted leaves a document spelled by one token more. -/
theorem Spelled.step {s s' : DocumentState} {d : WrittenDocument} {ls : List Lexeme}
    (h : s.Spelled d ls) {t : Token} (ht : IsLexeme t.lexeme) (hs : s.step t = .ok s') :
    ∃ d' ls', s'.Spelled d' ls' ∧ d'.lexemes ++ ls' = d.lexemes ++ ls ++ [t.lexeme] := by
  obtain ⟨hd, henv, hbound, hb⟩ := h
  obtain ⟨env, bound, b⟩ := s
  cases henv
  cases hbound
  cases hb with
  | name =>
    -- the binding before is complete, and a new one begins
    obtain ⟨p, hp, rfl⟩ := Outcome.map_eq_ok_iff.mp hs
    simp only [BindingState.step] at hp
    split at hp
    · rename_i hk
      cases hp
      have hname := Token.lexeme_eq_name hk
      refine ⟨d, [t.lexeme], ⟨hd, rfl, rfl, ?_⟩, by simp⟩
      rw [hname] at ht ⊢
      exact .equals ht
    · cases hp
  | @equals n hn =>
    obtain ⟨p, hp, rfl⟩ := Outcome.map_eq_ok_iff.mp hs
    obtain ⟨u, hu, rfl⟩ := Outcome.map_eq_ok_iff.mp hp
    rw [Token.lexeme_eq_mark ht (l := .equals) (by simp) (ValueState.demand_eq_ok hu)]
    exact ⟨d, _, ⟨hd, rfl, rfl, .inside hn (.value .nil)⟩, by simp⟩
  | @inside n s ls hn hpart =>
    obtain ⟨p, hp, rfl⟩ := step_inside_eq_ok_iff.mp hs
    have hsp := hpart.step ht ((ValueState.step_eq_ok_iff ht).mp hp)
    obtain ⟨d', ls', hs', heq⟩ := spelled_inValue hd hn hsp
    exact ⟨d', ls', hs', by simp [heq]⟩

/-- Tokens that are accepted leave a document spelled by them. -/
theorem Spelled.feed {s s' : DocumentState} {d : WrittenDocument} {ls ms : List Lexeme}
    (h : s.Spelled d ls) (hms : ∀ l ∈ ms, IsLexeme l) (hs : s.feed ms = .ok s') :
    ∃ d' ls', s'.Spelled d' ls' ∧ d'.lexemes ++ ls' = d.lexemes ++ ls ++ ms := by
  induction ms generalizing s d ls with
  | nil =>
    cases hs
    exact ⟨d, ls, h, by simp⟩
  | cons l ms ih =>
    obtain ⟨hl, hms⟩ := List.forall_mem_cons.mp hms
    obtain ⟨s₁, hstep, hs⟩ := exists_of_feed_cons hs
    obtain ⟨d₁, ls₁, h₁, heq₁⟩ := h.step (t := ⟨l.1, l.2, .nowhere⟩) hl hstep
    obtain ⟨d', ls', h', heq⟩ := ih h₁ hms hs
    refine ⟨d', ls', h', ?_⟩
    rw [heq, heq₁]
    simp [Token.lexeme]

/-! ### What is written is accepted -/

theorem feed_of_fits {s : ValueState} {l : Lexeme} {p : Progress ValueState Value}
    (h : s.Fits l p) (rest : List Lexeme) :
    feed ⟨env, bound, .inside n s⟩ (l :: rest) = feed (inValue env bound n p) rest :=
  feed_cons_of_ok (step_inside_eq_ok_iff.mpr ⟨p, ValueState.step_of_fits h .nowhere, rfl⟩)

mutual

/-- The tokens of a value lead past that value. -/
theorem feed_value {w : Written} (h : w.WellFormed) (ds : List OpenDict) (rest : List Lexeme) :
    feed ⟨env, bound, .inside n ⟨.value, ds⟩⟩ (w.lexemes ++ rest) =
      feed (inValue env bound n (ValueState.supply w.value ds)) rest := by
  match w with
  | .number l =>
    obtain ⟨u, hu⟩ := Option.isSome_iff_exists.mp h
    rw [Written.lexemes, Written.value, hu]
    exact feed_of_fits (.number hu) rest
  | .reference m =>
    rw [Written.lexemes, Written.value]
    calc feed ⟨env, bound, .inside n ⟨.value, ds⟩⟩
          (.openBracket :: .ofName m :: .closeBracket :: rest)
        = feed ⟨env, bound, .inside n ⟨.referenceName, ds⟩⟩
            (.ofName m :: .closeBracket :: rest) := feed_of_fits .openBracket _
      _ = feed ⟨env, bound, .inside n ⟨.referenceEnd m, ds⟩⟩ (.closeBracket :: rest) :=
            feed_of_fits .referenceName _
      _ = feed (inValue env bound n (ValueState.supply (.reference m) ds)) rest :=
            feed_of_fits .closeBracket _
  | .dict [] =>
    rw [Written.lexemes, Written.value]
    calc feed ⟨env, bound, .inside n ⟨.value, ds⟩⟩ (.openBrace :: .closeBrace :: rest)
        = feed ⟨env, bound, .inside n ⟨.firstField, ds⟩⟩ (.closeBrace :: rest) :=
            feed_of_fits .openBrace _
      _ = feed (inValue env bound n (ValueState.supply (.dict []) ds)) rest :=
            feed_of_fits .emptyDict _
  | .dict ((k, w) :: fs) =>
    rw [Written.lexemes_dict, Written.value]
    calc feed ⟨env, bound, .inside n ⟨.value, ds⟩⟩
          (.openBrace :: ((lexemesOfFields ((k, w) :: fs)).tail ++ [.closeBrace]) ++ rest)
        = feed ⟨env, bound, .inside n ⟨.firstField, ds⟩⟩
            (.ofName k :: .colon :: (w.lexemes ++ (lexemesOfFields fs ++ .closeBrace :: rest))) := by
          rw [lexemesOfFields]
          simpa [inValue] using feed_of_fits .openBrace _
      _ = feed ⟨env, bound, .inside n ⟨.fieldColon [] k, ds⟩⟩
            (.colon :: (w.lexemes ++ (lexemesOfFields fs ++ .closeBrace :: rest))) :=
            feed_of_fits .firstKey _
      _ = feed ⟨env, bound, .inside n ⟨.value, ⟨[], k⟩ :: ds⟩⟩
            (w.lexemes ++ (lexemesOfFields fs ++ .closeBrace :: rest)) := feed_of_fits .colon _
      _ = feed ⟨env, bound, .inside n ⟨.fieldEnd (Entries.put [] k w.value), ds⟩⟩
            (lexemesOfFields fs ++ .closeBrace :: rest) := feed_value h.2.1 _ _
      _ = _ := feed_fields h.2.2 _ _ _

/-- The tokens of the fields that are left lead past their dictionary. -/
theorem feed_fields {fs : List (Name × Written)} (h : WellFormedFields fs) (done : Fields)
    (ds : List OpenDict) (rest : List Lexeme) :
    feed ⟨env, bound, .inside n ⟨.fieldEnd done, ds⟩⟩
        (lexemesOfFields fs ++ .closeBrace :: rest) =
      feed (inValue env bound n (ValueState.supply
        (.dict (Entries.putAll done (Written.valuesOfFields fs))) ds)) rest := by
  match fs with
  | [] =>
    rw [lexemesOfFields, Written.valuesOfFields]
    exact feed_of_fits .closeBrace rest
  | (k, w) :: fs =>
    rw [lexemesOfFields, Written.valuesOfFields]
    calc feed ⟨env, bound, .inside n ⟨.fieldEnd done, ds⟩⟩
          (.comma :: .ofName k :: .colon :: (w.lexemes ++ lexemesOfFields fs) ++ .closeBrace :: rest)
        = feed ⟨env, bound, .inside n ⟨.nextField done, ds⟩⟩
            (.ofName k :: .colon :: (w.lexemes ++ (lexemesOfFields fs ++ .closeBrace :: rest))) := by
          simpa [inValue] using feed_of_fits .comma _
      _ = feed ⟨env, bound, .inside n ⟨.fieldColon done k, ds⟩⟩
            (.colon :: (w.lexemes ++ (lexemesOfFields fs ++ .closeBrace :: rest))) :=
            feed_of_fits .nextKey _
      _ = feed ⟨env, bound, .inside n ⟨.value, ⟨done, k⟩ :: ds⟩⟩
            (w.lexemes ++ (lexemesOfFields fs ++ .closeBrace :: rest)) := feed_of_fits .colon _
      _ = feed ⟨env, bound, .inside n ⟨.fieldEnd (done.put k w.value), ds⟩⟩
            (lexemesOfFields fs ++ .closeBrace :: rest) := feed_value h.2.1 _ _
      _ = _ := feed_fields h.2.2 _ _ _

end

/-- The tokens of a document lead past its bindings. -/
theorem feed_document {d : WrittenDocument} (h : d.WellFormed) (env : Environment)
    (bound : List Name) :
    feed ⟨env, bound, .name⟩ d.lexemes =
      .ok ⟨Entries.putAll env (d.map fun b => (b.1, b.2.value)), bound ++ Entries.keys d, .name⟩ := by
  induction d generalizing env bound with
  | nil => simp [WrittenDocument.lexemes, feed, Entries.putAll]
  | cons b d ih =>
    obtain ⟨n, w⟩ := b
    obtain ⟨⟨hn, hw⟩, hd⟩ := List.forall_mem_cons.mp h
    calc feed ⟨env, bound, .name⟩ (.ofName n :: .equals :: (w.lexemes ++ WrittenDocument.lexemes d))
        = feed ⟨env, bound, .equals n⟩ (.equals :: (w.lexemes ++ WrittenDocument.lexemes d)) :=
          feed_cons_of_ok rfl
      _ = feed ⟨env, bound, .inside n ⟨.value, []⟩⟩ (w.lexemes ++ WrittenDocument.lexemes d) :=
          feed_cons_of_ok rfl
      _ = feed ⟨env.put n w.value, bound ++ [n], .name⟩ (WrittenDocument.lexemes d) :=
          feed_value hw [] _
      _ = _ := by
        rw [ih hd, List.append_assoc]
        rfl

/-- Tokens lead from the start to a state between two bindings exactly when they are those of a
well-formed document, and they come to what that document means. -/
theorem feed_initial_eq_ok_iff {ls : List Lexeme} (hls : ∀ l ∈ ls, IsLexeme l)
    {s : DocumentState} :
    initial.feed ls = .ok s ∧ s.binding = .name ↔
      ∃ d : WrittenDocument, d.WellFormed ∧ d.lexemes = ls ∧
        s = ⟨d.environment, Entries.keys d, .name⟩ := by
  constructor
  · rintro ⟨hfeed, hb⟩
    obtain ⟨d, ms, hs, heq⟩ := spelled_initial.feed hls hfeed
    obtain ⟨env, bound, b⟩ := s
    obtain ⟨hd, rfl, rfl, hms⟩ := hs
    cases hb
    cases hms
    exact ⟨d, hd, by simpa [WrittenDocument.lexemes] using heq, rfl⟩
  · rintro ⟨d, hd, rfl, rfl⟩
    exact ⟨feed_document hd [] [], rfl⟩

end DocumentState

end HexDoc
