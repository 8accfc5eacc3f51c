/-
HexDoc/Proofs/Document/Numbers.lean

Number tokens and hex literals.  The tokens of a text and the decoding of literals have each their
own idea of a number: a number token needs no digits behind its letter, a literal has one at least.
Whatever is decoded is one number token, and a number token is decoded unless it is `Hex.IsBare`.

A bare number token is refused where a value is expected, and only there does the refusal have the
wording of a literal.  It is refused before the token behind it is read, so a fault further on does
not come first.

Main statement: `number_tokens_and_literals`.
-/
import HexDoc.Proofs.Document.RoundTrip
import HexDoc.Proofs.Document.Viable

namespace HexDoc

/-- A zero and the letter of a literal, with no digits. -/
def Hex.IsBare (l : String) : Prop :=
  l = "0x" ∨ l = "0X"

/-- The kinds of token that a value begins with. -/
def Kind.BeginsValue : Kind → Prop
  | .number | .openBracket | .openBrace => True
  | _ => False

/-- Behind these tokens a value may stand. -/
def ExpectsValue (ls : List Lexeme) : Prop :=
  ∃ w : Written, w.WellFormed ∧ IsViable (ls ++ w.lexemes)

/-! ### Literals and number tokens -/

/-- A number token is bare when no digits follow its letter. -/
theorem Hex.isBare_iff {l : String} {x : Char} {ds : List Char} (hl : l.toList = '0' :: x :: ds)
    (hx : x = 'x' ∨ x = 'X') : IsBare l ↔ ds = [] := by
  rw [IsBare, ← String.toList_inj, ← String.toList_inj, hl]
  have hlower : "0x".toList = ['0', 'x'] := rfl
  have hupper : "0X".toList = ['0', 'X'] := rfl
  rw [hlower, hupper]
  rcases hx with rfl | rfl <;> simp

/-- A number token is not decoded exactly when it is bare. -/
theorem Hex.decode?_eq_none_iff {l : String} (h : IsLexeme (.number, l)) :
    decode? l = none ↔ IsBare l := by
  obtain ⟨x, ds, hl, hx, hds⟩ := h
  have hl' : l.toList = '0' :: x :: ds := hl
  rw [isBare_iff hl' hx, decode?, Option.map_eq_none_iff, digitsOf?, hl']
  by_cases hne : ds = []
  · simp [hne]
  · simp [hne, hx, hds]

/-- Whatever is decoded is one number token. -/
theorem tokenize_of_decode? {s : String} (h : (Hex.decode? s).isSome = true) :
    ∃ t last, tokenize s = .ok [t, last] ∧ t.lexeme = (.number, s) ∧ last.kind = .endOfText := by
  have hlayout : Layout none [(Kind.number, s)] s.toList := by
    simpa using Layout.token (l := (Kind.number, s)) .empty (by simp) (.stop (.gap .empty))
  obtain ⟨us, last, htok, hus, hlast⟩ :=
    tokenize_layout (List.forall_mem_singleton.mpr (isLexeme_number h)) hlayout
  obtain ⟨t, rfl, ht⟩ := List.map_eq_singleton_iff.mp hus
  exact ⟨t, last, htok, ht, hlast⟩

/-! ### Where a bare number is refused -/

theorem Written.exists_head (w : Written) :
    ∃ l rest, w.lexemes = l :: rest ∧ l.1.BeginsValue := by
  cases w with
  | number l => exact ⟨_, _, rfl, trivial⟩
  | reference n => exact ⟨_, _, rfl, trivial⟩
  | dict fs => exact ⟨_, _, lexemes_dict fs, trivial⟩

theorem head?_toList_append {s t : String} {c : Char} (h : s.toList.head? = some c) :
    (s ++ t).toList.head? = some c := by
  rw [String.toList_append, List.head?_append, h]
  rfl

/-- Only the wording for a number without digits starts as that for a literal does. -/
theorem GrammarFault.head?_message {f : GrammarFault} (h : f.message.toList.head? = some 'I') :
    ∃ m, f = .badNumber m := by
  have hne {c : Char} (hc : f.message.toList.head? = some c) : c = 'I' :=
    Option.some.inj (hc.symm.trans h)
  cases f with
  | badNumber m => exact ⟨m, rfl⟩
  | expected want got =>
    have hhead : "Expected ".toList.head? = some 'E' := rfl
    exact absurd (hne (head?_toList_append (head?_toList_append (head?_toList_append hhead))))
      (by decide)
  | noValue got =>
    have hhead : "Unexpected token when parsing value: ".toList.head? = some 'U' := rfl
    exact absurd (hne (head?_toList_append hhead)) (by decide)
  | _ => exact absurd (hne rfl) (by decide)

/-- Only a number without digits is refused in the wording for a literal. -/
theorem GrammarFault.message_eq_invalidMessage_iff {f : GrammarFault} {l : String} :
    f.message = Hex.invalidMessage l ↔ f = .badNumber l := by
  constructor
  · intro h
    have hhead : "Invalid hex number: '".toList.head? = some 'I' := rfl
    obtain ⟨m, rfl⟩ := f.head?_message (by
      rw [h]
      exact head?_toList_append (head?_toList_append hhead))
    exact congrArg badNumber ((String.append_right_inj _).mp ((String.append_left_inj _).mp h))
  · rintro rfl
    rfl

/-- A value read in part refuses a bare number where it has not been begun, and nowhere else. -/
theorem ValueState.step_eq_badNumber_iff {s : ValueState} {t : Token} {l : String} :
    s.step t = .error (.badNumber l) ↔
      s.phase = .value ∧ t.kind = .number ∧ t.text = l ∧ Hex.decode? l = none := by
  obtain ⟨phase, ds⟩ := s
  constructor
  · intro h
    cases phase with
    | value =>
      simp only [step] at h
      split at h
      · cases h
      · cases h
      · rename_i hk
        split at h
        · cases h
        · rename_i hn
          cases h
          exact ⟨rfl, hk, rfl, Option.map_eq_none_iff.mp hn⟩
      · cases h
    | referenceName =>
      simp only [step] at h
      split at h <;> cases h
    | referenceEnd n => cases demand_eq_error (Outcome.map_eq_error_iff.mp h)
    | firstField =>
      simp only [step] at h
      split at h
      · cases h
      · cases fieldName_eq_error (Outcome.map_eq_error_iff.mp h)
    | nextField fs =>
      simp only [step] at h
      split at h
      · cases h
      · cases fieldName_eq_error (Outcome.map_eq_error_iff.mp h)
    | fieldColon fs k => cases demand_eq_error (Outcome.map_eq_error_iff.mp h)
    | fieldEnd fs =>
      simp only [step] at h
      split at h <;> cases h
  · rintro ⟨hphase, hk, rfl, hnone⟩
    have hn : Number.ofLexeme? t.text = none := Option.map_eq_none_iff.mpr hnone
    cases hphase
    simp only [step, hk, hn]

namespace DocumentState

variable {s s' : DocumentState} {t : Token} {l : String}

/-- A value comes next. -/
def AwaitsValue (s : DocumentState) : Prop :=
  ∃ n ds, s.binding = .inside n ⟨.value, ds⟩

/-- A bare number is refused where a value comes next, and nowhere else. -/
theorem step_eq_badNumber_iff :
    s.step t = .error (.badNumber l) ↔
      s.AwaitsValue ∧ t.kind = .number ∧ t.text = l ∧ Hex.decode? l = none := by
  obtain ⟨env, bound, b⟩ := s
  rw [step, Outcome.map_eq_error_iff]
  cases b with
  | name =>
    simp only [BindingState.step, AwaitsValue]
    split <;> simp
  | equals n =>
    rw [BindingState.step, Outcome.map_eq_error_iff]
    constructor
    · intro h
      cases ValueState.demand_eq_error h
    · rintro ⟨⟨n, ds, hb⟩, -⟩
      cases hb
  | inside n s =>
    obtain ⟨phase, ds⟩ := s
    rw [BindingState.step, Outcome.map_eq_error_iff, ValueState.step_eq_badNumber_iff]
    simp [AwaitsValue]

/-- Where the first token of a value fits, a value comes next. -/
theorem awaitsValue_of_step (ht : IsLexeme t.lexeme) (hk : t.kind.BeginsValue)
    (h : s.step t = .ok s') : s.AwaitsValue := by
  obtain ⟨env, bound, b⟩ := s
  cases b with
  | name =>
    obtain ⟨p, hp, -⟩ := Outcome.map_eq_ok_iff.mp h
    simp only [BindingState.step] at hp
    split at hp
    · rename_i hname
      rw [hname] at hk
      cases hk
    · cases hp
  | equals n =>
    obtain ⟨p, hp, -⟩ := Outcome.map_eq_ok_iff.mp h
    obtain ⟨u, hu, -⟩ := Outcome.map_eq_ok_iff.mp hp
    rw [ValueState.demand_eq_ok hu] at hk
    cases hk
  | inside n s =>
    obtain ⟨p, hp, -⟩ := step_inside_eq_ok_iff.mp h
    have hfits := (ValueState.step_eq_ok_iff ht).mp hp
    have hk' : t.lexeme.1.BeginsValue := hk
    generalize t.lexeme = l at hfits hk'
    cases hfits with
    | openBrace | openBracket | number => exact ⟨n, _, rfl⟩
    | _ => cases hk'

/-- Behind tokens that can be read, a value may stand exactly when it comes next. -/
theorem expectsValue_iff {ls : List Lexeme} (hls : ∀ l ∈ ls, IsLexeme l)
    (hs : initial.feed ls = .ok s) : ExpectsValue ls ↔ s.AwaitsValue := by
  constructor
  · rintro ⟨w, hw, hv⟩
    have hlex := Written.isLexeme_of_mem hw
    obtain ⟨s', hs'⟩ := (isViable_iff (List.forall_mem_append.mpr ⟨hls, hlex⟩)).mp hv
    obtain ⟨s₁, hs₁, hfeed⟩ := feed_append_eq_ok_iff.mp hs'
    cases hs.symm.trans hs₁
    obtain ⟨l, rest, hl, hk⟩ := w.exists_head
    rw [hl] at hfeed hlex
    obtain ⟨s₂, hstep, -⟩ := exists_of_feed_cons hfeed
    exact awaitsValue_of_step (t := ⟨l.1, l.2, .nowhere⟩) (hlex l List.mem_cons_self) hk hstep
  · rintro ⟨n, ds, hb⟩
    obtain ⟨env, bound, b⟩ := s
    cases hb
    -- the shortest of values fits
    have hzero : Hex.decode? "0x0" = some 0 := rfl
    have hfeed : feed ⟨env, bound, .inside n ⟨.value, ds⟩⟩ (Written.number "0x0").lexemes = _ :=
      feed_of_fits (.number hzero) []
    have hlex : ∀ l ∈ ls ++ (Written.number "0x0").lexemes, IsLexeme l :=
      List.forall_mem_append.mpr ⟨hls, List.forall_mem_singleton.mpr isLexeme_zero⟩
    exact ⟨.number "0x0", rfl, (isViable_iff hlex).mpr
      ⟨_, feed_append_eq_ok_iff.mpr ⟨_, hs, hfeed⟩⟩⟩

end DocumentState

/-! ### A number without digits in a document -/

/-- A number token of a text is not decoded exactly when it is bare. -/
theorem decode?_of_mem_scan {text : String} {t : Token} (ht : t ∈ (Cursor.ofText text).scan.tokens)
    (hk : t.kind = .number) : Hex.decode? t.text = none ↔ Hex.IsBare t.text := by
  have hlex := (Cursor.ofText text).isLexeme_of_mem_scan t ht (by simp [hk])
  rw [Token.lexeme, hk] at hlex
  exact Hex.decode?_eq_none_iff hlex

/-- Reading a text fails at a place with the message that a literal is invalid exactly when the
first token that is not viable behind those before it stands there and is that literal, a number
without digits, and a value may stand behind those tokens. -/
theorem parse_eq_invalid_iff (text : String) (place : Position) (l : String) :
    (∃ f, parse text = .error (.grammatical ⟨place, f⟩) ∧ f.message = Hex.invalidMessage l) ↔
      ∃ before t rest, (Cursor.ofText text).scan.tokens = before ++ t :: rest ∧
        IsViable (before.map Token.lexeme) ∧ ¬ IsViable ((before ++ [t]).map Token.lexeme) ∧
        ExpectsValue (before.map Token.lexeme) ∧
        t.kind = .number ∧ t.text = l ∧ Hex.IsBare l ∧ t.position = place := by
  constructor
  · rintro ⟨f, hparse, hmessage⟩
    obtain ⟨before, t, rest, s, htok, hs, hstep, hend, hplace⟩ := exists_of_parse_grammatical hparse
    rw [GrammarFault.message_eq_invalidMessage_iff] at hmessage
    cases hmessage
    obtain ⟨hawaits, hk, rfl, hnone⟩ := DocumentState.step_eq_badNumber_iff.mp hstep
    have hlex := Cursor.isLexeme_of_mem_before htok
    have hmem : t ∈ (Cursor.ofText text).scan.tokens := by simp [htok]
    have hnot : ¬ IsViable ((before ++ [t]).map Token.lexeme) := by
      rw [Cursor.isViable_upTo_iff htok hs, hstep]
      simpa using hend
    exact ⟨before, t, rest, htok, (Cursor.isViable_before_iff htok).mpr ⟨s, hs⟩, hnot,
      (DocumentState.expectsValue_iff hlex hs).mpr hawaits, hk, rfl,
      (decode?_of_mem_scan hmem hk).mp hnone, hplace.symm⟩
  · rintro ⟨before, t, rest, htok, hv, -, hexpects, hk, rfl, hbare, rfl⟩
    obtain ⟨s, hs⟩ := (Cursor.isViable_before_iff htok).mp hv
    have hlex := Cursor.isLexeme_of_mem_before htok
    have hawaits := (DocumentState.expectsValue_iff hlex hs).mp hexpects
    have hmem : t ∈ (Cursor.ofText text).scan.tokens := by simp [htok]
    have hnone := (decode?_of_mem_scan hmem hk).mpr hbare
    have hstep : s.step t = .error (.badNumber t.text) :=
      DocumentState.step_eq_badNumber_iff.mpr ⟨hawaits, hk, rfl, hnone⟩
    exact ⟨_, parse_eq_grammatical htok hs hstep (by simp [hk]), rfl⟩

/-- Whatever is decoded is one number token, and a number token of a text is decoded unless it is
bare.  So reading a text fails with the message that a literal is invalid exactly when the first
token that is not viable behind those before it is a bare number, and a value may stand there; the
error is at the place of that token, whatever follows, a fault of the text included. -/
theorem number_tokens_and_literals :
    (∀ s, (Hex.decode? s).isSome = true →
      ∃ t last, tokenize s = .ok [t, last] ∧ t.lexeme = (.number, s) ∧ last.kind = .endOfText) ∧
    (∀ text, ∀ t ∈ (Cursor.ofText text).scan.tokens, t.kind = .number →
      ((Hex.decode? t.text).isSome = true ↔ ¬ Hex.IsBare t.text)) ∧
    ∀ text place l,
      (∃ f, parse text = .error (.grammatical ⟨place, f⟩) ∧ f.message = Hex.invalidMessage l) ↔
        ∃ before t rest, (Cursor.ofText text).scan.tokens = before ++ t :: rest ∧
          IsViable (before.map Token.lexeme) ∧ ¬ IsViable ((before ++ [t]).map Token.lexeme) ∧
          ExpectsValue (before.map Token.lexeme) ∧
          t.kind = .number ∧ t.text = l ∧ Hex.IsBare l ∧ t.position = place := by
  refine ⟨fun s => tokenize_of_decode?, ?_, parse_eq_invalid_iff⟩
  intro text t ht hk
  rw [Option.isSome_iff_ne_none, ne_eq, decode?_of_mem_scan ht hk]

/-- A number without digits in a dictionary, with a character behind it that nothing begins
with. -/
theorem number_tokens_and_literals_bare :
    (Cursor.ofText "a = \x7bk: 0X ?").scan.fault? = some ⟨⟨1, 12⟩, .unexpected '?'⟩ ∧
      parse "a = \x7bk: 0X ?" = .error (.grammatical ⟨⟨1, 9⟩, .badNumber "0X"⟩) ∧
      (∃ before t rest, (Cursor.ofText "a = \x7bk: 0X ?").scan.tokens = before ++ t :: rest ∧
        ExpectsValue (before.map Token.lexeme) ∧ t.text = "0X" ∧
        ((Hex.decode? t.text).isSome = true ↔ ¬ Hex.IsBare t.text)) ∧
      ∃ t last, tokenize "0X2a" = .ok [t, last] ∧ t.lexeme = (.number, "0X2a") ∧
        last.kind = .endOfText := by
  obtain ⟨hliteral, hnumber, hinvalid⟩ := number_tokens_and_literals
  have hfault : (Cursor.ofText "a = \x7bk: 0X ?").scan.fault? =
      some ⟨⟨1, 12⟩, .unexpected '?'⟩ := by with_unfolding_all rfl
  have hparse : parse "a = \x7bk: 0X ?" =
      .error (.grammatical ⟨⟨1, 9⟩, .badNumber "0X"⟩) := by with_unfolding_all rfl
  obtain ⟨before, t, rest, htok, -, -, hexpects, hk, ht, -, -⟩ :=
    (hinvalid "a = \x7bk: 0X ?" ⟨1, 9⟩ "0X").mp ⟨_, hparse, rfl⟩
  have hmem : t ∈ (Cursor.ofText "a = \x7bk: 0X ?").scan.tokens := by simp [htok]
  have hdecode := hnumber _ t hmem hk
  exact ⟨hfault, hparse, ⟨before, t, rest, htok, hexpects, ht, hdecode⟩, hliteral "0X2a" rfl⟩

end HexDoc
