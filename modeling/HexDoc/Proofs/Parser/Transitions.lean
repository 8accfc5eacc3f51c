/-
HexDoc/Proofs/Parser/Transitions.lean

Which tokens fit where in a value, one rule for each way on.  `ValueState.Fits` lists the rules
over kind and text of a token, and a step of the reader of values follows them exactly
(`ValueState.step_eq_ok_iff`).
-/
import HexDoc.Proofs.Document.Grammar
import HexDoc.Proofs.Outcome
import HexDoc.Parser.Document

namespace HexDoc

/-! ### A mark is known by its kind -/

/-- A punctuation mark is known by its kind. -/
theorem ofMark?_injective {c d : Char} {k : Kind} (hc : Kind.ofMark? c = some k)
    (hd : Kind.ofMark? d = some k) : c = d := by
  unfold Kind.ofMark? at hc
  split at hc <;> cases hc <;> unfold Kind.ofMark? at hd <;> split at hd <;> cases hd <;> rfl

/-- A token that is neither a number nor a name is a mark. -/
theorem IsLexeme.exists_mark {l : Lexeme} (hl : IsLexeme l) (hnum : l.1 ≠ .number)
    (hname : l.1 ≠ .name) : ∃ c, l.2.toList = [c] ∧ Kind.ofMark? c = some l.1 := by
  obtain ⟨k, s⟩ := l
  cases k with
  | number => exact absurd rfl hnum
  | name => exact absurd rfl hname
  | endOfText => cases hl
  | _ => exact hl

/-- A token with the kind of a mark is that mark. -/
theorem Token.lexeme_eq_mark {t : Token} (ht : IsLexeme t.lexeme) {l : Lexeme}
    (hl : l ∈ [Lexeme.openBrace, .closeBrace, .colon, .comma, .equals, .openBracket,
      .closeBracket]) (h : t.lexeme.1 = l.1) : t.lexeme = l := by
  have hkind : l.1 ≠ .number ∧ l.1 ≠ .name := by
    simp only [List.mem_cons, List.not_mem_nil, or_false] at hl
    rcases hl with rfl | rfl | rfl | rfl | rfl | rfl | rfl <;> exact ⟨by decide, by decide⟩
  obtain ⟨c, hc, hck⟩ := (isLexeme_marks l hl).exists_mark hkind.1 hkind.2
  obtain ⟨d, hd, hdk⟩ := ht.exists_mark (h ▸ hkind.1) (h ▸ hkind.2)
  have hcd : c = d := ofMark?_injective hck (hdk.trans (congrArg some h))
  exact Prod.ext h (String.toList_injective (by rw [hc, hd, hcd]))

theorem Token.lexeme_eq_name {t : Token} (h : t.kind = .name) : t.lexeme = .ofName t.text := by
  rw [Token.lexeme, h]
  rfl

/-! ### The rules of a value -/

namespace ValueState

/-- Which tokens fit a value read in part, and where they lead. -/
inductive Fits : ValueState → Lexeme → Progress ValueState Value → Prop
  | openBrace {ds : List OpenDict} : Fits ⟨.value, ds⟩ .openBrace (.more ⟨.firstField, ds⟩)
  | openBracket {ds : List OpenDict} :
      Fits ⟨.value, ds⟩ .openBracket (.more ⟨.referenceName, ds⟩)
  | number {ds : List OpenDict} {l : String} {w : UInt64} :
      Hex.decode? l = some w → Fits ⟨.value, ds⟩ (.number, l) (supply (.number ⟨l, w⟩) ds)
  | referenceName {ds : List OpenDict} {n : Name} :
      Fits ⟨.referenceName, ds⟩ (.ofName n) (.more ⟨.referenceEnd n, ds⟩)
  | closeBracket {ds : List OpenDict} {n : Name} :
      Fits ⟨.referenceEnd n, ds⟩ .closeBracket (supply (.reference n) ds)
  | emptyDict {ds : List OpenDict} :
      Fits ⟨.firstField, ds⟩ .closeBrace (supply (.dict []) ds)
  | firstKey {ds : List OpenDict} {k : Name} :
      Fits ⟨.firstField, ds⟩ (.ofName k) (.more ⟨.fieldColon [] k, ds⟩)
  | nextKey {ds : List OpenDict} {fs : Fields} {k : Name} :
      Fits ⟨.nextField fs, ds⟩ (.ofName k) (.more ⟨.fieldColon fs k, ds⟩)
  | colon {ds : List OpenDict} {fs : Fields} {k : Name} :
      Fits ⟨.fieldColon fs k, ds⟩ .colon (.more ⟨.value, ⟨fs, k⟩ :: ds⟩)
  | comma {ds : List OpenDict} {fs : Fields} :
      Fits ⟨.fieldEnd fs, ds⟩ .comma (.more ⟨.nextField fs, ds⟩)
  | closeBrace {ds : List OpenDict} {fs : Fields} :
      Fits ⟨.fieldEnd fs, ds⟩ .closeBrace (supply (.dict fs) ds)

variable {s : ValueState} {t : Token} {p : Progress ValueState Value}

theorem demand_eq_ok {t : Token} {k : Kind} {u : Unit} (h : t.demand k = .ok u) : t.kind = k := by
  unfold Token.demand at h
  split at h
  · assumption
  · cases h

theorem demand_eq_error {t : Token} {k : Kind} {f : GrammarFault} (h : t.demand k = .error f) :
    f = .expected k t.kind := by
  unfold Token.demand at h
  split at h <;> cases h
  rfl

theorem fieldName_eq_ok {t : Token} {k : Name} (h : fieldName t = .ok k) :
    t.lexeme = .ofName k := by
  unfold fieldName at h
  split at h
  · rename_i ht
    cases h
    exact Token.lexeme_eq_name ht
  · cases h

theorem fieldName_eq_error {t : Token} {f : GrammarFault} (h : fieldName t = .error f) :
    f = .noFieldName := by
  unfold fieldName at h
  split at h <;> cases h
  rfl

/-- What a step accepts follows one of the rules. -/
theorem fits_of_step (ht : IsLexeme t.lexeme) (h : s.step t = .ok p) : s.Fits t.lexeme p := by
  obtain ⟨phase, ds⟩ := s
  cases phase with
  | value =>
    simp only [step] at h
    split at h
    · rename_i hk
      cases h
      rw [Token.lexeme_eq_mark ht (l := .openBrace) (by simp) hk]
      exact .openBrace
    · rename_i hk
      cases h
      rw [Token.lexeme_eq_mark ht (l := .openBracket) (by simp) hk]
      exact .openBracket
    · rename_i hk
      split at h
      · rename_i n hn
        cases h
        obtain ⟨hl, hw⟩ := Number.ofLexeme?_eq_some_iff.mp hn
        obtain ⟨l, w⟩ := n
        cases hl
        rw [Token.lexeme, hk]
        exact .number hw
      · cases h
    · cases h
  | referenceName =>
    simp only [step] at h
    split at h
    · rename_i hk
      cases h
      rw [Token.lexeme_eq_name hk]
      exact .referenceName
    · cases h
  | referenceEnd n =>
    obtain ⟨u, hu, rfl⟩ := Outcome.map_eq_ok_iff.mp h
    rw [Token.lexeme_eq_mark ht (l := .closeBracket) (by simp) (demand_eq_ok hu)]
    exact .closeBracket
  | firstField =>
    simp only [step] at h
    split at h
    · rename_i hk
      cases h
      rw [Token.lexeme_eq_mark ht (l := .closeBrace) (by simp) hk]
      exact .emptyDict
    · obtain ⟨k, hk, rfl⟩ := Outcome.map_eq_ok_iff.mp h
      rw [fieldName_eq_ok hk]
      exact .firstKey
  | nextField fs =>
    simp only [step] at h
    split at h
    · cases h
    · obtain ⟨k, hk, rfl⟩ := Outcome.map_eq_ok_iff.mp h
      rw [fieldName_eq_ok hk]
      exact .nextKey
  | fieldColon fs k =>
    obtain ⟨u, hu, rfl⟩ := Outcome.map_eq_ok_iff.mp h
    rw [Token.lexeme_eq_mark ht (l := .colon) (by simp) (demand_eq_ok hu)]
    exact .colon
  | fieldEnd fs =>
    simp only [step] at h
    split at h
    · rename_i hk
      cases h
      rw [Token.lexeme_eq_mark ht (l := .comma) (by simp) hk]
      exact .comma
    · rename_i hk
      cases h
      rw [Token.lexeme_eq_mark ht (l := .closeBrace) (by simp) hk]
      exact .closeBrace
    · cases h

/-- What follows a rule is accepted, wherever the token stands. -/
theorem step_of_fits {l : Lexeme} (h : s.Fits l p) (at_ : Position) :
    s.step ⟨l.1, l.2, at_⟩ = .ok p := by
  cases h with
  | @number ds l w hw =>
    have hn : Number.ofLexeme? l = some ⟨l, w⟩ := Number.ofLexeme?_eq_some_iff.mpr ⟨rfl, hw⟩
    simp [step, hn]
  | _ => rfl

/-- A step follows the rules exactly. -/
theorem step_eq_ok_iff (ht : IsLexeme t.lexeme) : s.step t = .ok p ↔ s.Fits t.lexeme p :=
  ⟨fits_of_step ht, fun h => step_of_fits h t.position⟩

end ValueState

end HexDoc
