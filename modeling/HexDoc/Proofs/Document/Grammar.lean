/-
HexDoc/Proofs/Document/Grammar.lean

The tokens of written values and documents.  A dictionary is its fields, each led in by a comma
that is left out before the first, between two braces (`Written.lexemes_dict`).

Main statements: the tokens of a well-formed document are tokens of the language
(`WrittenDocument.isLexeme_of_mem`), and they determine the document
(`WrittenDocument.lexemes_injective`): no two documents are written with the same tokens,
whatever follows a value in one of them.
-/
import HexDoc.Proofs.Document.Collapse
import HexDoc.Token.Layout

namespace HexDoc

namespace Written

/-! ### The tokens of fields -/

theorem lexemes_dict (fs : List (Name × Written)) :
    lexemes (.dict fs) = .openBrace :: ((lexemesOfFields fs).tail ++ [.closeBrace]) := by
  cases fs with
  | nil => rw [lexemes, lexemesOfFields]; rfl
  | cons f fs => rw [lexemes, lexemesOfFields]; simp

theorem lexemesOfFields_append (fs gs : List (Name × Written)) :
    lexemesOfFields (fs ++ gs) = lexemesOfFields fs ++ lexemesOfFields gs := by
  induction fs with
  | nil => rw [lexemesOfFields]; rfl
  | cons f fs ih => simp [lexemesOfFields, ih]

theorem lexemesOfFields_snoc (fs : List (Name × Written)) (k : Name) (w : Written) :
    lexemesOfFields (fs ++ [(k, w)]) =
      lexemesOfFields fs ++ .comma :: .ofName k :: .colon :: w.lexemes := by
  simp [lexemesOfFields_append, lexemesOfFields]

theorem lexemesOfFields_ne_nil {fs : List (Name × Written)} (h : fs ≠ []) :
    lexemesOfFields fs ≠ [] := by
  obtain ⟨f, fs', rfl⟩ := List.exists_cons_of_ne_nil h
  simp [lexemesOfFields]

end Written

/-! ### Tokens of the language -/

/-- The punctuation marks are tokens. -/
theorem isLexeme_marks : ∀ l ∈ [Lexeme.openBrace, .closeBrace, .colon, .comma, .equals,
    .openBracket, .closeBracket], IsLexeme l := by
  simp only [List.forall_mem_cons]
  exact ⟨⟨_, rfl, rfl⟩, ⟨_, rfl, rfl⟩, ⟨_, rfl, rfl⟩, ⟨_, rfl, rfl⟩, ⟨_, rfl, rfl⟩, ⟨_, rfl, rfl⟩,
    ⟨_, rfl, rfl⟩, by simp⟩

/-- A literal that can be decoded is a token. -/
theorem isLexeme_number {l : String} (h : (Hex.decode? l).isSome = true) :
    IsLexeme (.number, l) := by
  rw [Hex.decode?, Option.isSome_map] at h
  unfold Hex.digitsOf? at h
  split at h
  · rename_i x ds hl
    split at h
    · rename_i hx
      exact ⟨x, ds, hl, hx.1, hx.2.2⟩
    · cases h
  · cases h

namespace Written

mutual

theorem isLexeme_of_mem {w : Written} (h : w.WellFormed) : ∀ l ∈ w.lexemes, IsLexeme l := by
  match w with
  | .number l =>
    simp only [lexemes, List.forall_mem_singleton]
    exact isLexeme_number h
  | .reference n =>
    simp only [lexemes, List.forall_mem_cons]
    exact ⟨isLexeme_marks _ (by simp), h, isLexeme_marks _ (by simp), by simp⟩
  | .dict fs =>
    rw [lexemes_dict]
    intro l hl
    simp only [List.mem_cons, List.mem_append, List.not_mem_nil, or_false] at hl
    rcases hl with rfl | hl | rfl
    · exact isLexeme_marks _ (by simp)
    · exact isLexeme_of_mem_fields h l (List.mem_of_mem_tail hl)
    · exact isLexeme_marks _ (by simp)

theorem isLexeme_of_mem_fields {fs : List (Name × Written)} (h : WellFormedFields fs) :
    ∀ l ∈ lexemesOfFields fs, IsLexeme l := by
  match fs with
  | [] => simp [lexemesOfFields]
  | (k, w) :: fs =>
    simp only [lexemesOfFields, List.forall_mem_cons, List.forall_mem_append]
    exact ⟨isLexeme_marks _ (by simp), h.1, isLexeme_marks _ (by simp), isLexeme_of_mem h.2.1,
      isLexeme_of_mem_fields h.2.2⟩

end

end Written

/-- The tokens of a well-formed document are tokens of the language. -/
theorem WrittenDocument.isLexeme_of_mem {d : WrittenDocument} (h : d.WellFormed) :
    ∀ l ∈ d.lexemes, IsLexeme l := by
  induction d with
  | nil => simp [lexemes]
  | cons b d ih =>
    obtain ⟨hb, hd⟩ := List.forall_mem_cons.mp h
    simp only [lexemes, List.forall_mem_cons, List.forall_mem_append]
    exact ⟨hb.1, isLexeme_marks _ (by simp), Written.isLexeme_of_mem hb.2, ih hd⟩

/-! ### Tokens determine what is written -/

namespace Written

mutual

/-- Where the tokens of a value begin a row of tokens, they determine the value and the rest. -/
theorem lexemes_append_inj {v w : Written} {ls ms : List Lexeme}
    (h : v.lexemes ++ ls = w.lexemes ++ ms) : v = w ∧ ls = ms := by
  match v, w with
  | .number l, .number m => simpa [lexemes] using h
  | .reference n, .reference m => simpa [lexemes, Lexeme.ofName] using h
  | .dict [], .dict [] => simpa [lexemes] using h
  | .dict ((k, v) :: fs), .dict ((k', w) :: gs) =>
    simp only [lexemes, List.cons_append, List.append_assoc, List.nil_append, List.cons.injEq,
      true_and] at h
    obtain ⟨hk, h⟩ := h
    obtain ⟨hv, hrest⟩ := lexemes_append_inj h
    obtain ⟨hfs, hrest⟩ := lexemesOfFields_append_inj hrest
    exact ⟨by rw [(Prod.mk.inj hk).2, hv, hfs], hrest⟩
  -- values that differ in kind, or in having fields, differ in their first two tokens
  | .dict [], .dict (_ :: _) => simp [lexemes, Lexeme.closeBrace, Lexeme.ofName] at h
  | .dict (_ :: _), .dict [] => simp [lexemes, Lexeme.closeBrace, Lexeme.ofName] at h
  | .number _, .reference _ => simp [lexemes, Lexeme.openBracket] at h
  | .reference _, .number _ => simp [lexemes, Lexeme.openBracket] at h
  | .number _, .dict fs => simp [lexemes_dict, lexemes, Lexeme.openBrace] at h
  | .dict fs, .number _ => simp [lexemes_dict, lexemes, Lexeme.openBrace] at h
  | .reference _, .dict fs =>
    simp [lexemes_dict, lexemes, Lexeme.openBrace, Lexeme.openBracket] at h
  | .dict fs, .reference _ =>
    simp [lexemes_dict, lexemes, Lexeme.openBrace, Lexeme.openBracket] at h

/-- Where the tokens of fields stand before a closing brace, they determine the fields. -/
theorem lexemesOfFields_append_inj {fs gs : List (Name × Written)} {ls ms : List Lexeme}
    (h : lexemesOfFields fs ++ .closeBrace :: ls = lexemesOfFields gs ++ .closeBrace :: ms) :
    fs = gs ∧ ls = ms := by
  match fs, gs with
  | [], [] => simpa [lexemesOfFields] using h
  | (k, v) :: fs, (k', w) :: gs =>
    simp only [lexemesOfFields, List.cons_append, List.append_assoc, List.cons.injEq,
      true_and] at h
    obtain ⟨hk, h⟩ := h
    obtain ⟨hv, hrest⟩ := lexemes_append_inj h
    obtain ⟨hfs, hrest⟩ := lexemesOfFields_append_inj hrest
    exact ⟨by rw [(Prod.mk.inj hk).2, hv, hfs], hrest⟩
  | [], (_, _) :: _ => simp [lexemesOfFields, Lexeme.closeBrace, Lexeme.comma] at h
  | (_, _) :: _, [] => simp [lexemesOfFields, Lexeme.closeBrace, Lexeme.comma] at h

end

end Written

/-- No two documents are written with the same tokens. -/
theorem WrittenDocument.lexemes_injective {d d' : WrittenDocument}
    (h : d.lexemes = d'.lexemes) : d = d' := by
  induction d generalizing d' with
  | nil =>
    cases d' with
    | nil => rfl
    | cons b' d' => simp [lexemes] at h
  | cons b d ih =>
    cases d' with
    | nil => simp [lexemes] at h
    | cons b' d' =>
      simp only [lexemes, List.cons.injEq, true_and] at h
      obtain ⟨hn, h⟩ := h
      obtain ⟨hw, h⟩ := Written.lexemes_append_inj h
      exact congrArg₂ _ (Prod.ext (Prod.mk.inj hn).2 hw) (ih h)

end HexDoc
