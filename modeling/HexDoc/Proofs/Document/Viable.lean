/-
HexDoc/Proofs/Document/Viable.lean

Where a text stops being the beginning of a document.  Tokens are viable when the tokens of some
well-formed document, its end included, begin with them.

Whatever part of a document has been read, something completes it: `BindingState.ending` closes
what is open, the innermost dictionary first (`DocumentState.exists_feed_ending`).  So tokens are
viable exactly when they can be read (`isViable_iff`), and a further token keeps them viable
exactly when it fits, or ends the text where a binding may start (`isViable_concat_iff`).

Main statement: reading a text fails at its first token that is not viable behind those before
it, or else at the fault of the text behind viable tokens (`parse_eq_error_iff`).
-/
import HexDoc.Proofs.Document.Recognition
import HexDoc.Proofs.Token.Lexeme

namespace HexDoc

/-- Tokens with which the tokens of some well-formed document begin, its end included. -/
def IsViable (ls : List Lexeme) : Prop :=
  ∃ d : WrittenDocument, d.WellFormed ∧ ls <+: d.lexemes ++ [.endOfText]

/-! ### Completing what has been begun -/

/-- A number, the shortest of values. -/
def Lexeme.zero : Lexeme :=
  (.number, "0x0")

/-- Tokens that complete the value that a phase is in. -/
def Phase.ending : Phase → List Lexeme
  | .value => [.zero]
  | .referenceName => [.ofName "x", .closeBracket]
  | .referenceEnd _ => [.closeBracket]
  | .firstField => [.closeBrace]
  | .nextField _ => [.ofName "x", .colon, .zero, .closeBrace]
  | .fieldColon _ _ => [.colon, .zero, .closeBrace]
  | .fieldEnd _ => [.closeBrace]

/-- Tokens that complete a binding read in part; nothing completes one that has not been
begun. -/
def BindingState.ending : BindingState → List Lexeme
  | .name => []
  | .equals _ => [.equals, .zero]
  | .inside _ s => s.phase.ending ++ List.replicate s.pending.length .closeBrace

theorem isLexeme_zero : IsLexeme .zero :=
  isLexeme_number rfl

theorem isLexeme_x : IsLexeme (.ofName "x") :=
  ⟨'x', [], rfl, rfl, rfl⟩

theorem Phase.isLexeme_of_mem_ending (p : Phase) : ∀ l ∈ p.ending, IsLexeme l := by
  have hmark := isLexeme_marks
  simp only [List.forall_mem_cons] at hmark
  obtain ⟨-, hcloseBrace, hcolon, -, -, -, hcloseBracket, -⟩ := hmark
  cases p <;> simp [ending, isLexeme_zero, isLexeme_x, hcloseBrace, hcolon, hcloseBracket]

theorem BindingState.isLexeme_of_mem_ending (b : BindingState) : ∀ l ∈ b.ending, IsLexeme l := by
  cases b with
  | name => simp [ending]
  | equals n =>
    simp only [ending, List.forall_mem_cons]
    exact ⟨isLexeme_marks _ (by simp), isLexeme_zero, by simp⟩
  | inside n s =>
    rw [ending, List.forall_mem_append]
    refine ⟨s.phase.isLexeme_of_mem_ending, ?_⟩
    intro l hl
    rw [List.eq_of_mem_replicate hl]
    exact isLexeme_marks _ (by simp)

namespace DocumentState

variable {env : Environment} {bound : List Name} {n : Name}

/-- The ending of a phase leads to a value that is handed to the open dictionaries. -/
theorem exists_feed_phase_ending (p : Phase) (ds : List OpenDict) (rest : List Lexeme) :
    ∃ v, feed ⟨env, bound, .inside n ⟨p, ds⟩⟩ (p.ending ++ rest) =
      feed (inValue env bound n (ValueState.supply v ds)) rest := by
  have hzero : Hex.decode? "0x0" = some 0 := rfl
  have hfield (fs : Fields) (k : Name) :
      feed ⟨env, bound, .inside n ⟨.fieldColon fs k, ds⟩⟩ (.colon :: .zero :: .closeBrace :: rest) =
        feed (inValue env bound n
          (ValueState.supply (.dict (fs.put k (.number ⟨"0x0", 0⟩))) ds)) rest :=
    calc feed ⟨env, bound, .inside n ⟨.fieldColon fs k, ds⟩⟩
          (.colon :: .zero :: .closeBrace :: rest)
        = feed ⟨env, bound, .inside n ⟨.value, ⟨fs, k⟩ :: ds⟩⟩ (.zero :: .closeBrace :: rest) :=
          feed_of_fits .colon _
      _ = feed ⟨env, bound, .inside n ⟨.fieldEnd (fs.put k (.number ⟨"0x0", 0⟩)), ds⟩⟩
            (.closeBrace :: rest) := feed_of_fits (.number hzero) _
      _ = _ := feed_of_fits .closeBrace rest
  cases p with
  | value => exact ⟨.number ⟨"0x0", 0⟩, feed_of_fits (.number hzero) rest⟩
  | referenceName =>
    exact ⟨.reference "x",
      (feed_of_fits .referenceName _).trans (feed_of_fits .closeBracket rest)⟩
  | referenceEnd m => exact ⟨.reference m, feed_of_fits .closeBracket rest⟩
  | firstField => exact ⟨.dict [], feed_of_fits .emptyDict rest⟩
  | nextField fs => exact ⟨_, (feed_of_fits .nextKey _).trans (hfield fs "x")⟩
  | fieldColon fs k => exact ⟨_, hfield fs k⟩
  | fieldEnd fs => exact ⟨.dict fs, feed_of_fits .closeBrace rest⟩

/-- A brace for each open dictionary leads past the whole value. -/
theorem exists_feed_braces (v : Value) (ds : List OpenDict) :
    ∃ s', feed (inValue env bound n (ValueState.supply v ds))
      (List.replicate ds.length .closeBrace) = .ok s' ∧ s'.binding = .name := by
  induction ds generalizing v with
  | nil => exact ⟨_, rfl, rfl⟩
  | cons d ds ih =>
    obtain ⟨s', hs', hb⟩ := ih (.dict (d.fields.put d.key v))
    exact ⟨s', (feed_of_fits .closeBrace _).trans hs', hb⟩

/-- Whatever part of a document has been read, its ending leads to a state between two
bindings. -/
theorem exists_feed_ending (s : DocumentState) :
    ∃ s', s.feed s.binding.ending = .ok s' ∧ s'.binding = .name := by
  obtain ⟨env, bound, b⟩ := s
  cases b with
  | name => exact ⟨_, rfl, rfl⟩
  | equals n =>
    obtain ⟨v, hv⟩ := @exists_feed_phase_ending env bound n .value [] []
    exact ⟨_, (feed_cons_of_ok rfl).trans hv, rfl⟩
  | inside n s =>
    obtain ⟨v, hv⟩ := @exists_feed_phase_ending env bound n s.phase s.pending
      (List.replicate s.pending.length .closeBrace)
    obtain ⟨s', hs', hb⟩ := @exists_feed_braces env bound n v s.pending
    exact ⟨s', hv.trans hs', hb⟩

end DocumentState

/-! ### Viable tokens are those that can be read -/

open DocumentState

/-- Tokens with which the tokens of a document begin, its end apart, can be read. -/
theorem exists_feed_of_prefix {d : WrittenDocument} (hd : d.WellFormed) {ls : List Lexeme}
    (h : ls <+: d.lexemes) : ∃ s, initial.feed ls = .ok s := by
  obtain ⟨ms, hms⟩ := h
  have hfeed := feed_document hd [] []
  rw [← hms] at hfeed
  obtain ⟨s, hs, -⟩ := feed_append_eq_ok_iff.mp hfeed
  exact ⟨s, hs⟩

/-- Tokens are viable exactly when they can be read. -/
theorem isViable_iff {ls : List Lexeme} (hls : ∀ l ∈ ls, IsLexeme l) :
    IsViable ls ↔ ∃ s, initial.feed ls = .ok s := by
  constructor
  · rintro ⟨d, hd, hpre⟩
    rcases List.prefix_concat_iff.mp hpre with rfl | hpre
    · -- the end of a text is not among them
      exact (hls .endOfText (by simp)).elim
    · exact exists_feed_of_prefix hd hpre
  · rintro ⟨s, hs⟩
    obtain ⟨s', hs', hb⟩ := s.exists_feed_ending
    have hfeed : initial.feed (ls ++ s.binding.ending) = .ok s' :=
      feed_append_eq_ok_iff.mpr ⟨s, hs, hs'⟩
    have hlex : ∀ l ∈ ls ++ s.binding.ending, IsLexeme l :=
      List.forall_mem_append.mpr ⟨hls, s.binding.isLexeme_of_mem_ending⟩
    obtain ⟨d, hd, hdl, -⟩ := (feed_initial_eq_ok_iff hlex).mp ⟨hfeed, hb⟩
    refine ⟨d, hd, ?_⟩
    rw [hdl, List.append_assoc]
    exact List.prefix_append _ _

/-- A further token keeps tokens viable exactly when it fits, or ends the text where a binding may
start. -/
theorem isViable_concat_iff {ls : List Lexeme} (hls : ∀ l ∈ ls, IsLexeme l) {s : DocumentState}
    (hs : initial.feed ls = .ok s) {t : Token} (ht : IsLexeme t.lexeme ∨ t.lexeme = .endOfText) :
    IsViable (ls ++ [t.lexeme]) ↔
      (∃ s', s.step t = .ok s') ∨ t.kind = .endOfText ∧ s.binding = .name := by
  constructor
  · rintro ⟨d, hd, hpre⟩
    rcases List.prefix_concat_iff.mp hpre with heq | hpre
    · -- the token ends the document
      obtain ⟨rfl, hlast⟩ := List.append_inj' heq rfl
      cases hs.symm.trans (feed_document hd [] [])
      exact .inr ⟨congrArg Prod.fst (List.singleton_inj.mp hlast), rfl⟩
    · obtain ⟨s', hs'⟩ := exists_feed_of_prefix hd hpre
      obtain ⟨s₁, hs₁, hstep⟩ := feed_append_eq_ok_iff.mp hs'
      cases hs.symm.trans hs₁
      obtain ⟨s₂, hs₂, -⟩ := exists_of_feed_cons hstep
      exact .inl ⟨s₂, hs₂⟩
  · rintro (⟨s', hs'⟩ | ⟨hend, hb⟩)
    · have hlex : IsLexeme t.lexeme := by
        refine ht.resolve_right fun hend => ?_
        obtain ⟨f, hf⟩ := s.step_endOfText (congrArg Prod.fst hend)
        rw [hs'] at hf
        cases hf
      have hfeed : s.feed [t.lexeme] = .ok s' := feed_cons_of_ok hs'
      exact (isViable_iff (List.forall_mem_append.mpr ⟨hls, by simpa using hlex⟩)).mpr
        ⟨s', feed_append_eq_ok_iff.mpr ⟨s, hs, hfeed⟩⟩
    · obtain ⟨d, hd, rfl, -⟩ := (feed_initial_eq_ok_iff hls).mp ⟨hs, hb⟩
      have hlex : t.lexeme = .endOfText := by
        refine ht.resolve_left fun hlex => ?_
        rw [Token.lexeme, hend] at hlex
        exact hlex
      rw [hlex]
      exact ⟨d, hd, List.prefix_rfl⟩

/-! ### The first error -/

namespace Cursor

variable (c : Cursor)

/-- Running over the tokens of a text ends at its fault exactly when they are viable. -/
theorem run_scan_eq_lexical_iff (e : LexError) :
    run c.scan.fault? .initial c.scan.tokens = .error (.lexical e) ↔
      c.scan.fault? = some e ∧ IsViable (c.scan.tokens.map Token.lexeme) := by
  constructor
  · intro h
    rcases exists_of_run_eq_error h with ⟨us, u, rest, s, f, -, -, -, -, heq⟩ | ⟨e', s, hf, hs, heq⟩
    · cases heq
    · cases heq
      have hlex : ∀ l ∈ c.scan.tokens.map Token.lexeme, IsLexeme l :=
        List.forall_mem_map.mpr fun t ht => c.isLexeme_of_mem_scan t ht (kind_ne_of_feed hs t ht)
      exact ⟨hf, (isViable_iff hlex).mpr ⟨s, hs⟩⟩
  · rintro ⟨hf, hv⟩
    rcases c.scan_shape with ⟨us, last, -, hnone, -⟩ | ⟨e', -, hall⟩
    · rw [hf] at hnone
      cases hnone
    · have hlex : ∀ l ∈ c.scan.tokens.map Token.lexeme, IsLexeme l :=
        List.forall_mem_map.mpr fun t ht => c.isLexeme_of_mem_scan t ht (hall t ht)
      obtain ⟨s, hs⟩ := (isViable_iff hlex).mp hv
      calc run c.scan.fault? .initial c.scan.tokens
          = run c.scan.fault? s [] := by
            rw [← run_append hs, List.append_nil]
        _ = .error (.lexical e) := by rw [hf, run]

variable {c} {before rest : List Token} {t : Token}

theorem isLexeme_of_mem_before (htok : c.scan.tokens = before ++ t :: rest) :
    ∀ l ∈ before.map Token.lexeme, IsLexeme l :=
  List.forall_mem_map.mpr (c.isLexeme_of_scan_before before t rest htok)

/-- The tokens before a token of a text are viable exactly when they can be read. -/
theorem isViable_before_iff (htok : c.scan.tokens = before ++ t :: rest) :
    IsViable (before.map Token.lexeme) ↔
      ∃ s, initial.feed (before.map Token.lexeme) = .ok s :=
  isViable_iff (isLexeme_of_mem_before htok)

/-- They stay viable with that token exactly when it fits, or ends the text where a binding may
start. -/
theorem isViable_upTo_iff (htok : c.scan.tokens = before ++ t :: rest) {s : DocumentState}
    (hs : initial.feed (before.map Token.lexeme) = .ok s) :
    IsViable ((before ++ [t]).map Token.lexeme) ↔
      (∃ s', s.step t = .ok s') ∨ t.kind = .endOfText ∧ s.binding = .name := by
  rw [List.map_append]
  exact isViable_concat_iff (isLexeme_of_mem_before htok) hs
    (c.lexeme_of_mem_scan t (by simp [htok]))

variable (c)

/-- It ends at a place with an error of grammar exactly when the first token there is not viable
behind those before it, which are. -/
theorem exists_run_scan_eq_grammatical_iff (place : Position) :
    (∃ f, run c.scan.fault? .initial c.scan.tokens = .error (.grammatical ⟨place, f⟩)) ↔
      ∃ before t rest, c.scan.tokens = before ++ t :: rest ∧ t.position = place ∧
        IsViable (before.map Token.lexeme) ∧ ¬ IsViable ((before ++ [t]).map Token.lexeme) := by
  constructor
  · rintro ⟨f, h⟩
    rcases exists_of_run_eq_error h with
      ⟨before, t, rest, s, f', htok, hs, hstep, hend, heq⟩ | ⟨e', s, -, -, heq⟩
    · cases heq
      refine ⟨before, t, rest, htok, rfl, (isViable_before_iff htok).mpr ⟨s, hs⟩, ?_⟩
      rw [isViable_upTo_iff htok hs, hstep]
      simpa using hend
    · cases heq
  · rintro ⟨before, t, rest, htok, rfl, hv, hnot⟩
    obtain ⟨s, hs⟩ := (isViable_before_iff htok).mp hv
    rw [isViable_upTo_iff htok hs, not_or] at hnot
    rcases hstep : s.step t with f | s'
    · exact ⟨f, by rw [htok, run_append hs, run_cons_of_error hstep hnot.2]⟩
    · exact absurd ⟨s', hstep⟩ hnot.1

end Cursor

/-- Reading a text fails with a fault of the text exactly when the text has that fault behind
tokens that are viable, and with an error of grammar at a place exactly when the first token
there is not viable behind those before it, which are. -/
theorem parse_eq_error_iff (text : String) :
    (∀ e, parse text = .error (.lexical e) ↔
      (Cursor.ofText text).scan.fault? = some e ∧
        IsViable ((Cursor.ofText text).scan.tokens.map Token.lexeme)) ∧
    ∀ place, (∃ f, parse text = .error (.grammatical ⟨place, f⟩)) ↔
      ∃ before t rest, (Cursor.ofText text).scan.tokens = before ++ t :: rest ∧
        t.position = place ∧ IsViable (before.map Token.lexeme) ∧
        ¬ IsViable ((before ++ [t]).map Token.lexeme) := by
  simp only [parse_eq_run, Outcome.map_eq_error_iff]
  exact ⟨(Cursor.ofText text).run_scan_eq_lexical_iff,
    (Cursor.ofText text).exists_run_scan_eq_grammatical_iff⟩

end HexDoc
