/-
HexDoc/Proofs/Parser/Stream.lean

A parser fetches its tokens one by one, while it reads.  What comes of it depends on the tokens
alone: `Parser.stream` lists those that a parser has in sight and ahead, and
`DocumentState.run` reads such a list to its end or to the first token that does not fit.

Positions matter for errors only: `DocumentState.feed` takes tokens by kind and text.

Main statements: reading a document is running over the tokens of its text (`parse_eq_run`),
and it succeeds exactly when the text has tokens and those before the end token lead to a state
between two bindings (`parse_eq_ok_iff`).  An error of grammar is one at a token that does not fit
behind tokens that do (`exists_of_parse_grammatical`, `parse_eq_grammatical`).
-/
import HexDoc.Parser.Document
import HexDoc.Document.Written
import HexDoc.Proofs.Outcome

namespace HexDoc

/-! ### A document read in part -/

/-- Whether a binding read in part has not been begun. -/
def BindingState.isName : BindingState → Bool
  | .name => true
  | _ => false

theorem BindingState.isName_iff {s : BindingState} : s.isName = true ↔ s = .name := by
  cases s <;> simp [isName]

/-- A document read in part. -/
structure DocumentState where
  /-- What the bindings read so far come to. -/
  env : Environment
  /-- The names of the bindings read so far, repeats included. -/
  bound : List Name
  /-- The binding that is being read. -/
  binding : BindingState

namespace DocumentState

/-- Nothing has been read yet. -/
def initial : DocumentState :=
  ⟨[], [], .name⟩

/-- Where a document stands after a token of its current binding. -/
def after (s : DocumentState) : Progress BindingState (Name × Value) → DocumentState
  | .more b => { s with binding := b }
  | .complete (n, v) => ⟨s.env.put n v, s.bound ++ [n], .name⟩

/-- What a token does to a document read in part. -/
def step (s : DocumentState) (t : Token) : Except GrammarFault DocumentState :=
  (s.binding.step t).map s.after

theorem step_of_error {env : Environment} {bound : List Name} {b : BindingState} {t : Token}
    {f : GrammarFault} (h : b.step t = .error f) : step ⟨env, bound, b⟩ t = .error f := by
  simp only [step, h]
  rfl

theorem step_of_ok {env : Environment} {bound : List Name} {b : BindingState} {t : Token}
    {p : Progress BindingState (Name × Value)} (h : b.step t = .ok p) :
    step ⟨env, bound, b⟩ t = .ok (after ⟨env, bound, b⟩ p) := by
  simp only [step, h]
  rfl

/-- Reads tokens up to the end token or to the first one that does not fit.  Tokens that stop
before the end token do so because of a fault in the text. -/
def run (fault? : Option LexError) : DocumentState → List Token → Except ReadError DocumentState
  | s, [] =>
    match fault? with
    | some e => .error (.lexical e)
    | none => .ok s
  | s, t :: ts =>
    if t.kind = .endOfText ∧ s.binding.isName then .ok s
    else
      match s.step t with
      | .error f => .error (.grammatical ⟨t.position, f⟩)
      | .ok s' => run fault? s' ts

variable {fault? : Option LexError} {s s' : DocumentState} {t : Token} {ts : List Token}

theorem run_cons_of_end (ht : t.kind = .endOfText) (hs : s.binding = .name) :
    run fault? s (t :: ts) = .ok s := by
  rw [run, if_pos ⟨ht, BindingState.isName_iff.mpr hs⟩]

/-- No document goes on with an end token. -/
theorem step_endOfText (s : DocumentState) (ht : t.kind = .endOfText) :
    ∃ f, s.step t = .error f := by
  obtain ⟨f, hf⟩ := s.binding.step_endOfText t ht
  exact ⟨f, step_of_error hf⟩

/-- A token that fits is passed. -/
theorem run_cons_of_ok (h : s.step t = .ok s') : run fault? s (t :: ts) = run fault? s' ts := by
  have ht : t.kind ≠ .endOfText := by
    intro ht
    obtain ⟨f, hf⟩ := s.step_endOfText ht
    rw [h] at hf
    cases hf
  rw [run, if_neg fun hs => ht hs.1, h]

/-- A token that does not fit ends the run, unless it is an end token where a binding may
start. -/
theorem run_cons_of_error {f : GrammarFault} (h : s.step t = .error f)
    (hs : ¬ (t.kind = .endOfText ∧ s.binding = .name)) :
    run fault? s (t :: ts) = .error (.grammatical ⟨t.position, f⟩) := by
  rw [run, if_neg (by rwa [BindingState.isName_iff]), h]

/-! ### Tokens by kind and text -/

/-- Reads tokens given by kind and text. -/
def feed : DocumentState → List Lexeme → Except GrammarFault DocumentState
  | s, [] => .ok s
  | s, l :: ls =>
    match s.step ⟨l.1, l.2, .nowhere⟩ with
    | .error f => .error f
    | .ok s' => feed s' ls

/-- The place of a token does not matter to what it does. -/
theorem step_lexeme (s : DocumentState) (t : Token) :
    s.step ⟨t.lexeme.1, t.lexeme.2, .nowhere⟩ = s.step t := rfl

/-- Tokens are read from the first one on. -/
theorem exists_of_feed_cons {l : Lexeme} {ls : List Lexeme} (h : s.feed (l :: ls) = .ok s') :
    ∃ s₁, s.step ⟨l.1, l.2, .nowhere⟩ = .ok s₁ ∧ s₁.feed ls = .ok s' := by
  rw [feed] at h
  split at h
  · cases h
  · rename_i s₁ hs₁
    exact ⟨s₁, hs₁, h⟩

theorem feed_cons_of_ok {l : Lexeme} {ls : List Lexeme}
    (h : s.step ⟨l.1, l.2, .nowhere⟩ = .ok s') : s.feed (l :: ls) = s'.feed ls := by
  rw [feed, h]

/-- Tokens are read in parts as they are at once. -/
theorem feed_append_eq_ok_iff {ls ms : List Lexeme} :
    s.feed (ls ++ ms) = .ok s' ↔ ∃ s₁, s.feed ls = .ok s₁ ∧ s₁.feed ms = .ok s' := by
  induction ls generalizing s with
  | nil => simp [feed]
  | cons l ls ih =>
    rw [List.cons_append, feed, feed]
    rcases s.step ⟨l.1, l.2, .nowhere⟩ with f | s₁
    · simp
    · exact ih

/-- Tokens that are read leave the others to be run over. -/
theorem run_append {us : List Token} (h : s.feed (us.map Token.lexeme) = .ok s') :
    run fault? s (us ++ ts) = run fault? s' ts := by
  induction us generalizing s with
  | nil =>
    cases h
    rfl
  | cons u us ih =>
    obtain ⟨s₁, hu, h⟩ := exists_of_feed_cons h
    rw [step_lexeme] at hu
    rw [List.cons_append, run_cons_of_ok hu]
    exact ih h

/-- A run that succeeds has read some tokens and stands before an end token where a binding may
start, or there are no more tokens. -/
theorem exists_of_run_eq_ok (h : run fault? s ts = .ok s') :
    ∃ us rest, ts = us ++ rest ∧ s.feed (us.map Token.lexeme) = .ok s' ∧
      ((∃ t rest', rest = t :: rest' ∧ t.kind = .endOfText ∧ s'.binding = .name) ∨
        rest = [] ∧ fault? = none) := by
  induction ts generalizing s with
  | nil =>
    rcases fault? with - | e
    · cases h
      exact ⟨[], [], rfl, rfl, .inr ⟨rfl, rfl⟩⟩
    · cases h
  | cons t ts ih =>
    by_cases hend : t.kind = .endOfText ∧ s.binding = .name
    · rw [run_cons_of_end hend.1 hend.2] at h
      cases h
      exact ⟨[], t :: ts, rfl, rfl, .inl ⟨t, ts, rfl, hend.1, hend.2⟩⟩
    · rcases hs : s.step t with f | s₁
      · rw [run_cons_of_error hs hend] at h
        cases h
      · rw [run_cons_of_ok hs] at h
        obtain ⟨us, rest, rfl, hfeed, hrest⟩ := ih h
        refine ⟨t :: us, rest, rfl, ?_, hrest⟩
        rw [List.map_cons, feed_cons_of_ok (step_lexeme s t ▸ hs), hfeed]

/-- A run that fails has read some tokens, and the next one does not fit, or it has read all of
them and the fault behind them comes next. -/
theorem exists_of_run_eq_error {e : ReadError} (h : run fault? s ts = .error e) :
    (∃ us u rest s' f, ts = us ++ u :: rest ∧ s.feed (us.map Token.lexeme) = .ok s' ∧
      s'.step u = .error f ∧ ¬ (u.kind = .endOfText ∧ s'.binding = .name) ∧
      e = .grammatical ⟨u.position, f⟩) ∨
    ∃ e' s', fault? = some e' ∧ s.feed (ts.map Token.lexeme) = .ok s' ∧ e = .lexical e' := by
  induction ts generalizing s with
  | nil =>
    rcases fault? with - | e'
    · cases h
    · cases h
      exact .inr ⟨e', s, rfl, rfl, rfl⟩
  | cons t ts ih =>
    by_cases hend : t.kind = .endOfText ∧ s.binding = .name
    · rw [run_cons_of_end hend.1 hend.2] at h
      cases h
    · rcases hs : s.step t with f | s₁
      · rw [run_cons_of_error hs hend] at h
        cases h
        exact .inl ⟨[], t, ts, s, f, rfl, rfl, hs, hend, rfl⟩
      · rw [run_cons_of_ok hs] at h
        have hfeed (ls : List Lexeme) : s.feed (t.lexeme :: ls) = s₁.feed ls :=
          feed_cons_of_ok (step_lexeme s t ▸ hs)
        rcases ih h with ⟨us, u, rest, s', f, rfl, hus, hu, hend', rfl⟩ | ⟨e', s', hf, hts, rfl⟩
        · exact .inl ⟨t :: us, u, rest, s', f, rfl, by rw [List.map_cons, hfeed, hus], hu, hend',
            rfl⟩
        · exact .inr ⟨e', s', hf, by rw [List.map_cons, hfeed, hts], rfl⟩

/-- No run of tokens that fits has an end token in it. -/
theorem kind_ne_of_feed {us : List Token} (h : s.feed (us.map Token.lexeme) = .ok s') :
    ∀ u ∈ us, u.kind ≠ .endOfText := by
  induction us generalizing s with
  | nil => simp
  | cons u us ih =>
    obtain ⟨s₁, hu, h⟩ := exists_of_feed_cons h
    rw [step_lexeme] at hu
    refine List.forall_mem_cons.mpr ⟨?_, ih h⟩
    intro hk
    obtain ⟨f, hf⟩ := s.step_endOfText hk
    rw [hu] at hf
    cases hf

/-- Past the first token of a binding, its name is no longer to come. -/
theorem binding_ne_name {b b' : BindingState} (h : b.step t = .ok (.more b')) : b' ≠ .name := by
  rintro rfl
  cases b with
  | name =>
    simp only [BindingState.step] at h
    split at h <;> cases h
  | equals n =>
    obtain ⟨-, -, h⟩ := Outcome.map_eq_ok_iff.mp h
    cases h
  | inside n s =>
    obtain ⟨s' | v, -, h⟩ := Outcome.map_eq_ok_iff.mp h <;> cases h

end DocumentState

/-! ### The tokens of a parser -/

namespace Cursor

variable {c d : Cursor} {t : Token} {e : LexError}

theorem scan_of_error (h : c.next = (.error e, d)) : c.scan = ⟨[], some e, d⟩ := by
  rw [scan]
  split
  · rename_i e' d' h'
    cases h.symm.trans h'
    rfl
  · rename_i t' d' h'
    cases h.symm.trans h'

theorem scan_of_end (h : c.next = (.ok t, d)) (ht : t.kind = .endOfText) :
    c.scan = ⟨[t], none, d⟩ := by
  rw [scan]
  split
  · rename_i e' d' h'
    cases h.symm.trans h'
  · rename_i t' d' h'
    cases h.symm.trans h'
    rw [dif_pos ht]

theorem scan_of_token (h : c.next = (.ok t, d)) (ht : t.kind ≠ .endOfText) :
    c.scan = ⟨t :: d.scan.tokens, d.scan.fault?, d.scan.stop⟩ := by
  rw [scan]
  split
  · rename_i e' d' h'
    cases h.symm.trans h'
  · rename_i t' d' h'
    cases h.symm.trans h'
    rw [dif_neg ht]

/-- An end token comes last, and it comes exactly where no fault does. -/
theorem scan_shape (c : Cursor) :
    (∃ us t, c.scan.tokens = us ++ [t] ∧ c.scan.fault? = none ∧ t.kind = .endOfText ∧
      ∀ u ∈ us, u.kind ≠ .endOfText) ∨
    ∃ e, c.scan.fault? = some e ∧ ∀ u ∈ c.scan.tokens, u.kind ≠ .endOfText := by
  fun_induction scan c with
  | case1 c e d h => exact .inr ⟨e, rfl, by simp⟩
  | case2 c t d h ht => exact .inl ⟨[], t, rfl, rfl, ht, by simp⟩
  | case3 c t d h ht r ih =>
    rcases ih with ⟨us, u, htok, hf, hu, hus⟩ | ⟨e, hf, hus⟩
    · refine .inl ⟨t :: us, u, ?_, hf, hu, List.forall_mem_cons.mpr ⟨ht, hus⟩⟩
      exact congrArg (t :: ·) htok
    · exact .inr ⟨e, hf, List.forall_mem_cons.mpr ⟨ht, hus⟩⟩

end Cursor

/-- Where an end token stands among others followed by one end token, it is that one. -/
theorem eq_of_append_cons_eq {us vs rest : List Token} {t v : Token}
    (h : us ++ t :: rest = vs ++ [v]) (ht : t.kind = .endOfText)
    (hvs : ∀ u ∈ vs, u.kind ≠ .endOfText) : us = vs ∧ t = v ∧ rest = [] := by
  rcases List.eq_nil_or_concat rest with rfl | ⟨rest', w, rfl⟩
  · obtain ⟨h₁, h₂⟩ := List.append_inj' h rfl
    exact ⟨h₁, (List.cons.inj h₂).1, rfl⟩
  · have h' : (us ++ t :: rest') ++ [w] = vs ++ [v] := by simpa using h
    obtain ⟨h₁, -⟩ := List.append_inj' h' rfl
    exact absurd ht (hvs t (by rw [← h₁]; simp))

/-- A text has tokens when reading it meets no fault. -/
theorem tokenize_eq_ok_iff {text : String} {ts : List Token} :
    tokenize text = .ok ts ↔
      (Cursor.ofText text).scan.fault? = none ∧ (Cursor.ofText text).scan.tokens = ts := by
  rw [tokenize, Cursor.tokens]
  rcases (Cursor.ofText text).scan with ⟨us, - | e, d⟩ <;> simp

namespace Parser

/-- The tokens in sight and ahead, up to the end token or to the fault that comes before it. -/
def stream (p : Parser) : List Token × Option LexError :=
  if p.current.kind = .endOfText then ([p.current], none)
  else (p.current :: p.ahead.scan.tokens, p.ahead.scan.fault?)

theorem stream_of_next {c d : Cursor} {t : Token} (h : c.next = (.ok t, d)) :
    (⟨t, d⟩ : Parser).stream = (c.scan.tokens, c.scan.fault?) := by
  rw [stream]
  split
  · rename_i ht
    rw [Cursor.scan_of_end h ht]
  · rename_i ht
    rw [Cursor.scan_of_token h ht]

theorem stream_of_shift {p q : Parser} (h : p.shift = (.ok (), q))
    (hk : p.current.kind ≠ .endOfText) : p.stream = (p.current :: q.stream.1, q.stream.2) := by
  unfold shift at h
  split at h
  · rename_i t d hn
    cases h
    rw [stream, if_neg hk, stream_of_next hn]
  · cases h

theorem stream_of_shift_error {p q : Parser} {e : ReadError} (h : p.shift = (.error e, q))
    (hk : p.current.kind ≠ .endOfText) :
    ∃ f, e = .lexical f ∧ p.stream = ([p.current], some f) := by
  unfold shift at h
  split at h
  · cases h
  · rename_i f d hn
    cases h
    exact ⟨f, rfl, by rw [stream, if_neg hk, Cursor.scan_of_error hn]⟩

/-- The token in sight comes first. -/
theorem stream_fst (p : Parser) : ∃ ts, p.stream.1 = p.current :: ts := by
  rw [stream]
  split
  · exact ⟨[], rfl⟩
  · exact ⟨_, rfl⟩

/-! ### Reading is running over the tokens -/

/-- Reading a binding is running over its tokens. -/
theorem run_of_read (env : Environment) (bound : List Name) (b : BindingState) (p : Parser)
    (hb : ¬ (p.current.kind = .endOfText ∧ b = .name)) :
    DocumentState.run p.stream.2 ⟨env, bound, b⟩ p.stream.1 =
      match p.read .binding b with
      | (.error e, _) => .error e
      | (.ok (n, v), q) =>
        DocumentState.run q.stream.2 ⟨env.put n v, bound ++ [n], .name⟩ q.stream.1 := by
  fun_induction read Reader.binding b p with
  | case1 b p f hs =>
    -- the token in sight does not fit
    obtain ⟨ts, hts⟩ := p.stream_fst
    rw [hts, DocumentState.run_cons_of_error (DocumentState.step_of_error hs) hb]
    rfl
  | case2 b p v hs q hq =>
    -- it completes the binding
    rw [stream_of_shift hq (kind_ne_of_step hs),
      DocumentState.run_cons_of_ok (DocumentState.step_of_ok hs)]
    rfl
  | case3 b p v hs e q hq =>
    -- it completes the binding, but the text behind it has no next token
    obtain ⟨f, rfl, hstream⟩ := stream_of_shift_error hq (kind_ne_of_step hs)
    rw [hstream, DocumentState.run_cons_of_ok (DocumentState.step_of_ok hs)]
    rfl
  | case4 b p b' hs q hq ih =>
    -- the binding goes on
    rw [stream_of_shift hq (kind_ne_of_step hs),
      DocumentState.run_cons_of_ok (DocumentState.step_of_ok hs)]
    exact ih fun h => DocumentState.binding_ne_name hs h.2
  | case5 b p b' hs e q hq =>
    -- the binding would go on, but the text behind the token has no next one
    obtain ⟨f, rfl, hstream⟩ := stream_of_shift_error hq (kind_ne_of_step hs)
    rw [hstream, DocumentState.run_cons_of_ok (DocumentState.step_of_ok hs)]
    rfl

/-- Reading bindings to the end of a text is running over its tokens. -/
theorem run_of_bindings (env : Environment) (bound : List Name) (p : Parser) :
    DocumentState.run p.stream.2 ⟨env, bound, .name⟩ p.stream.1 =
      (p.bindings env).result.map fun env' => ⟨env', bound ++ (p.bindings env).bound, .name⟩ := by
  fun_induction bindings p env generalizing bound with
  | case1 p env hk =>
    obtain ⟨ts, hts⟩ := p.stream_fst
    rw [hts, DocumentState.run_cons_of_end hk rfl]
    simp [Except.map]
  | case2 p env hk e q hr =>
    rw [run_of_read env bound .name p fun h => hk h.1, hr]
    rfl
  | case3 p env hk n v q hr r ih =>
    rw [run_of_read env bound .name p fun h => hk h.1, hr]
    simp only [ih, List.append_assoc, List.singleton_append]
    rfl

end Parser

/-- Reading a document is running over the tokens of its text. -/
theorem readDocument_eq_run (text : String) :
    DocumentState.run (Cursor.ofText text).scan.fault? .initial (Cursor.ofText text).scan.tokens =
      (readDocument text).1.map fun env => ⟨env, (readDocument text).2, .name⟩ := by
  unfold readDocument Parser.start
  rcases h : (Cursor.ofText text).next with ⟨e | t, d⟩
  · rw [Cursor.scan_of_error h]
    rfl
  · have hstream := Parser.stream_of_next h
    have hrun := Parser.run_of_bindings [] [] ⟨t, d⟩
    rw [hstream] at hrun
    simpa [Parser.document, DocumentState.initial] using hrun

theorem parse_eq_run (text : String) :
    parse text = (DocumentState.run (Cursor.ofText text).scan.fault? .initial
      (Cursor.ofText text).scan.tokens).map DocumentState.env := by
  rw [readDocument_eq_run, parse]
  rcases (readDocument text).1 <;> rfl

/-- Texts with the same tokens and the same fault are the same document. -/
theorem parse_of_scan_eq {text text' : String}
    (htok : (Cursor.ofText text).scan.tokens = (Cursor.ofText text').scan.tokens)
    (hfault : (Cursor.ofText text).scan.fault? = (Cursor.ofText text').scan.fault?) :
    parse text = parse text' := by
  rw [parse_eq_run, parse_eq_run, htok, hfault]

/-- Reading a document succeeds exactly when the text has tokens and those before the end token
lead to a state between two bindings. -/
theorem parse_eq_ok_iff {text : String} {env : Environment} :
    parse text = .ok env ↔
      ∃ us last s, tokenize text = .ok (us ++ [last]) ∧ last.kind = .endOfText ∧
        DocumentState.initial.feed (us.map Token.lexeme) = .ok s ∧ s.binding = .name ∧
        s.env = env := by
  simp only [parse_eq_run, Outcome.map_eq_ok_iff, tokenize_eq_ok_iff]
  constructor
  · rintro ⟨s, hrun, henv⟩
    obtain ⟨us, rest, htok, hfeed, hrest⟩ := DocumentState.exists_of_run_eq_ok hrun
    have hus := DocumentState.kind_ne_of_feed hfeed
    rcases (Cursor.ofText text).scan_shape with ⟨vs, v, hvs, hf, hv, hall⟩ | ⟨e, hf, hall⟩
    · -- the text has tokens
      rcases hrest with ⟨t, rest', rfl, ht, hb⟩ | ⟨rfl, -⟩
      · -- the end token met is the last one
        obtain ⟨rfl, rfl, rfl⟩ := eq_of_append_cons_eq (htok.symm.trans hvs) ht hall
        exact ⟨us, t, s, ⟨hf, hvs⟩, ht, hfeed, hb, henv⟩
      · rw [List.append_nil] at htok
        exact absurd hv (hus v (by rw [← htok, hvs]; simp))
    · -- a fault in the text would have ended the run
      rcases hrest with ⟨t, rest', rfl, ht, -⟩ | ⟨-, hf'⟩
      · exact absurd ht (hall t (by rw [htok]; simp))
      · rw [hf] at hf'
        cases hf'
  · rintro ⟨us, last, s, ⟨hf, htok⟩, hlast, hfeed, hb, henv⟩
    refine ⟨s, ?_, henv⟩
    rw [htok, DocumentState.run_append hfeed, DocumentState.run_cons_of_end hlast hb]

/-! ### Errors -/

/-- A fault of a text is reported behind tokens that are read. -/
theorem fault_of_parse {text : String} {e : LexError} (h : parse text = .error (.lexical e)) :
    (Cursor.ofText text).scan.fault? = some e := by
  rw [parse_eq_run, Outcome.map_eq_error_iff] at h
  rcases DocumentState.exists_of_run_eq_error h with
    ⟨_, _, _, _, _, -, -, -, -, he⟩ | ⟨e', _, hf, -, he⟩
  · cases he
  · cases he
    exact hf

/-- An error of grammar is reported at a token that does not fit behind tokens that do. -/
theorem exists_of_parse_grammatical {text : String} {e : GrammarError}
    (h : parse text = .error (.grammatical e)) :
    ∃ us u rest s, (Cursor.ofText text).scan.tokens = us ++ u :: rest ∧
      DocumentState.initial.feed (us.map Token.lexeme) = .ok s ∧ s.step u = .error e.fault ∧
      ¬ (u.kind = .endOfText ∧ s.binding = .name) ∧ e.position = u.position := by
  rw [parse_eq_run, Outcome.map_eq_error_iff] at h
  rcases DocumentState.exists_of_run_eq_error h with
    ⟨us, u, rest, s, f, htok, hs, hu, hend, he⟩ | ⟨_, _, -, -, he⟩
  · cases he
    exact ⟨us, u, rest, s, htok, hs, hu, hend, rfl⟩
  · cases he

/-- The same tokens up to one that does not fit give the same error. -/
theorem parse_eq_grammatical {text : String} {us rest : List Token} {u : Token}
    {s : DocumentState} {f : GrammarFault}
    (htok : (Cursor.ofText text).scan.tokens = us ++ u :: rest)
    (hs : DocumentState.initial.feed (us.map Token.lexeme) = .ok s) (hu : s.step u = .error f)
    (hend : ¬ (u.kind = .endOfText ∧ s.binding = .name)) :
    parse text = .error (.grammatical ⟨u.position, f⟩) := by
  rw [parse_eq_run, htok, DocumentState.run_append hs, DocumentState.run_cons_of_error hu hend]
  rfl

end HexDoc
