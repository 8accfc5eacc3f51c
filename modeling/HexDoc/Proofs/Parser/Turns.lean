/-
HexDoc/Proofs/Parser/Turns.lean

Parsing makes progress.  A token that is eaten, the name of a field and a value are all read by
taking tokens, and the end token is not one of them.  Each of the parser's loops does one of these
in every turn that goes on, whatever state it is in (`Parser.advances_of_valueTurn`,
`Parser.advances_of_bindingTurn`), and what remains to be taken bounds the turns.

The loops are those of the parser: what they come to is what `Parser.value` and `Parser.document`
come to (`Parser.comesTo_value`, `Parser.comesTo_bindings`).  Once more the names of fields and the
scalars are those of the recursive descent.

Main statement: every loop of reading a text uses the text up, so that reading ends, after one token
more than there are characters at most (`reading_makes_progress`).
-/
import HexDoc.Proofs.Parser.Descent
import HexDoc.Proofs.Token.Turns
import HexDoc.Parser.Turns

namespace HexDoc

namespace Parser

variable {α σ ρ : Type} {p q r : Parser} {ts us : List Token} {x : Except ReadError α}

/-! ### Tokens on the way -/

namespace Takes

theorem trans (h : p.Takes ts q) (h' : q.Takes us r) : p.Takes (ts ++ us) r := by
  induction h with
  | nothing => exact h'
  | token hk hq _ ih => exact .token hk hq (ih h')

/-- What is taken does not remain. -/
theorem remaining_le (h : p.Takes ts q) : ts.length + q.remaining ≤ p.remaining := by
  induction h with
  | nothing => exact Nat.le_of_eq (Nat.zero_add _)
  | token hk hq _ ih =>
    have hlt := remaining_shift_lt hq hk
    rw [List.length_cons]
    omega

end Takes

namespace Advances

theorem trans (h : p.Advances q) (h' : q.Advances r) : p.Advances r := by
  obtain ⟨ts, hne, hts⟩ := h
  obtain ⟨us, -, hus⟩ := h'
  exact ⟨ts ++ us, List.append_ne_nil_of_left_ne_nil hne us, hts.trans hus⟩

theorem remaining_lt (h : p.Advances q) : q.remaining < p.remaining := by
  obtain ⟨ts, hne, hts⟩ := h
  have hpos : 0 < ts.length := List.length_pos_iff.mpr hne
  have hle := hts.remaining_le
  omega

end Advances

namespace Goes

/-- A way that ends with an answer. -/
theorem takes (h : Goes p ts x q) (hts : ∀ t ∈ ts, t.kind ≠ .endOfText) {a : α}
    (hx : x = .ok a) : p.Takes ts q := by
  induction h with
  | answer => exact .nothing
  | refusal f => cases hx
  | fault hq => cases hx
  | token hq _ ih =>
    obtain ⟨hk, hts⟩ := List.forall_mem_cons.mp hts
    exact .token hk hq (ih hts hx)

/-- There remains enough for every token that is taken, and for a reading that fails. -/
theorem length_add_failedReadings_le {c : Cursor} {k : Nat} (h : Goes p ts x q)
    (hts : ∀ t ∈ ts, t.kind ≠ .endOfText) (hp : p.IsAt c k) :
    ts.length + failedReadings x ≤ p.remaining := by
  induction h generalizing k with
  | answer a => exact Nat.zero_le _
  | refusal f => exact Nat.zero_le _
  | @fault p q e hq =>
    obtain ⟨f, rfl, -, hcurrent⟩ := shift_eq_error_iff.mp hq
    -- behind the end token comes the end token again, and no fault
    have hfault : Goes p [] (.error (.lexical f) : Except ReadError Unit) q := .fault hq
    have hk : p.current.kind ≠ .endOfText :=
      hcurrent ▸ (hp.shift_error hq).kind_ne_of_stuck (hfault.stuck rfl)
    rw [remaining, if_neg hk]
    exact Nat.add_le_add_right (Nat.zero_le _) 1
  | token hq _ ih =>
    obtain ⟨hk, hts⟩ := List.forall_mem_cons.mp hts
    have hlt := remaining_shift_lt hq hk
    have hle := ih hts (.of_fetch (hp.fetch_of_shift hq))
    rw [List.length_cons]
    omega

/-- At the end of a way the cursor has been read as often as tokens have been taken, and once more
where that failed. -/
theorem ahead_eq {c : Cursor} {k : Nat} (h : Goes p ts x q)
    (hp : c.fetch k = (.ok p.current, p.ahead)) :
    q.ahead = (c.fetch (k + (ts.length + failedReadings x))).2 := by
  induction h generalizing k with
  | answer a => exact (congrArg Prod.snd hp).symm
  | refusal f => exact (congrArg Prod.snd hp).symm
  | @fault p q e hq =>
    obtain ⟨f, rfl, hnext, -⟩ := shift_eq_error_iff.mp hq
    show q.ahead = ((c.fetch k).2.next).2
    rw [hp, hnext]
  | @token p q r ts x hq _ ih =>
    have hlength : k + ((p.current :: ts).length + failedReadings x) =
        k + 1 + (ts.length + failedReadings x) := by
      rw [List.length_cons]
      omega
    rw [hlength]
    exact ih ((IsAt.of_fetch hp).fetch_of_shift hq)

end Goes

/-! ### What is read is read by taking tokens -/

theorem kind_ne_of_mem_takenRead {reader : Reader σ ρ} {s : σ} :
    ∀ t ∈ p.takenRead reader s, t.kind ≠ .endOfText := by
  fun_induction takenRead reader s p with
  | case1 => simp
  | case2 s p v hs =>
    unfold takenShift
    split
    · simpa using kind_ne_of_step hs
    · simp
  | case3 s p s' hs q hq ih => exact List.forall_mem_cons.mpr ⟨kind_ne_of_step hs, ih⟩
  | case4 => simp

theorem kind_ne_of_mem_takenBindings : ∀ t ∈ p.takenBindings, t.kind ≠ .endOfText := by
  fun_induction takenBindings p with
  | case1 => simp
  | case2 p hk ih =>
    refine List.forall_mem_append.mpr ⟨kind_ne_of_mem_takenRead, ?_⟩
    split
    · simp
    · rename_i a q h
      exact ih a q h

theorem advances_of_eat {k : Kind} {t : Token} (h : p.eat k = (.ok t, q)) (hk : k ≠ .endOfText) :
    p.Advances q := by
  by_cases hp : p.current.kind = k
  · rw [eat_of_eq hp] at h
    rcases hq : p.shift with ⟨e | ⟨⟨⟩⟩, q'⟩ <;> rw [hq] at h <;> cases h
    exact ⟨[p.current], List.cons_ne_nil _ _, .token (hp ▸ hk) hq .nothing⟩
  · rw [eat_of_ne hp] at h
    cases h

theorem advances_of_read {reader : Reader σ ρ} {s : σ} {v : ρ}
    (h : p.read reader s = (.ok v, q)) : p.Advances q := by
  have hgoes := goes_read reader s p
  rw [h] at hgoes
  refine ⟨p.takenRead reader s, fun hnil => ?_, hgoes.takes kind_ne_of_mem_takenRead rfl⟩
  -- a reader that has taken nothing has not moved, and so it has read nothing
  have hlt := remaining_read_lt h
  rw [hnil] at hgoes
  cases hgoes
  exact Nat.lt_irrefl _ hlt

theorem advances_of_fieldName {k : Name} (h : p.fieldName = (.ok k, q)) : p.Advances q := by
  unfold fieldName at h
  split at h
  · split at h
    · cases h
    · rename_i t q' hname
      split at h <;> cases h
      rename_i u hcolon
      exact (advances_of_eat hname (by decide)).trans (advances_of_eat hcolon (by decide))
  · cases h

theorem advances_of_scalar {v : Value} (h : p.scalar = (.ok v, q)) : p.Advances q := by
  unfold scalar at h
  split at h
  · cases h
  · exact advances_of_read h

/-! ### Turns that go on -/

theorem exists_of_unlessFailed {r : Except ReadError α × Parser}
    {go : α → Parser → Loop.Next σ (Except ReadError ρ × Parser)} {s : σ}
    (h : unlessFailed r go = .again s) : ∃ a q, r = (.ok a, q) ∧ go a q = .again s := by
  rcases r with ⟨e | a, q⟩
  · cases h
  · exact ⟨a, q, rfl, h⟩

/-- A turn of reading a value that goes on takes a token. -/
theorem advances_of_valueTurn {s s' : ValueStage} :
    valueTurn s = .again s' → s.parser.Advances s'.parser := by
  fun_cases valueTurn s with
  | case1 opened p hk =>
    intro h
    obtain ⟨t, q, hopen, h⟩ := exists_of_unlessFailed h
    have hq : p.Advances q := advances_of_eat hopen (by decide)
    split at h
    · obtain ⟨u, r, hclose, h⟩ := exists_of_unlessFailed h
      cases h
      exact hq.trans (advances_of_eat hclose (by decide))
    · obtain ⟨k, r, hname, h⟩ := exists_of_unlessFailed h
      cases h
      exact hq.trans (advances_of_fieldName hname)
  | case2 opened p hk =>
    intro h
    obtain ⟨v, q, hscalar, h⟩ := exists_of_unlessFailed h
    cases h
    exact advances_of_scalar hscalar
  | case3 v p =>
    intro h
    cases h
  | case4 o opened v p fields hk =>
    intro h
    obtain ⟨t, q, hcomma, h⟩ := exists_of_unlessFailed h
    split at h
    · cases h
    · obtain ⟨k, r, hname, h⟩ := exists_of_unlessFailed h
      cases h
      exact (advances_of_eat hcomma (by decide)).trans (advances_of_fieldName hname)
  | case5 o opened v p fields hcomma hk =>
    intro h
    obtain ⟨t, q, hclose, h⟩ := exists_of_unlessFailed h
    cases h
    exact advances_of_eat hclose (by decide)
  | case6 o opened v p hcomma hk =>
    intro h
    cases h

/-- A turn of reading bindings that goes on takes a token. -/
theorem advances_of_bindingTurn {s s' : Environment × Parser} :
    bindingTurn s = .again s' → s.2.Advances s'.2 := by
  fun_cases bindingTurn s with
  | case1 env p hend =>
    intro h
    cases h
  | case2 env p hend hk =>
    intro h
    obtain ⟨t, q, hname, h⟩ := exists_of_unlessFailed h
    obtain ⟨u, r, hequals, h⟩ := exists_of_unlessFailed h
    obtain ⟨v, s, hvalue, h⟩ := exists_of_unlessFailed h
    cases h
    have hq : p.Advances q := advances_of_eat hname (by decide)
    have hr : q.Advances r := advances_of_eat hequals (by decide)
    exact (hq.trans hr).trans (advances_of_read hvalue)
  | case3 env p hend hk =>
    intro h
    cases h

/-! ### What the loops come to -/

theorem result_unlessFailed {r : Except ReadError α × Parser} (f : σ → Except ReadError ρ × Parser)
    (go : α → Parser → Loop.Next σ (Except ReadError ρ × Parser)) :
    (unlessFailed r go).result f = onward r fun a q => (go a q).result f := by
  rcases r with ⟨e | a, q⟩ <;> rfl

/-- Where it does not matter which token is eaten, the descent eats it too. -/
theorem onward_eat (p : Parser) (k : Kind) (go : Parser → Except ReadError α × Parser) :
    onward (p.eat k) (fun _ q => go q) = onward (Descent.eat p k).plain fun _ q => go q := by
  rw [Descent.plain_eat]
  split
  · rename_i hk
    rw [eat_of_eq hk]
    rcases p.shift with ⟨e | ⟨⟨⟩⟩, q⟩ <;> rfl
  · rename_i hk
    rw [eat_of_ne hk]
    rfl

theorem onward_eat_of_eq {k : Kind} (hk : p.current.kind = k)
    (go : Token → Parser → Except ReadError α × Parser) :
    onward (p.eat k) go = onward p.shift fun _ q => go p.current q := by
  rw [eat_of_eq hk]
  rcases p.shift with ⟨e | ⟨⟨⟩⟩, q⟩ <;> rfl

theorem fieldName_eq_onward (hp : p.current.kind = .name) :
    p.fieldName = onward (p.eat .name) fun t q => onward (q.eat .colon) fun _ r =>
      (.ok t.text, r) := by
  rw [fieldName, if_pos hp]
  rcases p.eat .name with ⟨e | t, q⟩
  · rfl
  · rcases h : q.eat .colon with ⟨e | u, r⟩ <;> simp only [onward, h]

/-- The name of a field is the key that the descent reads. -/
theorem fieldName_eq_key (p : Parser) : p.fieldName = (Descent.key p).plain := by
  rw [Descent.key, Descent.plain_andThen, Descent.plain_name]
  split
  · rename_i hk
    rw [fieldName_eq_onward hk, onward_eat_of_eq hk, onward_assoc]
    refine onward_congr fun _ q => ?_
    rw [onward_eat, onward_ok, Descent.plain_andThen]
    rfl
  · rename_i hk
    rw [fieldName, if_neg hk]
    rfl

/-- A scalar is the one that the descent reads. -/
theorem scalar_eq_scalar (hp : p.current.kind ≠ .openBrace) :
    p.scalar = (Descent.scalar p).plain := by
  rw [scalar, if_neg hp, value, ValueState.initial, Descent.read_scalar [] hp]
  rcases (Descent.scalar p).plain with ⟨e | v, q⟩ <;> rfl

/-- What the reading of a value comes to from a stage on. -/
def ValueStage.finish : ValueStage → Except ReadError Value × Parser
  | .outer opened p => p.read .value ⟨.value, opened⟩
  | .inner opened v p => p.proceed .value (ValueState.supply v opened)

/-- Behind the name of a field the outer loop goes on. -/
theorem read_nextField (fs : Fields) (opened : List OpenDict) (hp : p.current.kind ≠ .closeBrace) :
    p.read .value ⟨.nextField fs, opened⟩ =
      onward p.fieldName fun k q => ValueStage.finish (.outer (⟨fs, k⟩ :: opened) q) := by
  rw [Descent.read_key fs opened hp, fieldName_eq_key]
  rfl

/-- The loops of reading a value read what the reader of values reads. -/
theorem comesTo_value : valueTurn.ComesTo ValueStage.finish := by
  refine .of_result fun s => ?_
  fun_cases valueTurn s with
  | case1 opened p hk =>
    rw [result_unlessFailed, onward_eat_of_eq hk, ValueStage.finish,
      read_of_ok (g := .more ⟨.firstField, opened⟩) (by simp [Reader.value, ValueState.step, hk])]
    refine onward_congr fun _ q => ?_
    show q.read .value ⟨.firstField, opened⟩ = _
    split
    · rename_i hclose
      rw [result_unlessFailed, onward_eat_of_eq hclose]
      exact read_of_ok (by simp [Reader.value, ValueState.step, hclose])
    · rename_i hclose
      -- but for the end of the dictionary, its first field is like the others
      have hstep : Reader.value.step ⟨.firstField, opened⟩ q.current =
          Reader.value.step ⟨.nextField [], opened⟩ q.current := by
        simp [Reader.value, ValueState.step, hclose]
      rw [result_unlessFailed, read_congr hstep]
      exact read_nextField [] opened hclose
  | case2 opened p hk =>
    rw [result_unlessFailed, scalar_eq_scalar hk]
    exact Descent.read_scalar opened hk
  | case3 v p => rfl
  | case4 o opened v p fields hk =>
    rw [result_unlessFailed, onward_eat_of_eq hk]
    refine (read_of_ok (g := .more ⟨.nextField fields, opened⟩)
      (by simp [Reader.value, ValueState.step, hk, fields])).trans (onward_congr fun _ q => ?_)
    show q.read .value ⟨.nextField fields, opened⟩ = _
    split
    · rename_i hclose
      exact read_of_error (by simp [Reader.value, ValueState.step, hclose])
    · rename_i hclose
      rw [result_unlessFailed]
      exact read_nextField fields opened hclose
  | case5 o opened v p fields hcomma hk =>
    rw [result_unlessFailed, onward_eat_of_eq hk]
    exact read_of_ok (by simp [Reader.value, ValueState.step, hk, fields])
  | case6 o opened v p hcomma hk =>
    exact read_of_error (by simp only [Reader.value, ValueState.step])

/-- Reading a value ends, after no more turns than there is to take. -/
theorem value_ends (s : ValueStage) : ∃ k ≤ s.parser.remaining, valueTurn.Ends s k s.finish :=
  Loop.exists_ends comesTo_value (fun s => s.parser.remaining)
    (fun h => (advances_of_valueTurn h).remaining_lt) s

theorem step_inside (n : Name) (s : ValueState) (t : Token) :
    Reader.binding.step (.inside n s) t = (Reader.value.step s t).map fun
      | .more s' => .more (.inside n s')
      | .complete v => .complete (n, v) := rfl

/-- The value of a binding is read as any value is. -/
theorem read_inside (n : Name) (s : ValueState) (p : Parser) :
    p.read .binding (.inside n s) = onward (p.read .value s) fun v q => (.ok (n, v), q) := by
  fun_induction read Reader.value s p with
  | case1 s p f hs => exact read_of_error (by rw [step_inside, hs]; rfl)
  | case2 s p v hs q hq =>
    rw [read_of_ok (by rw [step_inside, hs]; rfl), hq]
    rfl
  | case3 s p v hs e q hq =>
    rw [read_of_ok (by rw [step_inside, hs]; rfl), hq]
    rfl
  | case4 s p s' hs q hq ih =>
    rw [read_of_ok (by rw [step_inside, hs]; rfl), hq]
    exact ih
  | case5 s p s' hs e q hq =>
    rw [read_of_ok (by rw [step_inside, hs]; rfl), hq]
    rfl

/-- A binding is read from its name on. -/
theorem read_binding (hp : p.current.kind = .name) :
    p.read .binding .name = onward (p.eat .name) fun t q => onward (q.eat .equals) fun _ r =>
      onward r.value fun v s => (.ok (t.text, v), s) := by
  rw [onward_eat_of_eq hp, read_of_ok (g := .more (.equals p.current.text))
    (by simp [Reader.binding, BindingState.step, hp])]
  refine onward_congr fun _ q => ?_
  rw [onward_eat]
  refine (Descent.read_demand (k := .equals) (g := .more (.inside p.current.text .initial))
    (fun t => rfl) q).trans (onward_congr fun _ r => ?_)
  exact read_inside p.current.text .initial r

/-- What a document comes to, and the parser behind it. -/
def outcome (env : Environment) (p : Parser) : Except ReadError Environment × Parser :=
  ((p.bindings env).result, (p.bindings env).parser)

theorem outcome_of_ne (env : Environment) (hp : p.current.kind ≠ .endOfText) :
    outcome env p = onward (p.read .binding .name) fun b q => outcome (env.put b.1 b.2) q := by
  rw [outcome, bindings, if_neg hp]
  split <;> rename_i h <;> rw [h] <;> rfl

/-- The loop over the bindings reads what the parser reads. -/
theorem comesTo_bindings : bindingTurn.ComesTo fun (env, p) => outcome env p := by
  refine .of_result fun s => ?_
  fun_cases bindingTurn s with
  | case1 env p hend =>
    show outcome env p = (.ok env, p)
    rw [outcome, bindings, if_pos hend]
  | case2 env p hend hk =>
    show outcome env p = _
    rw [outcome_of_ne env hend, read_binding hk]
    simp only [result_unlessFailed, onward_assoc]
    rfl
  | case3 env p hend hk =>
    show outcome env p = _
    rw [outcome_of_ne env hend, read_of_error (f := .noBindingName)
      (by simp [Reader.binding, BindingState.step, hk])]
    rfl

/-- Reading bindings ends, after no more turns than there is to take. -/
theorem bindings_end (env : Environment) (p : Parser) :
    ∃ k ≤ p.remaining, bindingTurn.Ends (env, p) k (outcome env p) :=
  Loop.exists_ends comesTo_bindings (fun s => s.2.remaining)
    (fun h => (advances_of_bindingTurn h).remaining_lt) (env, p)

/-! ### Reading a text -/

section Text

variable {c : Cursor}

theorem fetch_of_start (h : start c = .ok p) : c.fetch 0 = (.ok p.current, p.ahead) := by
  unfold start at h
  split at h
  · rename_i t d hnext
    cases h
    exact hnext
  · cases h

/-- At the start there is no more to take than there are characters. -/
theorem remaining_le_of_start (h : start c = .ok p) : p.remaining ≤ c.rest.length := by
  have hnext : c.next = (.ok p.current, p.ahead) := fetch_of_start h
  unfold remaining
  split
  · have hle := c.length_rest_next_le
    rw [hnext] at hle
    exact hle
  · rename_i hk
    exact Cursor.length_rest_next_lt hnext hk

/-- From the start to the end of a document, a token is read at most once for each character and
once more. -/
theorem readings_of_start (h : start c = .ok p) :
    1 + p.takenBindings.length + failedReadings p.document.result ≤ c.rest.length + 1 ∧
      p.document.parser.ahead =
        (c.fetch (p.takenBindings.length + failedReadings p.document.result)).2 := by
  have hgoes := goes_bindings p []
  have hle := hgoes.length_add_failedReadings_le kind_ne_of_mem_takenBindings (isAt_start h)
  have hstart := remaining_le_of_start h
  refine ⟨?_, ?_⟩
  · rw [document]
    omega
  · have hahead := hgoes.ahead_eq (fetch_of_start h)
    rwa [Nat.zero_add] at hahead

end Text

end Parser

variable {text : String}

theorem length_rest_ofText (text : String) : (Cursor.ofText text).rest.length = text.length :=
  String.length_toList

theorem length_le_of_tokenize {ts : List Token} (h : tokenize text = .ok ts) :
    ts.length ≤ text.length + 1 := by
  rw [tokenize_eq_ok_iff] at h
  have hle := (Cursor.ofText text).length_tokens_scan_le
  rwa [h.2, length_rest_ofText] at hle

theorem parse_of_start_error {e : LexError}
    (h : Parser.start (Cursor.ofText text) = .error e) :
    parse text = .error (.lexical e) ∧ readingsToParse text = 1 := by
  rw [parse, readDocument, readingsToParse, h]
  exact ⟨rfl, rfl⟩

theorem parse_of_start {p : Parser} (h : Parser.start (Cursor.ofText text) = .ok p) :
    parse text = p.document.result ∧
      readingsToParse text =
        1 + p.takenBindings.length + Parser.failedReadings p.document.result := by
  rw [parse, readDocument, readingsToParse, h]
  exact ⟨rfl, rfl⟩

/-- Reading a text makes progress, whatever the text and wherever a reading starts.

* Each turn of passing what is ignored that goes on passes a character, and so the passing ends.
* A token other than the end token is read by passing a character.
* Each turn of the two loops of reading a value takes a token other than the end token, or it ends
  the reading, and so a value is read, or refused, from every stage on.
* The same holds of the loop over the bindings.
* So a text is cut into tokens, or refused, after no more turns that go on than it has characters,
  and it has at most one token more than characters.
* It is parsed, or refused, as well, with at most one token more than characters read off it: a
  cursor from which a token has been read so often stands where the parser's own stands. -/
theorem reading_makes_progress :
    (∀ c d : Cursor, c.skipTurn = .again d → c.Passes d) ∧
    (∀ c : Cursor, ∃ k ≤ c.rest.length, Cursor.skipTurn.Ends c k c.skip) ∧
    (∀ (c d : Cursor) (t : Token), c.next = (.ok t, d) → t.kind ≠ .endOfText → c.Passes d) ∧
    (∀ s s' : Parser.ValueStage, Parser.valueTurn s = .again s' →
      s.parser.Advances s'.parser) ∧
    (∀ s : Parser.ValueStage, ∃ k ≤ s.parser.remaining, ∃ r, Parser.valueTurn.Ends s k r) ∧
    (∀ p : Parser, ∃ k ≤ p.remaining, Parser.valueTurn.Ends (.outer [] p) k p.value) ∧
    (∀ (env env' : Environment) (p p' : Parser),
      Parser.bindingTurn (env, p) = .again (env', p') → p.Advances p') ∧
    (∀ (env : Environment) (p : Parser), ∃ k ≤ p.remaining,
      Parser.bindingTurn.Ends (env, p) k ((p.bindings env).result, (p.bindings env).parser)) ∧
    ∀ text : String,
      let c := Cursor.ofText text
      (∃ k ≤ text.length, Cursor.tokenTurn.Ends ([], c) k (tokenize text, c.tokens.2)) ∧
      (∀ ts, tokenize text = .ok ts → ts.length ≤ text.length + 1) ∧
      ((∃ e, Parser.start c = .error e ∧ parse text = .error (.lexical e)) ∨
        ∃ p, Parser.start c = .ok p ∧
          (∃ k ≤ text.length,
            Parser.bindingTurn.Ends ([], p) k (parse text, p.document.parser)) ∧
          p.document.parser.ahead = (c.fetch (readingsToParse text - 1)).2) ∧
      readingsToParse text ≤ text.length + 1 := by
  refine ⟨fun c d h => Cursor.passes_of_skipTurn h, Cursor.skip_ends,
    fun c d t h ht => Cursor.passes_of_next h ht, fun s s' h => Parser.advances_of_valueTurn h,
    fun s => ?_, fun p => Parser.value_ends (.outer [] p),
    fun env env' p p' h => Parser.advances_of_bindingTurn h, Parser.bindings_end,
    fun text => ?_⟩
  · obtain ⟨k, hk, hends⟩ := Parser.value_ends s
    exact ⟨k, hk, _, hends⟩
  · intro c
    obtain ⟨k, hk, htokens⟩ := c.tokens_ends
    rw [length_rest_ofText] at hk
    refine ⟨⟨k, hk, htokens⟩, fun ts => length_le_of_tokenize, ?_⟩
    rcases hstart : Parser.start c with e | p
    · obtain ⟨hparse, hreadings⟩ := parse_of_start_error hstart
      exact ⟨.inl ⟨e, rfl, hparse⟩, by rw [hreadings]; exact Nat.le_add_left 1 _⟩
    · obtain ⟨hparse, hreadings⟩ := parse_of_start hstart
      obtain ⟨hle, hahead⟩ := Parser.readings_of_start hstart
      obtain ⟨k, hk, hends⟩ := Parser.bindings_end [] p
      have hk' := Nat.le_trans hk (Parser.remaining_le_of_start hstart)
      rw [length_rest_ofText] at hle hk'
      rw [hparse, hreadings, Nat.add_assoc, Nat.add_sub_cancel_left, ← Nat.add_assoc]
      exact ⟨.inr ⟨p, rfl, ⟨k, hk', hends⟩, hahead⟩, hle⟩

end HexDoc
