/-
HexDoc/Proofs/Parser/Descent.lean

Reading a value with the open dictionaries in a list is reading it by recursive descent.  A list
of open dictionaries stands for the calls that wait for the value of a field: what the descent
does when such a call returns, the reader does when it supplies the value to the list
(`Descent.read_value`, `Descent.read_fields`).  Both report the first token that does not fit and
the first fault in the text, and leave the same parser behind, whatever comes of the reading.

A value that is read has been spelled by the tokens taken (`Parser.exists_written_of_read`).

Main statement: the two readings agree from every parser on, and one that succeeds takes the
tokens of one value, no more and no fewer (`value_eq_descent`).
-/
import HexDoc.Parser.Descent
import HexDoc.Proofs.Document.Recognition
import HexDoc.Proofs.Parser.Session

namespace HexDoc

/-! ### One reading after another -/

namespace Parser

variable {α β γ σ ρ : Type}

/-- Goes on after a reading, unless it failed. -/
def onward (r : Except ReadError α × Parser) (go : α → Parser → Except ReadError β × Parser) :
    Except ReadError β × Parser :=
  match r with
  | (.error e, q) => (.error e, q)
  | (.ok a, q) => go a q

theorem onward_ok (a : α) (p : Parser) (go : α → Parser → Except ReadError β × Parser) :
    onward (.ok a, p) go = go a p := rfl

theorem onward_assoc (r : Except ReadError α × Parser)
    (go : α → Parser → Except ReadError β × Parser)
    (go' : β → Parser → Except ReadError γ × Parser) :
    onward (onward r go) go' = onward r fun a q => onward (go a q) go' := by
  rcases r with ⟨e | a, q⟩ <;> rfl

theorem onward_congr {r : Except ReadError α × Parser}
    {go go' : α → Parser → Except ReadError β × Parser} (h : ∀ a q, go a q = go' a q) :
    onward r go = onward r go' :=
  congrArg (onward r) (funext fun a => funext (h a))

/-- Goes on from where a reader stands after a token. -/
def proceed (r : Reader σ ρ) (p : Parser) : Progress σ ρ → Except ReadError ρ × Parser
  | .more s => p.read r s
  | .complete v => (.ok v, p)

/-- A token that does not fit ends the reading. -/
theorem read_of_error {r : Reader σ ρ} {s : σ} {p : Parser} {f : GrammarFault}
    (h : r.step s p.current = .error f) : p.read r s = (.error (p.errorAt f), p) := by
  rw [read]
  split
  · rename_i f' h'
    cases h.symm.trans h'
    rfl
  · rename_i v h'
    cases h.symm.trans h'
  · rename_i s' h'
    cases h.symm.trans h'

/-- A token that fits is taken, and the reading goes on behind it. -/
theorem read_of_ok {r : Reader σ ρ} {s : σ} {p : Parser} {g : Progress σ ρ}
    (h : r.step s p.current = .ok g) :
    p.read r s = onward p.shift fun _ q => q.proceed r g := by
  rw [read]
  split
  · rename_i f' h'
    cases h.symm.trans h'
  · rename_i v h'
    cases h.symm.trans h'
    rcases p.shift with ⟨e | u, q⟩ <;> rfl
  · rename_i s' h'
    cases h.symm.trans h'
    split <;> rename_i q hq <;> rw [hq] <;> rfl

/-- A reader is known by what it does to the token in sight. -/
theorem read_congr {r : Reader σ ρ} {s s' : σ} {p : Parser}
    (h : r.step s p.current = r.step s' p.current) : p.read r s = p.read r s' := by
  rcases h' : r.step s' p.current with f | g
  · rw [read_of_error h', read_of_error (h.trans h')]
  · rw [read_of_ok h', read_of_ok (h.trans h')]

end Parser

/-! ### The descent, equation by equation -/

namespace Descent

open HexDoc.Parser

variable {α β : Type} {p : Parser}

/-- What comes of reading, without the bound on what is left. -/
def Read.plain (r : Read p α) : Except ReadError α × Parser :=
  (r.1, r.2.1)

theorem plain_andThen (r : Read p α) (go : α → (q : Parser) → Read q β) :
    (andThen r go).plain = onward r.plain fun a q => (go a q).plain := by
  rcases r with ⟨e | a, q⟩ <;> rfl

theorem plain_fromHere (q : After p) (r : Read q.1 α) : (fromHere q r).plain = r.plain := rfl

theorem plain_take : (take p).plain = p.shift := rfl

theorem plain_name (p : Parser) (f : GrammarFault) :
    (name p f).plain =
      if p.current.kind = .name then onward p.shift fun _ q => (.ok p.current.text, q)
      else (.error (p.errorAt f), p) := by
  unfold name
  split
  · rw [plain_andThen, plain_take]
    rfl
  · rfl

theorem plain_eat (p : Parser) (k : Kind) :
    (eat p k).plain =
      if p.current.kind = k then p.shift
      else (.error (p.errorAt (.expected k p.current.kind)), p) := by
  unfold eat
  split <;> rfl

/-- A value is a dictionary, with fields or without, or else a number or a reference. -/
theorem plain_value (p : Parser) :
    (value p).plain =
      if p.current.kind = .openBrace then
        onward p.shift fun _ q =>
          if q.current.kind = .closeBrace then onward q.shift fun _ s => (.ok (.dict []), s)
          else (fields [] q).plain
      else (scalar p).plain := by
  rw [value]
  split
  · rw [← plain_take]
    split
    · rename_i e q ht
      rw [ht]
      rfl
    · rename_i q ht
      rw [ht, plain_fromHere]
      show _ = if q.1.current.kind = .closeBrace then _ else _
      split
      · rw [plain_andThen, plain_take]
        rfl
      · rfl
  · rfl

/-- What follows the value of a field: another field behind a comma, or the end of the
dictionary. -/
def fieldsEnd (done : Fields) (p : Parser) : Except ReadError Value × Parser :=
  match p.current.kind with
  | .comma =>
    onward p.shift fun _ q =>
      if q.current.kind = .closeBrace then (.error (q.errorAt .trailingComma), q)
      else (fields done q).plain
  | .closeBrace => onward p.shift fun _ q => (.ok (.dict done), q)
  | _ => (.error (p.errorAt .noEntryEnd), p)

/-- Fields begin with the key and the value of one of them. -/
theorem plain_fields (done : Fields) (p : Parser) :
    (fields done p).plain =
      onward (key p).plain fun k q =>
        onward (value q).plain fun v r => fieldsEnd (done.put k v) r := by
  rw [fields]
  split
  · rename_i e q hk
    rw [hk]
    rfl
  · rename_i k q hk
    rw [hk, plain_fromHere]
    show _ = onward (value q.1).plain _
    rcases hv : value q.1 with ⟨e | v, r⟩
    · rfl
    · show _ = fieldsEnd (done.put k v) r.1
      simp only [plain_fromHere, fieldsEnd]
      cases hr : r.1.current.kind with
      | comma =>
        simp only
        rw [← plain_take]
        rcases take r.1 with ⟨e | ⟨⟨⟩⟩, s⟩
        · rfl
        · simp only [plain_fromHere]
          show _ = if s.1.current.kind = .closeBrace then _ else _
          split <;> rfl
      | closeBrace =>
        simp only
        rw [plain_andThen, plain_take]
        rfl
      | _ => rfl

/-! ### The simulation -/

variable {σ ρ : Type}

/-- A reader that waits for a name. -/
theorem read_name {r : Reader σ ρ} {s : σ} {f : GrammarFault} {g : Name → Progress σ ρ}
    (h : ∀ t, r.step s t = if t.kind = .name then .ok (g t.text) else .error f) (p : Parser) :
    p.read r s = onward (name p f).plain fun n q => q.proceed r (g n) := by
  rw [plain_name]
  split
  · rename_i hk
    rw [read_of_ok (by rw [h, if_pos hk]), onward_assoc]
    rfl
  · rename_i hk
    rw [read_of_error (by rw [h, if_neg hk])]
    rfl

/-- A reader that waits for a token of a kind. -/
theorem read_demand {r : Reader σ ρ} {s : σ} {k : Kind} {g : Progress σ ρ}
    (h : ∀ t, r.step s t = (t.demand k).map fun _ => g) (p : Parser) :
    p.read r s = onward (eat p k).plain fun _ q => q.proceed r g := by
  rw [plain_eat]
  split
  · rename_i hk
    exact read_of_ok (by rw [h, Token.demand, if_pos hk]; rfl)
  · rename_i hk
    rw [read_of_error (by rw [h, Token.demand, if_neg hk]; rfl)]
    rfl

/-- The reader takes a key and its colon as the descent does. -/
theorem read_key (fs : Fields) (ds : List OpenDict) (hp : p.current.kind ≠ .closeBrace) :
    p.read .value ⟨.nextField fs, ds⟩ =
      onward (key p).plain fun k q => q.read .value ⟨.value, ⟨fs, k⟩ :: ds⟩ := by
  have hstep : Reader.value.step ⟨.nextField fs, ds⟩ p.current =
      if p.current.kind = .name then .ok (.more ⟨.fieldColon fs p.current.text, ds⟩)
      else .error .noFieldName := by
    simp only [Reader.value, ValueState.step, if_neg hp, ValueState.fieldName]
    split <;> rfl
  rw [key, plain_andThen, onward_assoc, plain_name]
  split
  · rename_i hk
    rw [read_of_ok (hstep.trans (if_pos hk)), onward_assoc]
    refine onward_congr fun _ q => (read_demand (fun t => rfl) q).trans ?_
    rw [onward_ok, plain_andThen, onward_assoc]
    rfl
  · rename_i hk
    exact read_of_error (hstep.trans (if_neg hk))

/-- The reader takes a number or a reference as the descent does, and supplies it. -/
theorem read_scalar (ds : List OpenDict) (hp : p.current.kind ≠ .openBrace) :
    p.read .value ⟨.value, ds⟩ =
      onward (scalar p).plain fun v q => q.proceed .value (ValueState.supply v ds) := by
  unfold scalar
  cases hk : p.current.kind with
  | openBrace => exact absurd hk hp
  | number =>
    cases hn : Number.ofLexeme? p.current.text with
    | none => exact read_of_error (by simp [Reader.value, ValueState.step, hk, hn])
    | some n =>
      rw [read_of_ok (by simp [Reader.value, ValueState.step, hk, hn]; rfl)]
      simp only [plain_andThen, plain_take, onward_assoc]
      rfl
  | openBracket =>
    rw [read_of_ok (g := .more ⟨.referenceName, ds⟩) (by simp [Reader.value, ValueState.step, hk])]
    simp only [plain_andThen, plain_take, onward_assoc]
    refine onward_congr fun _ q => (read_name (f := .noReferenceName)
      (g := fun n => .more ⟨.referenceEnd n, ds⟩) (fun t => rfl) q).trans ?_
    exact onward_congr fun n q => read_demand (fun t => rfl) q
  | _ => exact read_of_error (by simp [Reader.value, ValueState.step, hk])

/-- The reader goes on behind a field as the descent does, provided that it reads further fields
as the descent does. -/
theorem read_fieldEnd (done : Fields) (ds : List OpenDict)
    (hfields : ∀ q : Parser, q.remaining ≤ p.remaining → q.current.kind ≠ .closeBrace →
      q.read .value ⟨.nextField done, ds⟩ =
        onward (fields done q).plain fun v r => r.proceed .value (ValueState.supply v ds)) :
    p.read .value ⟨.fieldEnd done, ds⟩ =
      onward (fieldsEnd done p) fun v r => r.proceed .value (ValueState.supply v ds) := by
  unfold fieldsEnd
  cases hp : p.current.kind with
  | comma =>
    rw [read_of_ok (g := .more ⟨.nextField done, ds⟩)
      (by simp [Reader.value, ValueState.step, hp])]
    simp only [onward_assoc]
    rcases hq : p.shift with ⟨e | ⟨⟨⟩⟩, q⟩
    · rfl
    · have hle : q.remaining ≤ p.remaining := by simpa [hq] using p.remaining_shift_le
      show q.read .value ⟨.nextField done, ds⟩ = onward (if _ then _ else _) _
      split
      · rename_i hc
        exact read_of_error (by simp [Reader.value, ValueState.step, hc])
      · rename_i hc
        exact hfields q hle hc
  | closeBrace =>
    rw [read_of_ok (g := ValueState.supply (.dict done) ds)
      (by simp [Reader.value, ValueState.step, hp])]
    simp only [onward_assoc]
    rfl
  | _ => exact read_of_error (by simp [Reader.value, ValueState.step, hp])

mutual

/-- Whatever dictionaries are open, the reader reads a value as the descent does, and supplies
it. -/
theorem read_value (ds : List OpenDict) (p : Parser) :
    p.read .value ⟨.value, ds⟩ =
      onward (value p).plain fun v q => q.proceed .value (ValueState.supply v ds) := by
  rw [plain_value]
  split
  · rename_i hk
    rw [read_of_ok (g := .more ⟨.firstField, ds⟩) (by simp [Reader.value, ValueState.step, hk]),
      onward_assoc]
    rcases hq : p.shift with ⟨e | ⟨⟨⟩⟩, q⟩
    · rfl
    · have hlt : q.remaining < p.remaining := remaining_shift_lt hq (by simp [hk])
      show q.read .value ⟨.firstField, ds⟩ = onward (if _ then _ else _) _
      split
      · rename_i hc
        rw [read_of_ok (g := ValueState.supply (.dict []) ds)
          (by simp [Reader.value, ValueState.step, hc]), onward_assoc]
        rfl
      · rename_i hc
        -- but for the end of the dictionary, its first field is like the others
        have hstep : Reader.value.step ⟨.firstField, ds⟩ q.current =
            Reader.value.step ⟨.nextField [], ds⟩ q.current := by
          simp [Reader.value, ValueState.step, hc]
        rw [read_congr hstep]
        exact read_fields [] ds q hc
  · rename_i hk
    exact read_scalar ds hk
termination_by p.remaining

/-- It reads the fields of a dictionary as the descent does, and supplies the dictionary. -/
theorem read_fields (done : Fields) (ds : List OpenDict) (p : Parser)
    (hp : p.current.kind ≠ .closeBrace) :
    p.read .value ⟨.nextField done, ds⟩ =
      onward (fields done p).plain fun v q => q.proceed .value (ValueState.supply v ds) := by
  rw [plain_fields, read_key done ds hp, onward_assoc]
  rcases hk : key p with ⟨e | k, q⟩
  · rfl
  · have hlt : q.1.remaining < p.remaining := remaining_key_lt hk
    show q.1.read .value ⟨.value, ⟨done, k⟩ :: ds⟩ = onward (onward (value q.1).plain _) _
    rw [read_value (⟨done, k⟩ :: ds) q.1, onward_assoc]
    rcases value q.1 with ⟨e | v, r⟩
    · rfl
    · -- the value goes to the dictionary that has just been opened for it
      refine read_fieldEnd (done.put k v) ds fun s hs hc => ?_
      have hlt' : s.remaining < p.remaining :=
        Nat.lt_of_le_of_lt (Nat.le_trans hs r.2) hlt
      exact read_fields (done.put k v) ds s hc
termination_by p.remaining

end

end Descent

/-! ### What a value is read from -/

namespace Parser

variable {p q : Parser} {c : Cursor} {k : Nat} {v : Value}

/-- A value that is read has been spelled by the tokens taken. -/
theorem exists_written_of_read {s : ValueState} {ls : List Lexeme} (hs : Partway s ls)
    (hp : p.IsAt c k) (h : p.read .value s = (.ok v, q)) :
    ∃ w : Written, w.WellFormed ∧ w.value = v ∧
      w.lexemes = ls ++ (p.takenRead .value s).map Token.lexeme := by
  fun_induction read Reader.value s p generalizing ls k with
  | case1 => cases h
  | case2 s p v' hstep q' hq =>
    cases h
    have hl := Cursor.isLexeme_of_fetch hp.current (kind_ne_of_step hstep)
    obtain ⟨w, hw, hv, hls⟩ := hs.step hl ((ValueState.step_eq_ok_iff hl).mp hstep)
    exact ⟨w, hw, hv, by rw [takenRead_of_ok hstep hq, hls]; rfl⟩
  | case3 => cases h
  | case4 s p s' hstep q' hq ih =>
    have hl := Cursor.isLexeme_of_fetch hp.current (kind_ne_of_step hstep)
    have hs' : Partway s' (ls ++ [p.current.lexeme]) :=
      hs.step hl ((ValueState.step_eq_ok_iff hl).mp hstep)
    obtain ⟨w, hw, hv, hls⟩ := ih hs' (.of_fetch (hp.fetch_of_shift hq)) h
    refine ⟨w, hw, hv, ?_⟩
    rw [takenRead_of_ok hstep hq, hls, List.append_assoc]
    rfl
  | case5 => cases h

/-- A construct that has been read leaves the parser right behind the token in sight. -/
theorem fetch_of_read {σ ρ : Type} {r : Reader σ ρ} {s : σ} {a : ρ} (hp : p.IsAt c k)
    (h : p.read r s = (.ok a, q)) :
    c.fetch (k + (p.takenRead r s).length) = (.ok q.current, q.ahead) := by
  fun_induction read r s p generalizing k with
  | case1 => cases h
  | case2 s p v' hstep q' hq =>
    cases h
    rw [takenRead_of_ok hstep hq]
    exact hp.fetch_of_shift hq
  | case3 => cases h
  | case4 s p s' hstep q' hq ih =>
    have hfetch := ih (.of_fetch (hp.fetch_of_shift hq)) h
    rw [takenRead_of_ok hstep hq, List.length_cons, Nat.add_comm _ 1, ← Nat.add_assoc]
    exact hfetch
  | case5 => cases h

end Parser

/-- From every parser on, reading a value with the open dictionaries in a list comes to what the
recursive descent comes to: the same value or the same error, and the same parser behind it.

A parser that sees token `k` of a text and succeeds has taken the tokens `ts` that spell one value,
and it sees the token after them: the cursor stands where a fresh one stands after reading it. -/
theorem value_eq_descent (p : Parser) :
    p.value = (Descent.value p).plain ∧
    ∀ (text : String) (k : Nat) (v : Value) (q : Parser),
      p.IsAt (Cursor.ofText text) k → p.value = (.ok v, q) →
      ∃ (w : Written) (ts : List Token), w.WellFormed ∧ w.value = v ∧
        ts.map Token.lexeme = w.lexemes ∧
        (Cursor.ofText text).answers (k + ts.length) =
          (Cursor.ofText text).answers k ++ ts.map .ok ∧
        (Cursor.ofText text).fetch (k + ts.length) = (.ok q.current, q.ahead) := by
  constructor
  · rw [Parser.value, ValueState.initial, Descent.read_value [] p]
    rcases (Descent.value p).plain with ⟨e | v, q⟩ <;> rfl
  · intro text k v q hp h
    obtain ⟨w, hw, hv, hls⟩ := Parser.exists_written_of_read (.value .nil) hp h
    refine ⟨w, p.takenRead .value .initial, hw, hv, hls.symm, ?_, Parser.fetch_of_read hp h⟩
    exact ((Parser.goes_read .value .initial p).isAt hp).2

/-- A dictionary with another one in it: when the inner one ends, the outer one is open with a
field that waits for it, and a sibling follows. -/
theorem value_eq_descent_nested :
    let text := "\x7ba:\x7bb:0x1\x7d,c:[d]\x7d e"
    let v : Value := .dict [("a", .dict [("b", .number ⟨"0x1", 1⟩)]), ("c", .reference "d")]
    let p : Parser := ⟨⟨.openBrace, "\x7b", ⟨1, 1⟩⟩, ⟨text.toList.tail, 1, ⟨1, 2⟩⟩⟩
    let q : Parser := ⟨⟨.name, "e", ⟨1, 19⟩⟩, ⟨[], 19, ⟨1, 20⟩⟩⟩
    p.IsAt (Cursor.ofText text) 0 ∧ p.value = (.ok v, q) ∧ (Descent.value p).plain = (.ok v, q) ∧
      ∃ (w : Written) (ts : List Token), w.WellFormed ∧ w.value = v ∧
        ts.map Token.lexeme = w.lexemes ∧
        (Cursor.ofText text).answers (0 + ts.length) =
          (Cursor.ofText text).answers 0 ++ ts.map .ok ∧
        (Cursor.ofText text).fetch (0 + ts.length) = (.ok q.current, q.ahead) := by
  intro text v p q
  have hopen : (Cursor.ofText text).next = (.ok p.current, p.ahead) := by
    unfold p text
    with_unfolding_all rfl
  have hp : p.IsAt (Cursor.ofText text) 0 := .of_fetch hopen
  have hvalue : p.value = (.ok v, q) := by
    unfold v p q text
    with_unfolding_all rfl
  obtain ⟨hagree, htokens⟩ := value_eq_descent p
  exact ⟨hp, hvalue, hagree.symm.trans hvalue, htokens text 0 v q hp hvalue⟩

end HexDoc
