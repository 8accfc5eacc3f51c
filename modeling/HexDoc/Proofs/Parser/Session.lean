/-
HexDoc/Proofs/Parser/Session.lean

A parser that is asked for one construct after another follows the tokens of its text.
`Parser.Goes` lists all that a request can do: take the tokens in sight one by one, and end with
an answer, with a token that does not fit, or with a fault in the text behind the token in sight.
Every request goes this way (`Parser.goes_request`), so what holds of such ways holds of sessions.

`Parser.IsAt` ties a parser to its text: it sees the token of a number, and its cursor stands
behind that token or at the fault behind it.

Main statement: whatever a session is asked for and whatever fails, what has been taken and the
token in sight are the first tokens of the text; a token that does not fit is reported at the
token in sight, and after a fault in the text nothing moves any more
(`session_follows_tokens`).
-/
import HexDoc.Proofs.Outcome
import HexDoc.Proofs.Token.Resting

namespace HexDoc

namespace Parser

variable {α β σ ρ : Type} {p q r : Parser} {ts us : List Token}

/-! ### What a request can do -/

/-- A way of a parser: the tokens that it takes, what it comes to and the parser at its end. -/
inductive Goes : Parser → List Token → Except ReadError α → Parser → Prop
  | answer {p : Parser} (a : α) : Goes p [] (.ok a) p
  | refusal {p : Parser} (f : GrammarFault) : Goes p [] (.error (p.errorAt f)) p
  | fault {p q : Parser} {e : ReadError} : p.shift = (.error e, q) → Goes p [] (.error e) q
  | token {p q r : Parser} {ts : List Token} {x : Except ReadError α} :
      p.shift = (.ok (), q) → Goes q ts x r → Goes p (p.current :: ts) x r

namespace Goes

/-- What is made of the answer does not change the way. -/
theorem map {x : Except ReadError α} (h : Goes p ts x q) (f : α → β) : Goes p ts (x.map f) q := by
  induction h with
  | answer a => exact .answer (f a)
  | refusal g => exact .refusal g
  | fault hq => exact .fault hq
  | token hq _ ih => exact .token hq ih

/-- A way that ends with an error ends with it whatever was asked for. -/
theorem error {x : Except ReadError α} (h : Goes p ts x q) {e : ReadError} (hx : x = .error e) :
    Goes p ts (.error e : Except ReadError β) q := by
  induction h with
  | answer a => cases hx
  | refusal g =>
    cases hx
    exact .refusal g
  | fault hq =>
    cases hx
    exact .fault hq
  | token hq _ ih => exact .token hq (ih hx)

/-- A way may go on where another has ended with an answer. -/
theorem append {x : Except ReadError α} {y : Except ReadError β} (h : Goes p ts x q) {a : α}
    (hx : x = .ok a) (h' : Goes q us y r) : Goes p (ts ++ us) y r := by
  induction h with
  | answer b => exact h'
  | refusal g => cases hx
  | fault hq => cases hx
  | token hq _ ih => exact .token hq (ih hx h')

end Goes

theorem goes_shift (p : Parser) : Goes p p.takenShift p.shift.1 p.shift.2 := by
  unfold takenShift
  rcases h : p.shift with ⟨e | ⟨⟨⟩⟩, q⟩
  · exact .fault h
  · exact .token h (.answer ())

theorem goes_expect (p : Parser) (k : Kind) : Goes p [] (p.expect k) p := by
  unfold expect Token.demand
  split
  · exact .answer ()
  · exact .refusal _

theorem expect_of_ne {k : Kind} (hk : p.current.kind ≠ k) :
    p.expect k = .error (p.errorAt (.expected k p.current.kind)) := by
  rw [expect, Token.demand, if_neg hk]
  rfl

theorem eat_of_ne {k : Kind} (hk : p.current.kind ≠ k) :
    p.eat k = (.error (p.errorAt (.expected k p.current.kind)), p) := by
  rw [eat, expect_of_ne hk]

theorem eat_of_eq {k : Kind} (hk : p.current.kind = k) :
    p.eat k = (p.shift.1.map fun _ => p.current, p.shift.2) := by
  have hexpect : p.expect k = .ok () := by
    rw [expect, Token.demand, if_pos hk]
    rfl
  rw [eat, hexpect]
  rcases p.shift with ⟨e | ⟨⟨⟩⟩, q⟩ <;> rfl

theorem goes_eat (p : Parser) (k : Kind) : Goes p (p.takenEat k) (p.eat k).1 (p.eat k).2 := by
  by_cases hk : p.current.kind = k
  · rw [takenEat, if_pos hk, eat_of_eq hk]
    exact p.goes_shift.map _
  · rw [takenEat, if_neg hk, eat_of_ne hk]
    exact .refusal _

/-! ### Requests -/

variable {reader : Reader σ ρ} {s : σ}

theorem takenRead_of_error {f : GrammarFault} (h : reader.step s p.current = .error f) :
    p.takenRead reader s = [] := by
  rw [takenRead]
  split <;> rename_i h' <;> cases h.symm.trans h'
  rfl

theorem takenRead_of_fault {e : ReadError} (hq : p.shift = (.error e, q)) :
    p.takenRead reader s = [] := by
  rw [takenRead]
  split
  · rfl
  · rw [takenShift, hq]
  · split <;> rename_i hq' <;> cases hq.symm.trans hq'
    rfl

/-- A token that fits is taken if the one behind it can be read. -/
theorem takenRead_of_ok {g : Progress σ ρ} (h : reader.step s p.current = .ok g)
    (hq : p.shift = (.ok (), q)) :
    p.takenRead reader s = p.current ::
      match g with
      | .more s' => q.takenRead reader s'
      | .complete _ => [] := by
  rw [takenRead]
  split <;> rename_i h' <;> cases h.symm.trans h'
  · rw [takenShift, hq]
  · split <;> rename_i hq' <;> cases hq.symm.trans hq'
    rfl

theorem goes_read (r : Reader σ ρ) (s : σ) (p : Parser) :
    Goes p (p.takenRead r s) (p.read r s).1 (p.read r s).2 := by
  fun_induction read r s p with
  | case1 s p f hs =>
    rw [takenRead_of_error hs]
    exact .refusal f
  | case2 s p v hs q hq =>
    rw [takenRead_of_ok hs hq]
    exact .token hq (.answer v)
  | case3 s p v hs e q hq =>
    rw [takenRead_of_fault hq]
    exact .fault hq
  | case4 s p s' hs q hq ih =>
    rw [takenRead_of_ok hs hq]
    exact .token hq ih
  | case5 s p s' hs e q hq =>
    rw [takenRead_of_fault hq]
    exact .fault hq

theorem goes_fieldName (p : Parser) :
    Goes p (p.takenBy .fieldName) p.fieldName.1 p.fieldName.2 := by
  have hname := p.goes_eat .name
  unfold fieldName
  by_cases hk : p.current.kind = .name
  · rw [if_pos hk, takenBy]
    rcases h : p.eat .name with ⟨e | t, q⟩ <;> rw [h] at hname
    · simpa using hname.error rfl
    · have hcolon := q.goes_eat .colon
      rcases h' : q.eat .colon with ⟨e | u, r⟩ <;> rw [h'] at hcolon
      · exact hname.append rfl (by simpa [h'] using hcolon.error rfl)
      · have hmap : Goes q (q.takenEat .colon) (.ok t.text) r := hcolon.map fun _ => t.text
        exact hname.append rfl (by simpa [h'] using hmap)
  · rw [if_neg hk, takenBy, eat_of_ne hk, takenEat, if_neg hk]
    exact .refusal .noFieldName

theorem takenBindings_of_read (hk : p.current.kind ≠ .endOfText)
    {x : Except ReadError (Name × Value)} (h : p.read .binding .name = (x, q)) :
    p.takenBindings = p.takenRead .binding .name ++
      match x with
      | .error _ => []
      | .ok _ => q.takenBindings := by
  rw [takenBindings, if_neg hk]
  split <;> rename_i h' <;> cases h.symm.trans h' <;> rfl

theorem goes_bindings (p : Parser) (env : Environment) :
    Goes p p.takenBindings (p.bindings env).result (p.bindings env).parser := by
  fun_induction bindings p env with
  | case1 p env hk =>
    rw [takenBindings, if_pos hk]
    exact .answer env
  | case2 p env hk e q h =>
    have hread := goes_read .binding .name p
    rw [h] at hread
    rw [takenBindings_of_read hk h, List.append_nil]
    exact hread.error rfl
  | case3 p env hk n v q h r ih =>
    have hread := goes_read .binding .name p
    rw [h] at hread
    rw [takenBindings_of_read hk h]
    exact hread.append rfl ih

/-- Every request goes such a way. -/
theorem goes_request (p : Parser) (r : Request) :
    Goes p (p.takenBy r) (p.request r).1 (p.request r).2 := by
  cases r with
  | peek => exact .answer _
  | expect k => exact (p.goes_expect k).map _
  | eat k => exact (p.goes_eat k).map _
  | scalar =>
    simp only [request, scalar, takenBy]
    split
    · exact .refusal _
    · exact (goes_read .value .initial p).map _
  | value => exact (goes_read .value .initial p).map _
  | dict =>
    simp only [request, dict, takenBy, expect, Token.demand]
    split
    · exact (goes_read .value .initial p).map _
    · exact .refusal _
  | fieldName => exact p.goes_fieldName.map _
  | document => exact (p.goes_bindings []).map _

/-! ### Where a parser is -/

/-- A parser sees the token of a number.  Its cursor stands behind that token, or else at the
fault behind it. -/
structure IsAt (c : Cursor) (k : Nat) (p : Parser) : Prop where
  current : (c.fetch k).1 = .ok p.current
  ahead : p.ahead = (c.fetch k).2 ∨ ∃ e, c.fetch (k + 1) = (.error e, p.ahead)

/-- A parser that stands at a fault: there is no token behind the one in sight. -/
def Stuck (p : Parser) : Prop :=
  ∃ e, p.shift = (.error e, p)

variable {c : Cursor} {k : Nat}

theorem shift_eq_ok_iff : p.shift = (.ok (), q) ↔ p.ahead.next = (.ok q.current, q.ahead) := by
  obtain ⟨t, d⟩ := q
  unfold shift
  rcases p.ahead.next with ⟨e | u, d'⟩ <;> simp

/-- Where there is no next token, the one in sight stays. -/
theorem shift_eq_error_iff {e : ReadError} :
    p.shift = (.error e, q) ↔
      ∃ f, e = .lexical f ∧ p.ahead.next = (.error f, q.ahead) ∧ q.current = p.current := by
  obtain ⟨t, d⟩ := q
  unfold shift
  rcases p.ahead.next with ⟨f | u, d'⟩
  · simp [eq_comm, and_assoc, and_comm]
  · simp

theorem isAt_start (h : start c = .ok p) : p.IsAt c 0 := by
  unfold start at h
  rcases hc : c.next with ⟨e | t, d⟩ <;> rw [hc] at h <;> cases h
  exact ⟨congrArg Prod.fst hc, .inl (congrArg Prod.snd hc).symm⟩

namespace IsAt

/-- A parser that stands right behind its token. -/
theorem of_fetch (h : c.fetch k = (.ok p.current, p.ahead)) : p.IsAt c k :=
  ⟨by rw [h], .inl (by rw [h])⟩

/-- The next token has the next number, and the parser stands right behind it. -/
theorem fetch_of_shift (h : p.IsAt c k) (hq : p.shift = (.ok (), q)) :
    c.fetch (k + 1) = (.ok q.current, q.ahead) := by
  have hnext := shift_eq_ok_iff.mp hq
  rcases h.ahead with hahead | ⟨e, hahead⟩
  · rw [Cursor.fetch, ← hahead, hnext]
  · -- at a fault there is no next token
    have hfault := Cursor.fetch_of_error hahead 1
    rw [Cursor.fetch, hahead, hnext] at hfault
    cases hfault

/-- Where there is no next token, the parser stays at its own. -/
theorem shift_error (h : p.IsAt c k) {e : ReadError} (hq : p.shift = (.error e, q)) :
    q.IsAt c k := by
  obtain ⟨f, -, hnext, hcurrent⟩ := shift_eq_error_iff.mp hq
  refine ⟨by rw [hcurrent, h.current], .inr ⟨f, ?_⟩⟩
  rcases h.ahead with hahead | ⟨e', hahead⟩
  · rw [Cursor.fetch, ← hahead, hnext]
  · have hfault := Cursor.fetch_of_error hahead 1
    rw [Cursor.fetch, hahead, hnext] at hfault
    exact hahead.trans hfault.symm

/-- The end of the text can be taken again and again. -/
theorem kind_ne_of_stuck (h : p.IsAt c k) (hp : p.Stuck) : p.current.kind ≠ .endOfText := by
  intro hk
  obtain ⟨e, hq⟩ := hp
  obtain ⟨f, -, hnext, -⟩ := shift_eq_error_iff.mp hq
  have hend := Cursor.fetch_of_end (Prod.ext h.current rfl) hk 1
  rcases h.ahead with hahead | ⟨e', hahead⟩
  · rw [Cursor.fetch, ← hahead, hnext] at hend
    cases hend
  · rw [hahead] at hend
    cases hend

end IsAt

/-! ### What holds along a way -/

namespace Goes

variable {x : Except ReadError α}

/-- The tokens that are taken are the next ones of the text. -/
theorem isAt (h : Goes p ts x q) (hp : p.IsAt c k) :
    q.IsAt c (k + ts.length) ∧ c.answers (k + ts.length) = c.answers k ++ ts.map .ok := by
  induction h generalizing k with
  | answer a => exact ⟨hp, by simp⟩
  | refusal f => exact ⟨hp, by simp⟩
  | fault hq => exact ⟨hp.shift_error hq, by simp⟩
  | @token p q r ts x hq _ ih =>
    obtain ⟨hr, hanswers⟩ := ih (.of_fetch (hp.fetch_of_shift hq))
    have hlength : k + (p.current :: ts).length = k + 1 + ts.length := by simp; omega
    rw [hlength]
    refine ⟨hr, ?_⟩
    rw [hanswers, c.answers_succ, hp.current, List.append_assoc]
    rfl

/-- No way leads back. -/
theorem offset_le (h : Goes p ts x q) : p.ahead.offset ≤ q.ahead.offset := by
  induction h with
  | answer a => exact Nat.le_refl _
  | refusal f => exact Nat.le_refl _
  | @fault p q e hq =>
    obtain ⟨f, -, hnext, -⟩ := shift_eq_error_iff.mp hq
    simpa [hnext] using p.ahead.offset_next_le
  | @token p q r ts x hq _ ih =>
    have hnext := p.ahead.offset_next_le
    rw [shift_eq_ok_iff.mp hq] at hnext
    exact Nat.le_trans hnext ih

/-- A token that does not fit is in sight at the end of the way. -/
theorem position_eq (h : Goes p ts x q) {e : GrammarError} (hx : x = .error (.grammatical e)) :
    e.position = q.current.position := by
  induction h with
  | answer a => cases hx
  | refusal f =>
    cases hx
    rfl
  | fault hq =>
    obtain ⟨f, rfl, -⟩ := shift_eq_error_iff.mp hq
    cases hx
  | token hq _ ih => exact ih hx

/-- A way that ends with a fault in the text ends at that fault. -/
theorem stuck (h : Goes p ts x q) {e : LexError} (hx : x = .error (.lexical e)) : q.Stuck := by
  induction h with
  | answer a => cases hx
  | refusal f => cases hx
  | fault hq =>
    obtain ⟨f, -, hnext, -⟩ := shift_eq_error_iff.mp hq
    exact ⟨.lexical f, shift_eq_error_iff.mpr ⟨f, rfl, Cursor.next_of_error hnext, rfl⟩⟩
  | token hq _ ih => exact ih hx

/-- From a fault no way leads anywhere. -/
theorem eq_of_stuck (h : Goes p ts x q) (hp : p.Stuck) : ts = [] ∧ q = p := by
  obtain ⟨e, hstuck⟩ := hp
  cases h with
  | answer a => exact ⟨rfl, rfl⟩
  | refusal f => exact ⟨rfl, rfl⟩
  | fault hq => exact ⟨rfl, (Prod.mk.inj (hq.symm.trans hstuck)).2⟩
  | token hq _ => cases hq.symm.trans hstuck

end Goes

/-! ### At a fault nothing succeeds any more -/

theorem Stuck.read (h : p.Stuck) (r : Reader σ ρ) (s : σ) : ∃ e, (p.read r s).1 = .error e := by
  obtain ⟨e, hstuck⟩ := h
  fun_induction Parser.read r s p with
  | case1 s p f hs => exact ⟨p.errorAt f, rfl⟩
  | case2 s p v hs q hq => cases hq.symm.trans hstuck
  | case3 s p v hs e' q hq => exact ⟨e', rfl⟩
  | case4 s p s' hs q hq ih => cases hq.symm.trans hstuck
  | case5 s p s' hs e' q hq => exact ⟨e', rfl⟩

theorem Stuck.eat (h : p.Stuck) (k : Kind) : ∃ e, (p.eat k).1 = .error e := by
  obtain ⟨e, hstuck⟩ := h
  by_cases hk : p.current.kind = k
  · exact ⟨e, by rw [eat_of_eq hk, hstuck]; rfl⟩
  · exact ⟨_, by rw [eat_of_ne hk]⟩

/-- At a fault whatever would take a token fails. -/
theorem Stuck.request (h : p.Stuck) (hk : p.current.kind ≠ .endOfText) {r : Request}
    (hr : ¬ r.Looks) : ∃ e, (p.request r).1 = .error e := by
  have hread := h.read .value .initial
  cases r with
  | peek => exact absurd trivial hr
  | expect k => exact absurd trivial hr
  | eat k =>
    obtain ⟨e, he⟩ := h.eat k
    exact ⟨e, by rw [Parser.request, he]; rfl⟩
  | scalar =>
    simp only [Parser.request, scalar]
    split
    · exact ⟨_, rfl⟩
    · exact hread.imp fun e he => Outcome.map_eq_error_iff.mpr he
  | value => exact hread.imp fun e he => Outcome.map_eq_error_iff.mpr he
  | dict =>
    simp only [Parser.request, dict]
    split
    · exact hread.imp fun e he => Outcome.map_eq_error_iff.mpr he
    · exact ⟨_, rfl⟩
  | fieldName =>
    obtain ⟨e, he⟩ := h.eat .name
    rcases hq : p.eat .name with ⟨e' | t, q⟩ <;> rw [hq] at he <;> cases he
    simp only [Parser.request, fieldName, hq]
    split <;> exact ⟨_, rfl⟩
  | document =>
    obtain ⟨e, he⟩ := h.read .binding .name
    rcases hq : p.read .binding .name with ⟨e' | b, q⟩ <;> rw [hq] at he <;> cases he
    refine ⟨e, ?_⟩
    rw [Parser.request, document, bindings, if_neg hk]
    split <;> rename_i h' <;> cases hq.symm.trans h'
    rfl

end Parser

/-! ### Sessions -/

namespace Session

open HexDoc.Parser

variable {c : Cursor} {s : Session}

/-- What a session is between two requests: what has been taken and the token in sight are the
first tokens of the text. -/
structure Follows (c : Cursor) (s : Session) : Prop where
  isAt : s.parser.IsAt c s.taken.length
  answers : c.answers s.taken.length = s.taken.map .ok

theorem follows_ofParser {p : Parser} (h : start c = .ok p) : (ofParser p).Follows c :=
  ⟨isAt_start h, rfl⟩

theorem Follows.ask (h : s.Follows c) (r : Request) : (s.ask r).Follows c := by
  obtain ⟨hat, hanswers⟩ := (s.parser.goes_request r).isAt h.isAt
  have hlength : (s.ask r).taken.length = s.taken.length + (s.parser.takenBy r).length :=
    List.length_append
  refine ⟨?_, ?_⟩
  · rw [hlength]
    exact hat
  · rw [hlength, hanswers, h.answers, ← List.map_append]
    rfl

theorem Follows.asks (h : s.Follows c) (rs : List Request) : (s.asks rs).Follows c := by
  induction rs generalizing s with
  | nil => exact h
  | cons r rs ih => exact ih (h.ask r)

/-- The tokens of the text up to the one in sight. -/
theorem Follows.answers_succ (h : s.Follows c) :
    c.answers (s.taken.length + 1) = (s.taken ++ [s.parser.current]).map .ok := by
  rw [c.answers_succ, h.answers, h.isAt.current, List.map_append]
  rfl

/-- At a fault a session stays as it is. -/
theorem asks_of_stuck (h : s.parser.Stuck) (rs : List Request) : s.asks rs = s := by
  induction rs with
  | nil => rfl
  | cons r rs ih =>
    obtain ⟨hnil, heq⟩ := (s.parser.goes_request r).eq_of_stuck h
    have hask : s.ask r = s := by rw [Session.ask, hnil, heq, List.append_nil]
    show (s.ask r).asks rs = s
    rw [hask, ih]

/-- A token of the wrong kind is refused, and nothing moves. -/
theorem ask_of_ne {k : Kind} (hk : s.parser.current.kind ≠ k) {r : Request}
    (hr : r = .expect k ∨ r = .eat k) :
    (s.parser.request r).1 = .error (s.parser.errorAt (.expected k s.parser.current.kind)) ∧
      s.ask r = s := by
  rcases hr with rfl | rfl
  · refine ⟨?_, ?_⟩
    · rw [request, expect_of_ne hk]
      rfl
    · rw [Session.ask, request, takenBy, List.append_nil]
  · refine ⟨?_, ?_⟩
    · rw [request, eat_of_ne hk]
      rfl
    · rw [Session.ask, request, eat_of_ne hk, takenBy, takenEat, if_neg hk, List.append_nil]

/-- A token that is eaten was in sight. -/
theorem ask_of_eat {k : Kind} {a : Reply} (h : (s.parser.request (.eat k)).1 = .ok a) :
    a = .token s.parser.current ∧ s.parser.current.kind = k ∧
      (s.ask (.eat k)).taken = s.taken ++ [s.parser.current] := by
  by_cases hk : s.parser.current.kind = k
  · rw [request, eat_of_eq hk] at h
    rcases hq : s.parser.shift with ⟨e | ⟨⟨⟩⟩, q⟩ <;> rw [hq] at h <;> cases h
    refine ⟨rfl, hk, ?_⟩
    rw [Session.ask, takenBy, takenEat, if_pos hk, takenShift, hq]
  · rw [request, eat_of_ne hk] at h
    cases h

end Session

/-- A parser follows the tokens of its text, whatever it is asked for and whatever fails on the
way.  After any requests `rs` the tokens taken and the one in sight are the first that a fresh
cursor reads, the end token again and again, and the parser's own cursor stands behind them or at
the fault behind them.  For a further request `r`:

* nothing that was taken comes back;
* a token of the wrong kind is refused, and nothing moves;
* a token that is eaten is the one in sight;
* a token that does not fit is in sight, and the error carries its place;
* after a fault in the text nothing moves any more, and only requests that just look at the token
  in sight can succeed. -/
theorem session_follows_tokens {text : String} {p : Parser}
    (h : Parser.start (Cursor.ofText text) = .ok p) (rs : List Parser.Request)
    (r : Parser.Request) :
    let c := Cursor.ofText text
    let s := (Session.ofParser p).asks rs
    let t := s.ask r
    let outcome := (s.parser.request r).1
    (c.answers (s.taken.length + 1) = (s.taken ++ [s.parser.current]).map .ok ∧
      (s.parser.ahead = (c.fetch s.taken.length).2 ∨
        ∃ e, c.fetch (s.taken.length + 1) = (.error e, s.parser.ahead))) ∧
    (s.taken <+: t.taken ∧ s.parser.ahead.offset ≤ t.parser.ahead.offset) ∧
    (∀ k, (r = .expect k ∨ r = .eat k) → s.parser.current.kind ≠ k →
      outcome = .error (.grammatical ⟨s.parser.current.position,
        .expected k s.parser.current.kind⟩) ∧ t = s) ∧
    (∀ k a, r = .eat k → outcome = .ok a →
      a = .token s.parser.current ∧ s.parser.current.kind = k ∧
        t.taken = s.taken ++ [s.parser.current]) ∧
    (∀ e, outcome = .error (.grammatical e) → e.position = t.parser.current.position) ∧
    (∀ e, outcome = .error (.lexical e) → ∀ more,
      t.asks more = t ∧
        ∀ r', ¬ r'.Looks → ∃ e', ((t.asks more).parser.request r').1 = .error e') := by
  intro c s t outcome
  have hs : s.Follows c := (Session.follows_ofParser h).asks rs
  have ht : t.Follows c := hs.ask r
  have hgoes := s.parser.goes_request r
  refine ⟨⟨hs.answers_succ, hs.isAt.ahead⟩, ⟨List.prefix_append _ _, hgoes.offset_le⟩,
    fun k hr hk => Session.ask_of_ne hk hr, ?_, fun e he => hgoes.position_eq he, ?_⟩
  · rintro k a rfl ha
    exact Session.ask_of_eat ha
  · intro e he more
    have hstuck : t.parser.Stuck := hgoes.stuck he
    rw [Session.asks_of_stuck hstuck more]
    exact ⟨rfl, fun r' hr' => hstuck.request (ht.isAt.kind_ne_of_stuck hstuck) hr'⟩

/-- Behind the equals sign of `a = ?` nothing can be read: the name is taken, the equals sign
stays in sight, and whatever would take it fails from then on. -/
theorem session_follows_tokens_to_fault :
    ∃ p, Parser.start (Cursor.ofText "a = ?") = .ok p ∧
      let s := (Session.ofParser p).asks [.eat .name]
      let t := s.ask (.eat .equals)
      (s.parser.request (.eat .equals)).1 = .error (.lexical ⟨⟨1, 5⟩, .unexpected '?'⟩) ∧
        (Cursor.ofText "a = ?").answers (s.taken.length + 1) =
          (s.taken ++ [s.parser.current]).map .ok ∧
        ∀ more r', t.asks more = t ∧
          (¬ r'.Looks → ∃ e', ((t.asks more).parser.request r').1 = .error e') := by
  let c₁ : Cursor := ⟨[' ', '=', ' ', '?'], 1, ⟨1, 2⟩⟩
  let c₂ : Cursor := ⟨[' ', '?'], 3, ⟨1, 4⟩⟩
  have hname : (Cursor.ofText "a = ?").next = (.ok ⟨.name, "a", ⟨1, 1⟩⟩, c₁) := by
    rw [Cursor.next, Cursor.skip, Cursor.skipIgnored_of_zero rfl]
    rfl
  have hequals : c₁.next = (.ok ⟨.equals, "=", ⟨1, 3⟩⟩, c₂) := by
    rw [Cursor.next, Cursor.skip, Cursor.skipIgnored_of_pos rfl, Cursor.skipIgnored_of_zero rfl]
    rfl
  have hnothing : c₂.next = (.error ⟨⟨1, 5⟩, .unexpected '?'⟩, ⟨['?'], 4, ⟨1, 5⟩⟩) := by
    rw [Cursor.next, Cursor.skip, Cursor.skipIgnored_of_pos rfl, Cursor.skipIgnored_of_zero rfl]
    rfl
  let p : Parser := ⟨⟨.name, "a", ⟨1, 1⟩⟩, c₁⟩
  let q : Parser := ⟨⟨.equals, "=", ⟨1, 3⟩⟩, c₂⟩
  have hstart : Parser.start (Cursor.ofText "a = ?") = .ok p := by rw [Parser.start, hname]
  have htaken : p.shift = (.ok (), q) := Parser.shift_eq_ok_iff.mpr hequals
  have hstuck : q.shift = (.error (.lexical ⟨⟨1, 5⟩, .unexpected '?'⟩),
      ⟨q.current, ⟨['?'], 4, ⟨1, 5⟩⟩⟩) :=
    Parser.shift_eq_error_iff.mpr ⟨_, rfl, hnothing, rfl⟩
  have heaten : ((Session.ofParser p).asks [.eat .name]).parser = q := by
    show (p.eat .name).2 = q
    rw [Parser.eat_of_eq rfl, htaken]
  have hfault : (((Session.ofParser p).asks [.eat .name]).parser.request (.eat .equals)).1 =
      .error (.lexical ⟨⟨1, 5⟩, .unexpected '?'⟩) := by
    rw [heaten, Parser.request, Parser.eat_of_eq rfl, hstuck]
    rfl
  obtain ⟨⟨hanswers, -⟩, -, -, -, -, hstays⟩ :=
    session_follows_tokens hstart [.eat .name] (.eat .equals)
  exact ⟨p, hstart, hfault, hanswers, fun more r' =>
    ⟨(hstays _ hfault more).1, (hstays _ hfault more).2 r'⟩⟩

end HexDoc
