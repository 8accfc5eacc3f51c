/-
HexDoc/Parser/Reader.lean

A reader consumes one construct of the grammar, one token at a time.  After each token it either
knows what it has read or asks for another token, and it never accepts the end token.

`Parser.read` runs a reader on a parser.  Every token that the reader accepts is taken before
the next one is looked at, so the first error met is the one reported, be it of the tokens or
of the text behind them.  Main statement: a construct that has been read has used something up
(`Parser.remaining_read_lt`).
-/
import HexDoc.Parser.Basic

namespace HexDoc

/-- Where a reader stands after a token. -/
inductive Progress (σ ρ : Type)
  | more (s : σ)
  | complete (r : ρ)

/-- A construct of the grammar, as what to do with each token of it. -/
structure Reader (σ ρ : Type) where
  step : σ → Token → Except GrammarFault (Progress σ ρ)
  /-- No construct contains the end of the text. -/
  step_endOfText : ∀ s t, t.kind = .endOfText → ∃ f, step s t = .error f

namespace Parser

variable {σ ρ : Type}

theorem kind_ne_of_step {r : Reader σ ρ} {s : σ} {t : Token} {q : Progress σ ρ}
    (h : r.step s t = .ok q) : t.kind ≠ .endOfText := by
  intro ht
  obtain ⟨f, hf⟩ := r.step_endOfText s t ht
  rw [h] at hf
  cases hf

/-- Reads one construct, from the token in sight on. -/
def read (r : Reader σ ρ) (s : σ) (p : Parser) : Except ReadError ρ × Parser :=
  match _hs : r.step s p.current with
  | .error f => (.error (p.errorAt f), p)
  | .ok (.complete v) =>
    match p.shift with
    | (.ok (), q) => (.ok v, q)
    | (.error e, q) => (.error e, q)
  | .ok (.more s') =>
    match _hq : p.shift with
    | (.ok (), q) => read r s' q
    | (.error e, q) => (.error e, q)
termination_by p.remaining
decreasing_by exact remaining_shift_lt _hq (kind_ne_of_step _hs)

/-- A construct that has been read has used something up. -/
theorem remaining_read_lt {r : Reader σ ρ} {s : σ} {p q : Parser} {v : ρ}
    (h : p.read r s = (.ok v, q)) : q.remaining < p.remaining := by
  fun_induction read r s p with
  | case1 => cases h
  | case2 s p v' hs q' hq =>
    cases h
    exact remaining_shift_lt hq (kind_ne_of_step hs)
  | case3 => cases h
  | case4 s p s' hs q' hq ih =>
    exact Nat.lt_trans (ih h) (remaining_shift_lt hq (kind_ne_of_step hs))
  | case5 => cases h

end Parser

end HexDoc
