/-
HexDoc/Parser/Descent.lean

Values read by recursive descent: a dictionary reads its fields one after the other, and for the
value of a field the reader of values calls itself.  The parser that is left has no more to take
than the one before, which bounds the recursion.

Beside `Parser.value`, which keeps open dictionaries in a list, this is the grammar of values
as one would write it down.
-/
import HexDoc.Parser.Value

namespace HexDoc

namespace Parser

theorem remaining_shift_le (p : Parser) : p.shift.2.remaining ≤ p.remaining := by
  have hle := p.ahead.length_rest_next_le
  unfold shift
  split
  · rename_i t d hn
    simp only [hn] at hle
    by_cases ht : t.kind = .endOfText
    · simp only [remaining, ht, if_true]
      split <;> omega
    · have := Cursor.length_rest_next_lt hn ht
      simp only [remaining, ht, if_false]
      split <;> omega
  · rename_i e d hn
    simp only [hn] at hle
    simp only [remaining]
    omega

end Parser

namespace Descent

/-- A parser that has no more to take than another. -/
abbrev After (p : Parser) := { q : Parser // q.remaining ≤ p.remaining }

/-- What comes of reading from a parser on. -/
abbrev Read (p : Parser) (α : Type) := Except ReadError α × After p

/-- Reads nothing. -/
def give {α : Type} (p : Parser) (a : α) : Read p α :=
  (.ok a, ⟨p, Nat.le_refl _⟩)

/-- Reports a fault at the token in sight. -/
def refuse {α : Type} (p : Parser) (f : GrammarFault) : Read p α :=
  (.error (p.errorAt f), ⟨p, Nat.le_refl _⟩)

/-- Sees a reading that starts later as one that starts here. -/
def fromHere {α : Type} {p : Parser} (q : After p) (r : Read q.1 α) : Read p α :=
  (r.1, ⟨r.2.1, Nat.le_trans r.2.2 q.2⟩)

/-- Goes on after a reading, unless it failed. -/
def andThen {α β : Type} {p : Parser} (r : Read p α) (go : α → (q : Parser) → Read q β) :
    Read p β :=
  match r with
  | (.error e, q) => (.error e, q)
  | (.ok a, q) => fromHere q (go a q.1)

/-- Takes the token in sight, whatever it is. -/
def take (p : Parser) : Read p Unit :=
  (p.shift.1, ⟨p.shift.2, p.remaining_shift_le⟩)

/-- Takes a token of a kind. -/
def eat (p : Parser) (k : Kind) : Read p Unit :=
  if p.current.kind = k then take p else refuse p (.expected k p.current.kind)

/-- Takes a name, or reports a fault. -/
def name (p : Parser) (otherwise : GrammarFault) : Read p Name :=
  if p.current.kind = .name then andThen (take p) fun _ q => give q p.current.text
  else refuse p otherwise

/-- Reads a number or a reference. -/
def scalar (p : Parser) : Read p Value :=
  match p.current.kind with
  | .number =>
    match Number.ofLexeme? p.current.text with
    | none => refuse p (.badNumber p.current.text)
    | some n => andThen (take p) fun _ q => give q (.number n)
  | .openBracket =>
    andThen (take p) fun _ q =>
      andThen (name q .noReferenceName) fun n q =>
        andThen (eat q .closeBracket) fun _ q => give q (.reference n)
  | k => refuse p (.noValue k)

/-- Reads the name of a field and the colon after it. -/
def key (p : Parser) : Read p Name :=
  andThen (name p .noFieldName) fun k q => andThen (eat q .colon) fun _ q => give q k

theorem remaining_take_lt {p : Parser} {q : After p} (h : take p = (.ok (), q))
    (hk : p.current.kind ≠ .endOfText) : q.1.remaining < p.remaining := by
  obtain ⟨h₁, h₂⟩ := Prod.mk.inj h
  refine Parser.remaining_shift_lt (p := p) (q := q.1) (Prod.ext h₁ ?_) hk
  rw [← h₂]

theorem remaining_key_lt {p : Parser} {k : Name} {q : After p} (h : key p = (.ok k, q)) :
    q.1.remaining < p.remaining := by
  unfold key name at h
  by_cases hk : p.current.kind = .name
  · simp only [hk, if_true] at h
    rcases ht : take p with ⟨_ | ⟨⟨⟩⟩, q₁⟩
    · simp [ht, andThen] at h
    · have hlt := remaining_take_lt ht (by simp [hk])
      simp only [ht, andThen, fromHere, give] at h
      rcases he : eat q₁.1 .colon with ⟨_ | _, q₂⟩
      · simp [he] at h
      · simp only [he, Prod.mk.injEq] at h
        rw [← h.2]
        exact Nat.lt_of_le_of_lt q₂.2 hlt
  · simp [hk, andThen, refuse] at h

mutual

/-- Reads a value. -/
def value (p : Parser) : Read p Value :=
  if _hk : p.current.kind = .openBrace then
    match _ht : take p with
    | (.error e, q) => (.error e, q)
    | (.ok (), q) =>
      fromHere q <|
        if q.1.current.kind = .closeBrace then
          andThen (take q.1) fun _ s => give s (.dict [])
        else fields [] q.1
  else scalar p
termination_by p.remaining
decreasing_by exact remaining_take_lt _ht (by simp [_hk])

/-- Reads the fields of a dictionary from the name of one on, up to its end. -/
def fields (done : Fields) (p : Parser) : Read p Value :=
  match _hk : key p with
  | (.error e, q) => (.error e, q)
  | (.ok k, q) =>
    fromHere q <|
      match value q.1 with
      | (.error e, r) => (.error e, r)
      | (.ok v, r) =>
        fromHere r <|
          match r.1.current.kind with
          | .comma =>
            match take r.1 with
            | (.error e, s) => (.error e, s)
            | (.ok (), s) =>
              fromHere s <|
                if s.1.current.kind = .closeBrace then refuse s.1 .trailingComma
                else fields (done.put k v) s.1
          | .closeBrace => andThen (take r.1) fun _ s => give s (.dict (done.put k v))
          | _ => refuse r.1 .noEntryEnd
termination_by p.remaining
decreasing_by
  · exact remaining_key_lt _hk
  · exact Nat.lt_of_le_of_lt (Nat.le_trans s.2 r.2) (remaining_key_lt _hk)

end

end Descent

end HexDoc
