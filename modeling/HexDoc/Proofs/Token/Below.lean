/-
HexDoc/Proofs/Token/Below.lean

Reading a text that stands further down.  A cursor that has reached a place further down, on
the same column and with the same text ahead, reads the same tokens and meets the same fault,
every place as many lines further down.

`Position.below` moves places, and `below` of a cursor, a token or a fault moves its place.  Main
statements: what a text before a newline adds to the place (`Position.past_newline`), and that
reading commutes with moving down (`Cursor.scan_below`).
-/
import HexDoc.Proofs.Parser.Stream

namespace HexDoc

namespace Position

/-- The place on the same column, some lines further down. -/
def below (p : Position) (lines : Nat) : Position :=
  ⟨p.line + lines, p.column⟩

theorem after_below (p : Position) (lines : Nat) (c : Char) :
    (p.below lines).after c = (p.after c).below lines := by
  unfold after below
  split
  · rw [Position.mk.injEq]
    exact ⟨Nat.add_right_comm _ _ _, rfl⟩
  · rfl

theorem past_below (p : Position) (lines : Nat) (cs : List Char) :
    (p.below lines).past cs = (p.past cs).below lines := by
  induction cs generalizing p with
  | nil => rfl
  | cons c cs ih => rw [past_cons, past_cons, after_below, ih]

theorem right_below (p : Position) (lines n : Nat) :
    (p.below lines).right n = (p.right n).below lines := rfl

/-- The line counts the newlines passed. -/
theorem line_past (p : Position) (cs : List Char) :
    (p.past cs).line = p.line + cs.count '\n' := by
  induction cs generalizing p with
  | nil => rfl
  | cons c cs ih =>
    rw [past_cons, ih, List.count_cons]
    by_cases hc : c = '\n'
    · simp [after, hc]
      omega
    · simp [after, hc]

/-- Behind a text and a newline comes the first column of a line further down. -/
theorem past_newline (p : Position) (cs : List Char) :
    p.past (cs ++ ['\n']) = ⟨p.line + cs.count '\n' + 1, 1⟩ := by
  rw [past_append, ← line_past]
  rfl

end Position

/-- The same token, some lines further down. -/
def Token.below (t : Token) (lines : Nat) : Token :=
  { t with position := t.position.below lines }

/-- The same fault, some lines further down. -/
def LexError.below (e : LexError) (lines : Nat) : LexError :=
  { e with position := e.position.below lines }

namespace Cursor

/-- A cursor with the same text ahead, behind more characters and some lines further down. -/
def below (c : Cursor) (passed lines : Nat) : Cursor :=
  ⟨c.rest, c.offset + passed, c.position.below lines⟩

variable (c : Cursor) (passed lines : Nat)

theorem advance_below (n : Nat) :
    (c.below passed lines).advance n = (c.advance n).below passed lines := by
  unfold advance below
  rw [Position.past_below, Position.right_below, Nat.add_right_comm]

theorem skipIgnored_below :
    (c.below passed lines).skipIgnored = c.skipIgnored.below passed lines := by
  fun_induction skipIgnored c with
  | case1 c h =>
    rw [skipIgnored, dif_pos (show ignoredLength (c.below passed lines).rest = 0 from h)]
  | case2 c h ih =>
    rw [skipIgnored, dif_neg (show ¬ ignoredLength (c.below passed lines).rest = 0 from h),
      advance_below]
    exact ih

/-- What has been read, some lines further down. -/
def readBelow : Except LexError Token × Cursor → Except LexError Token × Cursor
  | (.ok t, d) => (.ok (t.below lines), d.below passed lines)
  | (.error e, d) => (.error (e.below lines), d.below passed lines)

theorem tokenHere_below :
    (c.below passed lines).tokenHere = readBelow passed lines c.tokenHere := by
  have hrest : (c.below passed lines).rest = c.rest := rfl
  unfold tokenHere
  rw [hrest]
  split
  · rfl
  · rename_i ch cs hcs
    rcases lexeme? (ch :: cs) with - | ⟨k, n⟩
    · rfl
    · simp only [advance_below]
      rfl

theorem next_below : (c.below passed lines).next = readBelow passed lines c.next := by
  have hrest : (c.skipIgnored.below passed lines).rest = c.skipIgnored.rest := rfl
  unfold next skip refuseOpenComment
  rw [skipIgnored_below, hrest]
  by_cases h : opensBlockComment c.skipIgnored.rest = true
  · simp only [h, if_true]
    rfl
  · simp only [h, Bool.false_eq_true, if_false, tokenHere_below]

/-- Reading on further down gives the same tokens and the same fault, further down. -/
theorem scan_below :
    (c.below passed lines).scan =
      ⟨c.scan.tokens.map (·.below lines), c.scan.fault?.map (·.below lines),
        c.scan.stop.below passed lines⟩ := by
  fun_induction scan c with
  | case1 c e d h =>
    have hnext := c.next_below passed lines
    rw [h, readBelow] at hnext
    rw [scan_of_error hnext]
    rfl
  | case2 c t d h ht =>
    have hnext := c.next_below passed lines
    rw [h, readBelow] at hnext
    rw [scan_of_end hnext ht]
    rfl
  | case3 c t d h ht r ih =>
    have hnext := c.next_below passed lines
    rw [h, readBelow] at hnext
    rw [scan_of_token hnext ht, ih]
    rfl

end Cursor

end HexDoc
