/-
HexDoc/Token/Gap.lean

What may stand between tokens: runs of blanks, line comments `# …` up to the end of the line
and block comments `#= … =#`.  A block comment ends at the first `=#` after its two opening
characters, so `#=#` is still open.

`ignoredLength` measures the one piece of this kind that a text begins with, and
`Cursor.skipIgnored` passes piece after piece until there is none.
-/
import HexDoc.Text.CharClass
import HexDoc.Text.Cursor

namespace HexDoc

/-- The number of characters up to and including the first `=#`, if there is one. -/
def closingLength? : List Char → Option Nat
  | [] => none
  | '=' :: '#' :: _ => some 2
  | _ :: cs => (closingLength? cs).map (· + 1)

/-- The length of the run of characters of a class that a text begins with. -/
def runLength (p : Char → Bool) (cs : List Char) : Nat :=
  (cs.takeWhile p).length

/-- The length of the ignored piece that a text begins with: a closed block comment, a line
comment without its newline, or a run of blanks.  It is zero when there is none. -/
def ignoredLength : List Char → Nat
  | '#' :: '=' :: cs => ((closingLength? cs).map (· + 2)).getD 0
  | '#' :: cs => runLength (· ≠ '\n') cs + 1
  | cs => runLength isBlank cs

/-- Whether a text begins like a block comment. -/
def opensBlockComment : List Char → Bool
  | '#' :: '=' :: _ => true
  | _ => false

@[simp]
theorem ignoredLength_nil : ignoredLength [] = 0 := rfl

namespace Cursor

/-- Passes every ignored piece ahead. -/
def skipIgnored (c : Cursor) : Cursor :=
  if _h : ignoredLength c.rest = 0 then c
  else (c.advance (ignoredLength c.rest)).skipIgnored
termination_by c.rest.length
decreasing_by
  refine c.length_rest_advance_lt _ (Nat.pos_of_ne_zero _h) fun h₀ => _h ?_
  rw [h₀, ignoredLength_nil]

/-- Nothing ignored is left ahead. -/
theorem ignoredLength_skipIgnored (c : Cursor) : ignoredLength c.skipIgnored.rest = 0 := by
  fun_induction skipIgnored c with
  | case1 c h => exact h
  | case2 c h ih => exact ih

theorem length_rest_skipIgnored_le (c : Cursor) : c.skipIgnored.rest.length ≤ c.rest.length := by
  fun_induction skipIgnored c with
  | case1 c h => exact Nat.le_refl _
  | case2 c h ih => exact Nat.le_trans ih (by simp)

end Cursor

end HexDoc
