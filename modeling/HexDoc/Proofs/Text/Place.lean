/-
HexDoc/Proofs/Text/Place.lean

Where a place is in a text.  `IsPlace` says so by counting: the line is one more than the newlines
before, and the column is the distance from the last of them, or from the start of the text.  A
place beyond the end of the text is on its last line.

Main statements: walking over a text from its start keeps count (`isPlace_past`), and a piece of
the text without a newline stands on the line of its place from the column of its place on
(`standsAt_of_isPlace`).
-/
import HexDoc.Proofs.Token.Below

namespace HexDoc

/-- The place of an offset in a text, told from the newlines in front of it. -/
structure IsPlace (cs : List Char) (offset : Nat) (p : Position) : Prop where
  line : p.line = 1 + (cs.take offset).count '\n'
  /-- On a line behind a newline, the column is the distance from that newline. -/
  column : ∀ before after, cs.take offset = before ++ '\n' :: after → '\n' ∉ after →
    p.column = offset - before.length
  /-- On the first line, it counts from the start of the text. -/
  columnOnFirst : '\n' ∉ cs.take offset → p.column = offset + 1

/-- A piece of a text stands at a place: it is there in the text, and it is there on the line
that the place names, from the column that the place names. -/
def StandsAt (cs : List Char) (p : Position) (piece : List Char) : Prop :=
  (∃ offset, IsPlace cs offset p ∧ piece <+: cs.drop offset) ∧
    ∃ l, (cs.splitOn '\n')[p.line - 1]? = some l ∧ piece <+: l.drop (p.column - 1)

/-! ### Keeping count -/

/-- On one line, only the column moves. -/
theorem Position.past_of_notMem {cs : List Char} (h : '\n' ∉ cs) (p : Position) :
    p.past cs = p.right cs.length := by
  induction cs generalizing p with
  | nil => rfl
  | cons c cs ih =>
    rw [List.mem_cons, not_or] at h
    rw [past_cons, ih h.2, after, if_neg fun hc => h.1 hc.symm, right, right, List.length_cons,
      Nat.add_assoc, Nat.add_comm 1]

/-- Walking over a text from its start and on past its end keeps count. -/
theorem isPlace_past (cs : List Char) (offset : Nat) :
    IsPlace cs offset ((Position.start.past (cs.take offset)).right (offset - cs.length)) := by
  refine ⟨Position.line_past _ _, ?_, ?_⟩
  · intro before after h hafter
    have hlen := congrArg List.length h
    simp only [List.length_take, List.length_append, List.length_cons] at hlen
    have hpast : Position.start.past (cs.take offset) =
        ⟨1 + before.count '\n' + 1, 1 + after.length⟩ := by
      rw [h, List.append_cons, Position.past_append, Position.past_newline,
        Position.past_of_notMem hafter]
      rfl
    simp only [hpast, Position.right]
    omega
  · intro h
    rw [Position.past_of_notMem h]
    simp only [Position.right, Position.start, List.length_take]
    omega

/-! ### Lines -/

/-- A text has one more line than newlines. -/
theorem length_splitOn_newline (cs : List Char) :
    (cs.splitOn '\n').length = cs.count '\n' + 1 := by
  induction cs with
  | nil => rfl
  | cons c cs ih =>
    rw [List.splitOn, List.splitOnP_cons_eq_if_modifyHead, List.count_cons]
    rw [List.splitOn] at ih
    by_cases hc : c = '\n' <;> simp [hc, ih]

/-- A text begins on its first line. -/
theorem exists_splitOn_append {cs : List Char} (h : '\n' ∉ cs) (ds : List Char) :
    ∃ l ls, (cs ++ ds).splitOn '\n' = (cs ++ l) :: ls := by
  induction cs with
  | nil =>
    rcases hs : ds.splitOn '\n' with - | ⟨l, ls⟩
    · exact absurd hs (List.splitOn_ne_nil _ _)
    · exact ⟨l, ls, hs⟩
  | cons c cs ih =>
    rw [List.mem_cons, not_or] at h
    obtain ⟨l, ls, hl⟩ := ih h.2
    rw [List.splitOn] at hl
    refine ⟨l, ls, ?_⟩
    rw [List.cons_append, List.splitOn, List.splitOnP_cons_eq_if_modifyHead, hl,
      if_neg (by simpa using fun hc : c = '\n' => h.1 hc.symm)]
    rfl

/-- What stands before a place is empty or ends some way behind a last newline. -/
theorem exists_last_newline (cs : List Char) :
    '\n' ∉ cs ∨ ∃ before after, cs = before ++ '\n' :: after ∧ '\n' ∉ after := by
  induction cs with
  | nil => exact .inl (by simp)
  | cons c cs ih =>
    rcases ih with h | ⟨before, after, rfl, h⟩
    · by_cases hc : c = '\n'
      · exact .inr ⟨[], cs, by rw [hc]; rfl, h⟩
      · exact .inl (by simpa [h] using fun hc' : '\n' = c => hc hc'.symm)
    · exact .inr ⟨c :: before, after, rfl, h⟩

/-- The line of a place holds the piece that follows, behind as much as the column tells. -/
theorem IsPlace.exists_line {cs piece rest : List Char} {offset : Nat} {p : Position}
    (h : IsPlace cs offset p) (hcs : cs = cs.take offset ++ (piece ++ rest))
    (hline : '\n' ∉ piece) :
    ∃ before l, (cs.splitOn '\n')[p.line - 1]? = some ((before ++ piece) ++ l) ∧
      p.column = before.length + 1 + (offset - (cs.take offset).length) := by
  have hle : (cs.take offset).length ≤ offset := List.length_take_le _ _
  rcases exists_last_newline (cs.take offset) with hfirst | ⟨before, after, htake, hafter⟩
  · have hhead : '\n' ∉ cs.take offset ++ piece := by simp [hfirst, hline]
    obtain ⟨l, ls, hl⟩ := exists_splitOn_append hhead rest
    rw [List.append_assoc, ← hcs] at hl
    refine ⟨cs.take offset, l, ?_, ?_⟩
    · rw [hl, h.line, List.count_eq_zero_of_not_mem hfirst]
      rfl
    · rw [h.columnOnFirst hfirst]
      omega
  · have hhead : '\n' ∉ after ++ piece := by simp [hafter, hline]
    obtain ⟨l, ls, hl⟩ := exists_splitOn_append hhead rest
    have hlines : cs.splitOn '\n' = before.splitOn '\n' ++ ((after ++ piece) ++ l) :: ls := by
      rw [← hl, hcs, htake, List.append_assoc, List.cons_append, List.splitOn_append_cons_self,
        List.append_assoc]
    refine ⟨after, l, ?_, ?_⟩
    · -- the lines in front of it are those of the text up to the newline
      rw [hlines, h.line, htake, List.count_append, List.count_cons_self,
        List.count_eq_zero_of_not_mem hafter, List.getElem?_append_right
          (by rw [length_splitOn_newline]; omega), length_splitOn_newline]
      simp
    · rw [h.column before after htake hafter]
      rw [htake, List.length_append, List.length_cons] at hle ⊢
      omega

/-- A piece without a newline stands on the line of its place, from its column on. -/
theorem standsAt_of_isPlace {cs piece : List Char} {offset : Nat} {p : Position}
    (h : IsPlace cs offset p) (hpiece : piece <+: cs.drop offset) (hline : '\n' ∉ piece) :
    StandsAt cs p piece := by
  refine ⟨⟨offset, h, hpiece⟩, ?_⟩
  obtain ⟨rest, hrest⟩ := hpiece
  obtain ⟨before, l, hl, hcolumn⟩ := h.exists_line (by rw [hrest, List.take_append_drop]) hline
  refine ⟨_, hl, ?_⟩
  rcases piece with - | ⟨c, piece⟩
  · exact List.nil_prefix
  · -- a piece that is not empty stands before the end of the text
    have hwithin : p.column - 1 = before.length := by
      have hlen := congrArg List.length hrest
      simp only [List.length_append, List.length_cons, List.length_drop] at hlen
      rw [hcolumn, List.length_take]
      omega
    rw [hwithin, List.append_assoc, List.drop_left]
    exact ⟨l, rfl⟩

end HexDoc
