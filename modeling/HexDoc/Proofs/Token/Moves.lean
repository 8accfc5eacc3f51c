/-
HexDoc/Proofs/Token/Moves.lean

A cursor never loses its place.  `Cursor.IsIn` ties it to its text: what is ahead of it is the
text from its offset on, and its place is what walking over the text up to there comes to.  A move
over any number of characters keeps this (`Cursor.IsIn.advance`), and every other move is made of
such moves, those that end in a fault included.

Main statement: after any moves a cursor stands at the place of its offset, and whatever is read
or found at fault next stands where it is said to stand (`moves_places`).
-/
import HexDoc.Proofs.Text.Place
import HexDoc.Proofs.Token.Lossless
import HexDoc.Token.Moves

namespace HexDoc

/-! ### Pieces without a newline -/

/-- No token holds a blank. -/
theorem IsLexeme.notMem_of_isBlank {l : Lexeme} (hl : IsLexeme l) {b : Char}
    (hb : isBlank b = true) : b ∉ l.2.toList := by
  obtain ⟨hname, hhex⟩ := apart_of_isBlank hb
  obtain ⟨k, s⟩ := l
  cases k with
  | endOfText => cases hl
  | name => exact notMem_name hl hname
  | number =>
    obtain ⟨x, ds, hs, hx, hds⟩ := hl
    have hdigits : b ∉ ds := by
      intro hmem
      rw [List.all_eq_true.mp hds b hmem] at hhex
      cases hhex
    have hzero : b ≠ '0' := by
      rintro rfl
      cases hb
    have hmark : b ≠ x := by
      rintro rfl
      rcases hx with rfl | rfl <;> cases hb
    rw [hs]
    simp [hzero, hmark, hdigits]
  | _ =>
    obtain ⟨c, hs, hc⟩ := hl
    rw [hs, List.mem_singleton]
    rintro rfl
    rw [(Kind.apart_of_ofMark? hc).2.2.1] at hb
    cases hb

/-- No token holds a newline. -/
theorem IsLexeme.notMem_newline {l : Lexeme} (hl : IsLexeme l) : '\n' ∉ l.2.toList :=
  hl.notMem_of_isBlank rfl

namespace Cursor

/-- A cursor in a text: the text from its offset on is ahead, and its place is where one gets by
walking that far. -/
structure IsIn (cs : List Char) (c : Cursor) : Prop where
  rest : c.rest = cs.drop c.offset
  position : c.position =
    (Position.start.past (cs.take c.offset)).right (c.offset - cs.length)

/-- A fresh cursor is in its text. -/
theorem isIn_ofChars (cs : List Char) : (ofChars cs).IsIn cs :=
  ⟨rfl, by simp [ofChars, Position.right, Position.start]⟩

namespace IsIn

variable {cs : List Char} {c d : Cursor} {t : Token} {e : LexError}

/-- Past the end of the text the missing characters widen the column, and so they do in one go. -/
theorem advance (h : c.IsIn cs) (n : Nat) : (c.advance n).IsIn cs := by
  refine ⟨by rw [rest_advance, offset_advance, h.rest, List.drop_drop], ?_⟩
  have htake : cs.take (c.offset + n) = cs.take c.offset ++ (cs.drop c.offset).take n :=
    List.take_add
  simp only [Cursor.advance, h.rest, h.position, htake, Position.past_append]
  by_cases hin : c.offset ≤ cs.length
  · have hcolumn : n - ((cs.drop c.offset).take n).length = c.offset + n - cs.length := by
      rw [List.length_take, List.length_drop]
      omega
    rw [hcolumn, Nat.sub_eq_zero_of_le hin]
    rfl
  · have hend : cs.drop c.offset = [] := List.drop_eq_nil_of_le (by omega)
    simp only [hend, List.take_nil, Position.past_nil, Position.right, List.length_nil,
      Nat.add_assoc]
    congr 2
    omega

theorem skipIgnored (h : c.IsIn cs) : c.skipIgnored.IsIn cs := by
  obtain ⟨g, -, hskip, -⟩ := c.exists_of_skipIgnored
  rw [hskip]
  exact h.advance g.length

/-- What is ahead of a cursor stands at its place. -/
theorem standsAt (h : c.IsIn cs) {piece : List Char} (hpiece : piece <+: c.rest)
    (hline : '\n' ∉ piece) : StandsAt cs c.position piece := by
  have hplace := isPlace_past cs c.offset
  rw [← h.position] at hplace
  exact standsAt_of_isPlace hplace (h.rest ▸ hpiece) hline

/-! ### One request -/

theorem tokenHere (h : c.IsIn cs) (hc : c.tokenHere = (.ok t, d)) :
    d.IsIn cs ∧ StandsAt cs t.position t.text.toList := by
  by_cases ht : t.kind = .endOfText
  · have hrest := rest_eq_nil_of_tokenHere hc ht
    rw [Cursor.tokenHere, hrest] at hc
    cases hc
    exact ⟨h, h.standsAt List.nil_prefix (by simp)⟩
  · obtain ⟨rest, hrest, hl, -, hposition, rfl⟩ := exists_of_tokenHere hc ht
    rw [hposition]
    exact ⟨h.advance _, h.standsAt ⟨rest, hrest.symm⟩ hl.notMem_newline⟩

theorem next_ok (h : c.IsIn cs) (hc : c.next = (.ok t, d)) :
    d.IsIn cs ∧ StandsAt cs t.position t.text.toList :=
  h.skipIgnored.tokenHere (next_eq_ok_iff.mp hc).2

theorem next_error (h : c.IsIn cs) (hc : c.next = (.error e, d)) :
    d.IsIn cs ∧ StandsAt cs e.position e.fault.offender := by
  obtain ⟨g, rest, hrest, -, hposition, hd, hfault⟩ := exists_of_next_error hc
  have hbehind := rest_advance_append hrest
  rw [hd, hposition]
  refine ⟨h.advance _, (h.advance _).standsAt ?_ ?_⟩
  · rw [hbehind]
    rcases hfault with ⟨hf, cs', rfl, -⟩ | ⟨ch, cs', hf, rfl, -⟩
    · rw [hf]
      exact ⟨cs', rfl⟩
    · rw [hf]
      exact ⟨cs', rfl⟩
  · rcases hfault with ⟨hf, -⟩ | ⟨ch, cs', hf, rfl, hstart⟩
    · rw [hf]
      decide
    · rw [hf, LexFault.offender, List.mem_singleton]
      rintro rfl
      have hblank := (startsNothing_cons_iff.mp hstart).2.1
      cases hblank

theorem scan (h : c.IsIn cs) :
    c.scan.stop.IsIn cs ∧ (∀ t ∈ c.scan.tokens, StandsAt cs t.position t.text.toList) ∧
      ∀ e ∈ c.scan.fault?, StandsAt cs e.position e.fault.offender := by
  fun_induction Cursor.scan c with
  | case1 c e d hc =>
    obtain ⟨hd, he⟩ := h.next_error hc
    exact ⟨hd, by simp, by simpa using he⟩
  | case2 c t d hc ht =>
    obtain ⟨hd, ht'⟩ := h.next_ok hc
    exact ⟨hd, by simpa using ht', by simp⟩
  | case3 c t d hc ht r ih =>
    obtain ⟨hd, ht'⟩ := h.next_ok hc
    obtain ⟨hstop, htok, hfault⟩ := ih hd
    exact ⟨hstop, List.forall_mem_cons.mpr ⟨ht', htok⟩, hfault⟩

/-- Whatever is asked for, the cursor stays in the text, and what is read or found at fault stands
at its place. -/
theorem move (h : c.IsIn cs) (m : Move) :
    (c.move m).stop.IsIn cs ∧
      (∀ t ∈ (c.move m).tokens, StandsAt cs t.position t.text.toList) ∧
      ∀ e ∈ (c.move m).fault?, StandsAt cs e.position e.fault.offender := by
  cases m with
  | next =>
    rcases hc : c.next with ⟨e | t, d⟩
    · obtain ⟨hd, he⟩ := h.next_error hc
      simpa [Cursor.move, hc] using ⟨hd, he⟩
    · obtain ⟨hd, ht⟩ := h.next_ok hc
      simpa [Cursor.move, hc] using ⟨hd, ht⟩
  | skip =>
    rcases hc : c.skip with ⟨e | u, d⟩
    · obtain ⟨hd, he⟩ := h.next_error (next_of_skip_error hc)
      simpa [Cursor.move, hc] using ⟨hd, he⟩
    · have hd : d = c.skipIgnored := by
        unfold Cursor.skip refuseOpenComment at hc
        split at hc
        · cases hc
        · exact (congrArg Prod.snd hc).symm
      simpa [Cursor.move, hc, hd] using h.skipIgnored
  | advance n => simpa [Cursor.move] using h.advance n
  | readOn => exact h.scan

/-- Moves one after the other keep a cursor in its text. -/
theorem moves (h : c.IsIn cs) (ms : List Move) : (c.moves ms).IsIn cs := by
  induction ms generalizing c with
  | nil => exact h
  | cons m ms ih => exact ih (h.move m).1

end IsIn

end Cursor

/-- After any moves, faults or not, a cursor has the text from its offset on ahead and stands at
the place of that offset; every token that a further move reads stands at its place, and so does
what a fault is about. -/
theorem moves_places (text : String) (ms : List Cursor.Move) :
    let c := (Cursor.ofText text).moves ms
    c.rest = text.toList.drop c.offset ∧ IsPlace text.toList c.offset c.position ∧
      ∀ m, (∀ t ∈ (c.move m).tokens, StandsAt text.toList t.position t.text.toList) ∧
        ∀ e ∈ (c.move m).fault?, StandsAt text.toList e.position e.fault.offender := by
  intro c
  have hc : c.IsIn text.toList := (Cursor.isIn_ofChars text.toList).moves ms
  have hplace := isPlace_past text.toList c.offset
  rw [← hc.position] at hplace
  exact ⟨hc.rest, hplace, fun m => (hc.move m).2⟩

end HexDoc
