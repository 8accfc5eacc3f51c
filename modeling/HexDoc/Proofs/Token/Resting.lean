/-
HexDoc/Proofs/Token/Resting.lean

Tokens read off a cursor again and again.  Reading moves on only over what it passes, so a
cursor that has met a fault or the end of its text rests there: whoever reads on gets the same
answer from the same place (`Cursor.fetch_of_error`, `Cursor.fetch_of_end`).
-/
import HexDoc.Parser.Requests
import HexDoc.Proofs.Token.Spacing

namespace HexDoc

namespace Cursor

variable {c d : Cursor} {t : Token} {e : LexError} {x : Except LexError Token} {k : Nat}

/-! ### Where reading rests -/

/-- Passing what is ignored ahead of time changes nothing. -/
theorem next_skipIgnored (c : Cursor) : c.skipIgnored.next = c.next := by
  unfold next skip
  rw [skipIgnored_of_zero c.ignoredLength_skipIgnored]

/-- Where no token is read, only what is ignored has been passed. -/
theorem eq_skipIgnored_of_error (h : c.next = (.error e, d)) : d = c.skipIgnored := by
  unfold next skip refuseOpenComment at h
  by_cases hopen : opensBlockComment c.skipIgnored.rest = true
  · rw [if_pos hopen] at h
    cases h
    rfl
  · rw [if_neg hopen] at h
    simp only [tokenHere] at h
    split at h
    · cases h
    · split at h <;> cases h
      rfl

/-- Where the end token is read, only what is ignored has been passed. -/
theorem eq_skipIgnored_of_end (h : c.next = (.ok t, d)) (ht : t.kind = .endOfText) :
    d = c.skipIgnored := by
  obtain ⟨-, htoken⟩ := next_eq_ok_iff.mp h
  unfold tokenHere at htoken
  split at htoken
  · cases htoken
    rfl
  · split at htoken
    · rename_i hk
      cases htoken
      exact absurd ht (lexeme?_kind_ne hk)
    · cases htoken

/-- A fault is met again where it has been met. -/
theorem next_of_error (h : c.next = (.error e, d)) : d.next = (.error e, d) := by
  rw [← h, eq_skipIgnored_of_error h, next_skipIgnored]

/-- The end of a text stays its end. -/
theorem next_of_end (h : c.next = (.ok t, d)) (ht : t.kind = .endOfText) :
    d.next = (.ok t, d) := by
  rw [← h, eq_skipIgnored_of_end h ht, next_skipIgnored]

/-! ### Reading again and again -/

theorem fetch_succ_of_eq (h : c.fetch k = (x, d)) : c.fetch (k + 1) = d.next := by
  rw [fetch, h]

/-- Every reading is a reading off some cursor. -/
theorem exists_next_eq_fetch (c : Cursor) (k : Nat) : ∃ d : Cursor, c.fetch k = d.next := by
  cases k with
  | zero => exact ⟨c, rfl⟩
  | succ k => exact ⟨(c.fetch k).2, rfl⟩

/-- After a fault every reading meets it again. -/
theorem fetch_of_error (h : c.fetch k = (.error e, d)) (n : Nat) :
    c.fetch (k + n) = (.error e, d) := by
  induction n with
  | zero => exact h
  | succ n ih =>
    obtain ⟨b, hb⟩ := c.exists_next_eq_fetch (k + n)
    rw [← Nat.add_assoc, fetch_succ_of_eq ih]
    exact next_of_error (hb.symm.trans ih)

/-- After the end token every reading gives it again. -/
theorem fetch_of_end (h : c.fetch k = (.ok t, d)) (ht : t.kind = .endOfText) (n : Nat) :
    c.fetch (k + n) = (.ok t, d) := by
  induction n with
  | zero => exact h
  | succ n ih =>
    obtain ⟨b, hb⟩ := c.exists_next_eq_fetch (k + n)
    rw [← Nat.add_assoc, fetch_succ_of_eq ih]
    exact next_of_end (hb.symm.trans ih) ht

/-- Whatever is read is a token of the language, or the end of the text. -/
theorem isLexeme_of_fetch (h : (c.fetch k).1 = .ok t) (ht : t.kind ≠ .endOfText) :
    IsLexeme t.lexeme := by
  obtain ⟨b, hb⟩ := c.exists_next_eq_fetch k
  rw [hb] at h
  exact isLexeme_of_tokenHere (next_eq_ok_iff.mp (Prod.ext h rfl)).2 ht

theorem answers_succ (c : Cursor) (n : Nat) :
    c.answers (n + 1) = c.answers n ++ [(c.fetch n).1] := by
  rw [answers, List.range_succ, List.map_append]
  rfl

/-! ### Reading never goes back -/

theorem offset_skipIgnored_le (c : Cursor) : c.offset ≤ c.skipIgnored.offset := by
  fun_induction skipIgnored c with
  | case1 c h => exact Nat.le_refl _
  | case2 c h ih => exact Nat.le_trans (by simp) ih

theorem offset_tokenHere_le (c : Cursor) : c.offset ≤ c.tokenHere.2.offset := by
  unfold tokenHere
  split
  · exact Nat.le_refl _
  · split <;> simp

theorem offset_next_le (c : Cursor) : c.offset ≤ c.next.2.offset := by
  refine Nat.le_trans c.offset_skipIgnored_le ?_
  unfold next skip refuseOpenComment
  by_cases hopen : opensBlockComment c.skipIgnored.rest = true
  · simp [hopen]
  · simpa [hopen] using c.skipIgnored.offset_tokenHere_le

end Cursor

end HexDoc
