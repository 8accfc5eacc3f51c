/-
HexDoc/Proofs/Token/Turns.lean

Reading tokens makes progress.  Whatever a text begins with, an ignored piece of it is not empty
(`IgnoredKind.bounds_of_firstLength?`), and neither is a token.  So every turn that goes on passes
something of the text, and there are no more turns than characters.

Main statements: passing what is ignored ends (`Cursor.skip_ends`), and so does reading every token
(`Cursor.tokens_ends`), after one reading more than there are characters at most.
-/
import HexDoc.Proofs.Token.Lossless
import HexDoc.Token.Turns

namespace HexDoc

/-! ### Ignored pieces -/

namespace IgnoredKind

variable {cs : List Char} {n : Nat}

/-- The kinds that are tried come to what is ignored in one go. -/
theorem firstLength?_eq (cs : List Char) :
    firstLength? cs = if ignoredLength cs = 0 then none else some (ignoredLength cs) := by
  fun_cases ignoredLength cs with
  | case1 cs =>
    rcases hn : closingLength? cs with - | n <;> simp [firstLength?, length?, isBlank, hn]
  | case2 cs hopen =>
    rcases cs with - | ⟨c, cs⟩
    · simp [firstLength?, length?, isBlank]
    · have hc : c ≠ '=' := fun h => hopen cs (by rw [h])
      simp [firstLength?, length?, isBlank, hc]
  | case3 cs hblock hline =>
    rcases cs with - | ⟨c, cs⟩
    · rfl
    · have hc : c ≠ '#' := fun h => hline cs (by rw [h])
      rcases hb : isBlank c with - | - <;>
        simp [firstLength?, length?, runLength, hb, hc]

/-- A piece that is there is not empty. -/
theorem bounds_of_firstLength? (h : firstLength? cs = some n) :
    0 < n ∧ n ≤ cs.length ∧ ignoredLength cs = n := by
  rw [firstLength?_eq] at h
  split at h
  · cases h
  · rename_i hne
    cases h
    obtain ⟨piece, rest, hsplit, hlength, -⟩ := ignoredPiece_of_ignoredLength hne
    have hle : piece.length ≤ cs.length := by
      rw [hsplit, List.length_append]
      exact Nat.le_add_right _ _
    exact ⟨Nat.pos_of_ne_zero hne, hlength ▸ hle, rfl⟩

end IgnoredKind

namespace Cursor

variable {c d : Cursor} {t : Token} {ts : List Token}

theorem Passes.length_rest_lt (h : c.Passes d) : d.rest.length < c.rest.length := by
  obtain ⟨n, hpos, hle, rfl⟩ := h
  rw [rest_advance, List.length_drop]
  omega

/-! ### Passing what is ignored -/

theorem ignoredLength_of_skipTurn (h : skipTurn c = .again d) :
    ∃ n, 0 < n ∧ n ≤ c.rest.length ∧ ignoredLength c.rest = n ∧ d = c.advance n := by
  unfold skipTurn at h
  split at h
  · cases h
  · split at h
    · rename_i n hn
      cases h
      obtain ⟨hpos, hle, hlength⟩ := IgnoredKind.bounds_of_firstLength? hn
      exact ⟨n, hpos, hle, hlength, rfl⟩
    · cases h

/-- A turn that goes on passes something. -/
theorem passes_of_skipTurn (h : skipTurn c = .again d) : c.Passes d := by
  obtain ⟨n, hpos, hle, -, hd⟩ := ignoredLength_of_skipTurn h
  exact ⟨n, hpos, hle, hd⟩

theorem comesTo_skip : skipTurn.ComesTo skip where
  again {c d} h := by
    obtain ⟨n, hpos, -, hlength, rfl⟩ := ignoredLength_of_skipTurn h
    obtain ⟨m, rfl⟩ := Nat.exists_eq_succ_of_ne_zero (Nat.ne_of_gt hpos)
    rw [skip, skip, skipIgnored_of_pos hlength]
  ends {c x} h := by
    unfold skipTurn at h
    split at h
    · rename_i hnil
      cases h
      rw [skip, skipIgnored_of_zero (by rw [hnil, ignoredLength_nil]), refuseOpenComment, hnil]
      rfl
    · split at h
      · cases h
      · rename_i hnone
        cases h
        have hzero : ignoredLength c.rest = 0 := by
          rw [IgnoredKind.firstLength?_eq] at hnone
          split at hnone
          · assumption
          · cases hnone
        rw [skip, skipIgnored_of_zero hzero]

/-- Passing what is ignored ends, after no more turns than characters. -/
theorem skip_ends (c : Cursor) : ∃ k ≤ c.rest.length, skipTurn.Ends c k c.skip :=
  Loop.exists_ends comesTo_skip (fun d => d.rest.length)
    (fun h => (passes_of_skipTurn h).length_rest_lt) c

/-! ### Reading tokens -/

/-- A token other than the end token is read by passing something. -/
theorem passes_of_next (h : c.next = (.ok t, d)) (ht : t.kind ≠ .endOfText) : c.Passes d := by
  obtain ⟨g, rest, hrest, -, hl, -, -, rfl⟩ := exists_of_next h ht
  obtain ⟨ch, cs, hch, -⟩ := hl.exists_head
  have hpos : 0 < t.text.toList.length := by
    rw [show t.text.toList = ch :: cs from hch]
    exact Nat.succ_pos _
  refine ⟨g.length + t.text.toList.length, Nat.add_pos_right _ hpos, ?_, ?_⟩
  · rw [hrest, List.length_append, List.length_append]
    omega
  · exact advance_advance c (by rw [hrest, List.length_append]; omega) _

/-- A turn that goes on reads one token. -/
theorem passes_of_tokenTurn {us : List Token} (h : tokenTurn (ts, c) = .again (us, d)) :
    (∃ t, us = ts ++ [t]) ∧ c.Passes d := by
  unfold tokenTurn at h
  simp only at h
  split at h
  · cases h
  · rename_i t d' hnext
    split at h
    · cases h
    · rename_i ht
      cases h
      exact ⟨⟨t, rfl⟩, passes_of_next hnext ht⟩

theorem comesTo_tokens :
    tokenTurn.ComesTo fun (ts, c) => (c.tokens.1.map (ts ++ ·), c.tokens.2) where
  again {s s'} h := by
    obtain ⟨ts, c⟩ := s
    simp only [tokenTurn] at h
    split at h
    · cases h
    · rename_i t d hnext
      split at h
      · cases h
      · rename_i ht
        cases h
        simp only [tokens, scan_of_token hnext ht]
        rcases d.scan with ⟨us, - | e, stop⟩
        · simp [Except.map]
        · rfl
  ends {s r} h := by
    obtain ⟨ts, c⟩ := s
    simp only [tokenTurn] at h
    split at h
    · rename_i e d hnext
      cases h
      simp only [tokens, scan_of_error hnext]
      rfl
    · rename_i t d hnext
      split at h
      · rename_i ht
        cases h
        simp only [tokens, scan_of_end hnext ht]
        rfl
      · cases h

/-- Reading every token ends, after no more turns than characters. -/
theorem tokens_ends (c : Cursor) : ∃ k ≤ c.rest.length, tokenTurn.Ends ([], c) k c.tokens := by
  obtain ⟨k, hk, hends⟩ := Loop.exists_ends comesTo_tokens (fun s => s.2.rest.length)
    (fun h => (passes_of_tokenTurn h).2.length_rest_lt) ([], c)
  have hresult : (c.tokens.1.map ([] ++ ·), c.tokens.2) = c.tokens := by
    rcases c.tokens with ⟨e | ts, d⟩ <;> rfl
  exact ⟨k, hk, hresult ▸ hends⟩

/-- There are no more tokens than characters, but for the end token. -/
theorem length_tokens_scan_le (c : Cursor) : c.scan.tokens.length ≤ c.rest.length + 1 := by
  fun_induction scan c with
  | case1 c e d h => exact Nat.zero_le _
  | case2 c t d h ht => exact Nat.le_add_left 1 _
  | case3 c t d h ht r ih =>
    have hlt := (passes_of_next h ht).length_rest_lt
    show d.scan.tokens.length + 1 ≤ c.rest.length + 1
    omega

end Cursor

end HexDoc
