/-
HexDoc/Proofs/Token/Lexeme.lean

Which tokens a text begins with.  A name or a number is read as far as it goes:
`Kind.goesOn` tells which characters belong to a token of a kind that has begun, and a token
ends only where none of them follows.

Main statements: a token of the language that ends where it does is read off a text
(`lexeme?_of_isLexeme`) and nothing else is (`exists_of_lexeme?`), reading it passes exactly its
characters (`Cursor.tokenHere_of_isLexeme`), and every token that a text is cut into, the end
token apart, is a token of the language (`Cursor.isLexeme_of_mem_scan`).
-/
import HexDoc.Proofs.Text.Span
import HexDoc.Token.Layout
import HexDoc.Token.Scan

namespace HexDoc

/-! ### Character classes -/

/-- A punctuation mark is nothing else. -/
theorem Kind.apart_of_ofMark? {c : Char} {k : Kind} (h : ofMark? c = some k) :
    isNameChar c = false ∧ isHexDigit c = false ∧ isBlank c = false ∧ c ≠ '#' := by
  unfold ofMark? at h
  split at h <;> cases h <;> decide

/-- A character that starts a name is no mark, no blank and no comment sign. -/
theorem apart_of_isNameStart {c : Char} (h : isNameStart c = true) :
    Kind.ofMark? c = none ∧ isBlank c = false ∧ c ≠ '#' := by
  have hne (d : Char) (hd : isNameStart d = false) : c ≠ d := by
    rintro rfl
    rw [h] at hd
    cases hd
  refine ⟨?_, ?_, hne _ (by decide)⟩
  · rcases hc : Kind.ofMark? c with - | k
    · rfl
    · have hchar := (Kind.apart_of_ofMark? hc).1
      rw [isNameChar_of_isNameStart h] at hchar
      cases hchar
  · simp only [isBlank, decide_eq_false (hne ' ' (by decide)),
      decide_eq_false (hne '\t' (by decide)), decide_eq_false (hne '\r' (by decide)),
      decide_eq_false (hne '\n' (by decide)), Bool.or_self]

/-- A blank belongs to no token. -/
theorem apart_of_isBlank {c : Char} (h : isBlank c = true) :
    isNameChar c = false ∧ isHexDigit c = false := by
  simp only [isBlank, Bool.or_eq_true, decide_eq_true_eq] at h
  rcases h with ((rfl | rfl) | rfl) | rfl <;> decide

/-! ### Runs of characters of a class -/

/-- A run ends where a character of another class follows. -/
theorem runLength_append {p : Char → Bool} {cs ds : List Char} (hcs : cs.all p = true)
    (hds : ∀ d ∈ ds.head?, p d = false) : runLength p (cs ++ ds) = cs.length := by
  rw [runLength, takeWhile_append_stop (List.all_eq_true.mp hcs) hds]

/-- No character of a class follows a run. -/
theorem head?_dropWhile {p : Char → Bool} {cs : List Char} :
    ∀ d ∈ (cs.dropWhile p).head?, p d = false := by
  intro d hd
  have h := List.head?_dropWhile_not p cs
  rw [Option.mem_def.mp hd] at h
  exact h

/-! ### Where tokens end -/

/-- Whether a token of a kind that has begun goes on with a character. -/
def Kind.goesOn : Kind → Char → Bool
  | .name, c => isNameChar c
  | .number, c => isHexDigit c
  | _, _ => false

/-- Whether a token of a kind ends before the text that follows. -/
def Kind.EndsBefore (k : Kind) (rest : List Char) : Prop :=
  ∀ c ∈ rest.head?, k.goesOn c = false

/-- Marks end after one character. -/
theorem Kind.endsBefore_of_ofMark? {c : Char} {k : Kind} (h : ofMark? c = some k)
    (rest : List Char) : k.EndsBefore rest := by
  intro d _
  unfold ofMark? at h
  split at h <;> cases h <;> rfl

/-- The end token is no piece of text. -/
theorem IsLexeme.kind_ne {l : Lexeme} (hl : IsLexeme l) : l.1 ≠ .endOfText := by
  obtain ⟨k, s⟩ := l
  rintro rfl
  cases hl

/-! ### The token that a text begins with -/

/-- A token of the language that ends where it does is the one that the text begins with. -/
theorem lexeme?_of_isLexeme {l : Lexeme} (hl : IsLexeme l) {rest : List Char}
    (hrest : l.1.EndsBefore rest) :
    lexeme? (l.2.toList ++ rest) = some (l.1, l.2.toList.length) := by
  obtain ⟨k, s⟩ := l
  cases k with
  | endOfText => cases hl
  | name =>
    obtain ⟨c, cs, hs, hc, hcs⟩ := hl
    show lexeme? (s.toList ++ rest) = some (.name, s.toList.length)
    rw [hs]
    simp only [List.cons_append, lexeme?, (apart_of_isNameStart hc).1, hc, if_true,
      runLength_append hcs hrest, List.length_cons]
  | number =>
    obtain ⟨x, ds, hs, hx, hds⟩ := hl
    have hmark : Kind.ofMark? '0' = none := rfl
    have hstart : isNameStart '0' = false := by decide
    show lexeme? (s.toList ++ rest) = some (.number, s.toList.length)
    rw [hs]
    rcases hx with rfl | rfl <;>
      simp only [List.cons_append, lexeme?, hmark, hstart, Bool.false_eq_true, if_false,
        runLength_append hds hrest, List.length_cons]
  | _ =>
    obtain ⟨c, hs, hc⟩ := hl
    simp only [hs, List.singleton_append, lexeme?, hc, List.length_singleton]

/-- A mark is a token. -/
theorem isLexeme_of_ofMark? {c : Char} {k : Kind} (h : Kind.ofMark? c = some k) :
    IsLexeme (k, String.ofList [c]) := by
  unfold Kind.ofMark? at h
  split at h <;> cases h <;> exact ⟨_, String.toList_ofList, rfl⟩

/-- What a run of characters of a class splits off a text behind a beginning. -/
theorem exists_split_of_run (p : Char → Bool) (first cs : List Char) :
    first ++ cs = (first ++ cs.takeWhile p) ++ cs.dropWhile p ∧
      (first ++ cs.takeWhile p).length = runLength p cs + first.length := by
  constructor
  · rw [List.append_assoc, List.takeWhile_append_dropWhile]
  · rw [List.length_append, runLength, Nat.add_comm]

/-- The token that a text begins with is a token of the language and ends where it does. -/
theorem exists_of_lexeme? {cs : List Char} {k : Kind} {n : Nat} (h : lexeme? cs = some (k, n)) :
    ∃ l rest, cs = l ++ rest ∧ l.length = n ∧ IsLexeme (k, String.ofList l) ∧
      k.EndsBefore rest := by
  have hnumber (x : Char) (hx : x = 'x' ∨ x = 'X') (ds : List Char) :
      ∃ l rest, '0' :: x :: ds = l ++ rest ∧ l.length = runLength isHexDigit ds + 2 ∧
        IsLexeme (.number, String.ofList l) ∧ Kind.number.EndsBefore rest := by
    obtain ⟨hsplit, hlen⟩ := exists_split_of_run isHexDigit ['0', x] ds
    exact ⟨_, _, hsplit, hlen, ⟨x, _, String.toList_ofList, hx, List.all_takeWhile⟩,
      head?_dropWhile⟩
  unfold lexeme? at h
  split at h
  · cases h
  · rename_i c cs
    split at h
    · rename_i k' hk
      cases h
      exact ⟨[c], cs, rfl, rfl, isLexeme_of_ofMark? hk, Kind.endsBefore_of_ofMark? hk cs⟩
    · split at h
      · rename_i hc
        cases h
        obtain ⟨hsplit, hlen⟩ := exists_split_of_run isNameChar [c] cs
        exact ⟨_, _, hsplit, hlen, ⟨c, _, String.toList_ofList, hc, List.all_takeWhile⟩,
          head?_dropWhile⟩
      · -- a number, with its prefix in either case
        split at h
        · rename_i ds _ _
          cases h
          exact hnumber 'x' (.inl rfl) ds
        · rename_i ds _ _
          cases h
          exact hnumber 'X' (.inr rfl) ds
        · cases h

namespace Cursor

variable {c d : Cursor}

/-- A token that ends where it does is read as it stands. -/
theorem tokenHere_of_isLexeme {l : Lexeme} {rest : List Char} (h : c.rest = l.2.toList ++ rest)
    (hl : IsLexeme l) (hrest : l.1.EndsBefore rest) :
    c.tokenHere = (.ok ⟨l.1, l.2, c.position⟩, c.advance l.2.toList.length) := by
  have hlex : lexeme? c.rest = some (l.1, l.2.toList.length) := by
    rw [h]
    exact lexeme?_of_isLexeme hl hrest
  unfold tokenHere
  split
  · rename_i hnil
    rw [hnil] at hlex
    cases hlex
  · rename_i ch cs hcs
    rw [hcs] at hlex h
    have htake : (ch :: cs).take l.2.toList.length = l.2.toList := by
      rw [h, List.take_left]
    simp only [hlex, htake, String.ofList_toList]

/-- A token that is read, the end token apart, is a token of the language. -/
theorem isLexeme_of_tokenHere {t : Token} (h : c.tokenHere = (.ok t, d))
    (ht : t.kind ≠ .endOfText) : IsLexeme t.lexeme := by
  unfold tokenHere at h
  split at h
  · cases h
    exact absurd rfl ht
  · split at h
    · rename_i k n hk
      obtain ⟨l, rest, hcs, rfl, hl, -⟩ := exists_of_lexeme? hk
      rw [hcs, List.take_left] at h
      cases h
      exact hl
    · cases h

/-- Where a token is read, no comment is left open before it. -/
theorem next_eq_ok_iff {t : Token} :
    c.next = (.ok t, d) ↔
      opensBlockComment c.skipIgnored.rest = false ∧ c.skipIgnored.tokenHere = (.ok t, d) := by
  unfold next skip refuseOpenComment
  by_cases h : opensBlockComment c.skipIgnored.rest = true <;> simp [h]

/-- A skip fails where the next token could not be read, with the same fault. -/
theorem next_of_skip_error {e : LexError} (h : c.skip = (.error e, d)) :
    c.next = (.error e, d) := by
  rw [next, h]

/-- A token that is read at the end of the text has no characters. -/
theorem lexeme_of_tokenHere_end {t : Token} (h : c.tokenHere = (.ok t, d))
    (ht : t.kind = .endOfText) : t.lexeme = .endOfText := by
  unfold tokenHere at h
  split at h
  · cases h
    rfl
  · split at h
    · rename_i k n hk
      cases h
      exact absurd ht (lexeme?_kind_ne hk)
    · cases h

/-- The tokens that are read are tokens of the language and the end of the text. -/
theorem lexeme_of_mem_scan (c : Cursor) :
    ∀ t ∈ c.scan.tokens, IsLexeme t.lexeme ∨ t.lexeme = .endOfText := by
  fun_induction scan c with
  | case1 c e d h => simp
  | case2 c t d h ht =>
    exact List.forall_mem_singleton.mpr
      (.inr (lexeme_of_tokenHere_end (next_eq_ok_iff.mp h).2 ht))
  | case3 c t d h ht r ih =>
    exact List.forall_mem_cons.mpr
      ⟨.inl (isLexeme_of_tokenHere (next_eq_ok_iff.mp h).2 ht), ih⟩

/-- Every token that is read, the end token apart, is a token of the language. -/
theorem isLexeme_of_mem_scan (c : Cursor) :
    ∀ t ∈ c.scan.tokens, t.kind ≠ .endOfText → IsLexeme t.lexeme := by
  intro t ht hk
  refine (c.lexeme_of_mem_scan t ht).resolve_right fun h => hk ?_
  exact congrArg Prod.fst h

/-- Tokens that are read before another one are tokens of the language. -/
theorem isLexeme_of_scan_before (c : Cursor) :
    ∀ before t rest, c.scan.tokens = before ++ t :: rest → ∀ u ∈ before, IsLexeme u.lexeme := by
  fun_induction scan c with
  | case1 c e d h => simp
  | case2 c u d h hu =>
    rintro (- | ⟨v, before⟩) t rest htok
    · simp
    · simp at htok
  | case3 c u d h hu r ih =>
    rintro (- | ⟨v, before⟩) t rest htok
    · simp
    · obtain ⟨rfl, htail⟩ := List.cons.inj htok
      exact List.forall_mem_cons.mpr
        ⟨isLexeme_of_tokenHere (next_eq_ok_iff.mp h).2 hu, ih before t rest htail⟩

end Cursor

end HexDoc
