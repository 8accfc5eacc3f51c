/-
HexDoc/Proofs/Token/Tiling.lean

What has been passed in a text and what has been read off it make up the text.  A skip passes
whole pieces, so what it passes is a gap (`Cursor.exists_of_skipIgnored`); a token is read behind
a gap and ends where none of its characters follows (`Cursor.exists_of_next`).

Main statement: a text whose tokens can be read to the end is a layout of these tokens
(`Cursor.exists_layout_of_scan`).  Beside `Cursor.scan_of_layout`, which reads layouts, this is
the way back from a text to a layout.
-/
import HexDoc.Proofs.Token.Spacing

namespace HexDoc

/-! ### Ignored pieces -/

/-- What is measured up to the end of a comment is a comment body and two more characters. -/
theorem exists_of_closingLength? {cs : List Char} {n : Nat} (h : closingLength? cs = some n) :
    ∃ body rest, cs = body ++ '=' :: '#' :: rest ∧ IsCommentBody body ∧ n = body.length + 2 := by
  fun_induction closingLength? cs generalizing n with
  | case1 => cases h
  | case2 rest =>
    cases h
    exact ⟨[], rest, rfl, by simp [IsCommentBody], rfl⟩
  | case3 b cs hopen ih =>
    obtain ⟨m, hm, rfl⟩ := Option.map_eq_some_iff.mp h
    obtain ⟨body, rest, rfl, hbody, rfl⟩ := ih hm
    refine ⟨b :: body, rest, rfl, ?_, rfl⟩
    intro hin
    rcases List.infix_cons_iff.mp hin with hpre | hin
    · -- the comment would have ended at its first character
      obtain ⟨rest', heq⟩ := hpre
      cases body with
      | nil => cases heq
      | cons b' body =>
        cases heq
        exact hopen _ rfl rfl
    · exact hbody hin

/-- An ignored piece, as it stands before the rest of a text. -/
inductive IgnoredPiece : List Char → List Char → Prop
  | blockComment {body rest : List Char} :
      IsCommentBody body → IgnoredPiece ('#' :: '=' :: (body ++ ['=', '#'])) rest
  | lineComment {body rest : List Char} :
      '\n' ∉ body → body.head? ≠ some '=' → (∀ d ∈ rest.head?, d = '\n') →
      IgnoredPiece ('#' :: body) rest
  | blanks {bs rest : List Char} : bs.all isBlank = true → IgnoredPiece bs rest

/-- What is ignored at the start of a text is an ignored piece. -/
theorem ignoredPiece_of_ignoredLength {cs : List Char} (h : ignoredLength cs ≠ 0) :
    ∃ piece rest, cs = piece ++ rest ∧ piece.length = ignoredLength cs ∧
      IgnoredPiece piece rest := by
  fun_cases ignoredLength cs with
  | case1 cs =>
    rcases hn : closingLength? cs with - | n
    · simp [ignoredLength, hn] at h
    · obtain ⟨body, rest, rfl, hbody, rfl⟩ := exists_of_closingLength? hn
      exact ⟨'#' :: '=' :: (body ++ ['=', '#']), rest, by simp, by simp, .blockComment hbody⟩
  | case2 cs hopen =>
    obtain ⟨hsplit, hlen⟩ := exists_split_of_run (· ≠ '\n') ['#'] cs
    refine ⟨_, _, hsplit, hlen, .lineComment ?_ ?_ ?_⟩
    · intro hmem
      simpa using List.all_eq_true.mp List.all_takeWhile _ hmem
    · intro hhead
      obtain ⟨body, hbody⟩ := List.head?_eq_some_iff.mp hhead
      refine hopen (body ++ cs.dropWhile (· ≠ '\n')) ?_
      rw [← List.cons_append, ← hbody]
      exact (List.takeWhile_append_dropWhile).symm
    · simpa using @head?_dropWhile (· ≠ '\n') cs
  | case3 =>
    obtain ⟨hsplit, hlen⟩ := exists_split_of_run isBlank [] cs
    exact ⟨_, _, hsplit, hlen, .blanks List.all_takeWhile⟩

/-! ### Gaps that are passed -/

/-- Two gaps in a row are a gap. -/
theorem Gap.append {g g' : List Char} (hg : Gap g) (hg' : Gap g') : Gap (g ++ g') := by
  induction hg with
  | empty => exact hg'
  | blank hb _ ih => exact .blank hb ih
  | blockComment hbody _ ih => simpa using Gap.blockComment hbody ih
  | lineComment hbody hopen _ ih => simpa using Gap.lineComment hbody hopen ih

theorem Gap.of_blanks {bs : List Char} (hbs : bs.all isBlank = true) : Gap bs := by
  induction bs with
  | nil => exact .empty
  | cons b bs ih =>
    rw [List.all_cons, Bool.and_eq_true] at hbs
    exact .blank hbs.1 (ih hbs.2)

/-- A gap before what stands behind the last token. -/
theorem Gap.append_last {g g' : List Char} (hg : Gap g) (hg' : LastGap g') :
    LastGap (g ++ g') := by
  cases hg' with
  | gap hg' => exact .gap (hg.append hg')
  | lineComment hg' hbody hopen =>
    rw [← List.append_assoc]
    exact .lineComment (hg.append hg') hbody hopen

/-- With a newline behind it, what stands behind the last token is a gap. -/
theorem LastGap.newline {g : List Char} (h : LastGap g) : Gap (g ++ ['\n']) := by
  have hnewline : Gap ['\n'] := .blank rfl .empty
  cases h with
  | gap hg => exact hg.append hnewline
  | lineComment hg hbody hopen =>
    simpa using hg.append (.lineComment hbody hopen .empty)

/-- Behind the newline that a gap begins with stands a gap. -/
theorem Gap.of_newline {g : List Char} (h : Gap ('\n' :: g)) : Gap g := by
  cases h with
  | blank _ hg => exact hg

theorem LastGap.of_newline {g : List Char} (h : LastGap ('\n' :: g)) : LastGap g := by
  generalize hcs : '\n' :: g = cs at h
  cases h with
  | gap hg =>
    subst hcs
    exact .gap hg.of_newline
  | @lineComment g₁ body hg hbody hopen =>
    cases g₁ with
    | nil => cases hcs
    | cons d g₁ =>
      cases hcs
      exact .lineComment hg.of_newline hbody hopen

namespace Cursor

variable {c d : Cursor} {t : Token}

/-- A skip passes a gap, or else everything that is left. -/
theorem exists_of_skipIgnored (c : Cursor) :
    ∃ g, c.rest = g ++ c.skipIgnored.rest ∧ c.skipIgnored = c.advance g.length ∧ LastGap g ∧
      (c.skipIgnored.rest ≠ [] → Gap g) := by
  fun_induction skipIgnored c with
  | case1 c h => exact ⟨[], rfl, rfl, .gap .empty, fun _ => .empty⟩
  | case2 c h ih =>
    obtain ⟨piece, rest, hsplit, hlen, hpiece⟩ := ignoredPiece_of_ignoredLength h
    obtain ⟨g, hg, hskip, hlast, hgap⟩ := ih
    rw [← hlen] at hg hskip hgap ⊢
    rw [rest_advance_append hsplit] at hg
    have hstop := (c.advance piece.length).ignoredLength_skipIgnored
    refine ⟨piece ++ g, ?_, ?_, ?_⟩
    · rw [hsplit, List.append_assoc, ← hg]
    · rw [hskip, advance_advance c (by simp [hsplit]), List.length_append]
    · generalize (c.advance piece.length).skipIgnored.rest = stop at hg hgap hstop ⊢
      cases hpiece with
      | blockComment hbody =>
        have hcomment := Gap.blockComment hbody .empty
        exact ⟨hcomment.append_last hlast, fun hne => hcomment.append (hgap hne)⟩
      | blanks hbs => exact ⟨(Gap.of_blanks hbs).append_last hlast,
          fun hne => (Gap.of_blanks hbs).append (hgap hne)⟩
      | @lineComment body _ hbody hopen hend =>
        cases g with
        | nil =>
          -- nothing is left: a newline would have been passed
          have hnil : stop = [] := by
            cases stop with
            | nil => rfl
            | cons d stop =>
              cases hend d (by simp [hg])
              simp [ignoredLength_of_ne, runLength, isBlank] at hstop
          rw [List.append_nil]
          exact ⟨.lineComment .empty hbody hopen, fun hne => absurd hnil hne⟩
        | cons d g =>
          cases hend d (by simp [hg])
          have hcomment := Gap.lineComment hbody hopen .empty
          rw [List.append_cons]
          exact ⟨by simpa using hcomment.append_last hlast.of_newline,
            fun hne => by simpa using hcomment.append (hgap hne).of_newline⟩

/-- A token other than the end token begins the text that it is read off, and ends where it
does. -/
theorem exists_of_tokenHere (h : c.tokenHere = (.ok t, d)) (ht : t.kind ≠ .endOfText) :
    ∃ rest, c.rest = t.text.toList ++ rest ∧ IsLexeme t.lexeme ∧ t.kind.EndsBefore rest ∧
      t.position = c.position ∧ d = c.advance t.text.toList.length := by
  unfold tokenHere at h
  split at h
  · cases h
    exact absurd rfl ht
  · rename_i ch cs hcs
    split at h
    · rename_i k n hk
      obtain ⟨l, rest, hsplit, rfl, hl, hrest⟩ := exists_of_lexeme? hk
      rw [hsplit, List.take_left] at h
      cases h
      exact ⟨rest, by simp [hcs, hsplit], hl, hrest, rfl, by simp⟩
    · cases h

/-- The end token is read at the end of the text only. -/
theorem rest_eq_nil_of_tokenHere (h : c.tokenHere = (.ok t, d)) (ht : t.kind = .endOfText) :
    c.rest = [] := by
  unfold tokenHere at h
  split at h
  · assumption
  · split at h
    · rename_i k n hk
      cases h
      exact absurd ht (lexeme?_kind_ne hk)
    · cases h

/-- A token other than the end token is read behind a gap, and it ends where it does. -/
theorem exists_of_next (h : c.next = (.ok t, d)) (ht : t.kind ≠ .endOfText) :
    ∃ g rest, c.rest = g ++ (t.text.toList ++ rest) ∧ Gap g ∧ IsLexeme t.lexeme ∧
      t.kind.EndsBefore rest ∧ t.position = (c.advance g.length).position ∧
      d = (c.advance g.length).advance t.text.toList.length := by
  obtain ⟨-, htoken⟩ := next_eq_ok_iff.mp h
  obtain ⟨g, hg, hskip, -, hgap⟩ := c.exists_of_skipIgnored
  obtain ⟨rest, hrest, hl, hend, hposition, hd⟩ := exists_of_tokenHere htoken ht
  have hne : c.skipIgnored.rest ≠ [] := by
    obtain ⟨ch, cs, hch, -⟩ := hl.exists_head
    rw [hrest, show t.text.toList = ch :: cs from hch]
    exact List.cons_ne_nil _ _
  rw [hskip] at hposition hd
  exact ⟨g, rest, by rw [hg, hrest], hgap hne, hl, hend, hposition, hd⟩

/-- The end token is read behind everything that is left. -/
theorem lastGap_of_next (h : c.next = (.ok t, d)) (ht : t.kind = .endOfText) :
    LastGap c.rest := by
  obtain ⟨-, htoken⟩ := next_eq_ok_iff.mp h
  obtain ⟨g, hg, -, hlast, -⟩ := c.exists_of_skipIgnored
  rwa [hg, rest_eq_nil_of_tokenHere htoken ht, List.append_nil]

end Cursor

/-! ### Texts are layouts of their tokens -/

/-- Tokens that run together do not end where nothing stands between them. -/
theorem not_endsBefore_of_needsGap {l m : Lexeme} (hm : IsLexeme m) (h : needsGap l m = true)
    (cs : List Char) : ¬ l.1.EndsBefore (m.2.toList ++ cs) := by
  obtain ⟨k, s⟩ := l
  obtain ⟨k', s'⟩ := m
  have hhead {c : Char} {ds : List Char} (hs' : s'.toList = c :: ds)
      (hend : k.EndsBefore (s'.toList ++ cs)) : k.goesOn c = false :=
    hend c (by simp [hs'])
  intro hend
  cases k' with
  | name =>
    obtain ⟨c, ds, hs', hc, -⟩ := hm
    have hc' := hhead hs' hend
    cases k with
    | name =>
      rw [Kind.goesOn, isNameChar_of_isNameStart hc] at hc'
      cases hc'
    | number =>
      have hhex : isHexDigit c = true := by simpa [needsGap, hs'] using h
      rw [Kind.goesOn, hhex] at hc'
      cases hc'
    | _ => cases h
  | number =>
    obtain ⟨x, ds, hs', -⟩ := hm
    have hc' := hhead hs' hend
    -- the zero that a number begins with belongs to names and to numbers
    cases k with
    | name => exact absurd hc' (by decide)
    | number => exact absurd hc' (by decide)
    | _ => cases h
  | _ => cases k <;> cases h

/-- A text whose tokens can be read to the end is a layout of these tokens, behind a token that
ends before it. -/
theorem Cursor.exists_layout_of_scan (c : Cursor) (h : c.scan.fault? = none)
    {before : Option Lexeme} (hbefore : ∀ l ∈ before, l.1.EndsBefore c.rest) :
    ∃ us last, c.scan.tokens = us ++ [last] ∧ last.kind = .endOfText ∧
      (∀ u ∈ us, IsLexeme u.lexeme) ∧ Layout before (us.map Token.lexeme) c.rest := by
  fun_induction scan c generalizing before with
  | case1 c e d hn => cases h
  | case2 c t d hn ht =>
    exact ⟨[], t, rfl, ht, by simp, .stop (lastGap_of_next hn ht)⟩
  | case3 c t d hn ht r ih =>
    obtain ⟨g, rest, hrest, hg, hl, hend, -, hd⟩ := exists_of_next hn ht
    have hdrest : d.rest = rest := by
      rw [hd, rest_advance_append (rest_advance_append hrest)]
    have hbehind : ∀ l ∈ some t.lexeme, l.1.EndsBefore d.rest := by
      rintro _ ⟨⟩
      rwa [hdrest]
    obtain ⟨us, last, htok, hlast, hus, hlayout⟩ := ih h hbehind
    refine ⟨t :: us, last, congrArg (t :: ·) htok, hlast, List.forall_mem_cons.mpr ⟨hl, hus⟩, ?_⟩
    rw [hdrest] at hlayout
    rw [hrest, ← List.append_assoc]
    refine .token hg ?_ hlayout
    rintro hneed rfl
    cases before with
    | none => cases hneed
    | some l =>
      rw [hrest] at hbefore
      exact not_endsBefore_of_needsGap hl hneed rest (hbefore l rfl)

end HexDoc
