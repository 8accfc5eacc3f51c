/-
HexDoc/Proofs/Token/Spacing.lean

Reading a text that has been laid out.  A gap is passed piece by piece, a block comment at the
first place where it can end (`closingLength?_append`), and what follows a token in a layout,
be it a gap or a token, never belongs to that token (`Layout.endsBefore`).

Main statements: a gap is passed whatever follows it (`Cursor.skipIgnored_gap`), and the tokens
read off a layout are the tokens that were laid out, then the end token
(`Cursor.scan_of_layout`).
-/
import HexDoc.Proofs.Parser.Stream
import HexDoc.Proofs.Token.Lexeme

namespace HexDoc

/-! ### Moving on in parts -/

namespace Cursor

/-- Two moves are one, if the first one stays inside the text. -/
theorem advance_advance (c : Cursor) {m : Nat} (h : m ≤ c.rest.length) (n : Nat) :
    (c.advance m).advance n = c.advance (m + n) := by
  have hposition : ((c.advance m).advance n).position = (c.advance (m + n)).position := by
    show ((c.advance m).position.past ((c.rest.drop m).take n)).right
        (n - ((c.rest.drop m).take n).length) =
      (c.position.past (c.rest.take (m + n))).right (m + n - (c.rest.take (m + n)).length)
    rw [c.position_advance m h, ← Position.past_append, ← List.take_add]
    congr 1
    simp only [List.length_take, List.length_drop]
    omega
  have hrest : ((c.advance m).advance n).rest = (c.advance (m + n)).rest := List.drop_drop
  have hoffset : ((c.advance m).advance n).offset = (c.advance (m + n)).offset :=
    Nat.add_assoc _ _ _
  rcases h₁ : (c.advance m).advance n with ⟨r, o, p⟩
  rw [h₁] at hrest hoffset hposition
  cases hrest
  cases hoffset
  cases hposition
  rfl

variable {c : Cursor}

theorem advance_zero (c : Cursor) : c.advance 0 = c := rfl

theorem rest_advance_append {cs ds : List Char} (h : c.rest = cs ++ ds) :
    (c.advance cs.length).rest = ds := by
  rw [rest_advance, h, List.drop_left]

theorem skipIgnored_of_zero (h : ignoredLength c.rest = 0) : c.skipIgnored = c := by
  rw [skipIgnored, dif_pos h]

theorem skipIgnored_of_pos {n : Nat} (h : ignoredLength c.rest = n + 1) :
    c.skipIgnored = (c.advance (n + 1)).skipIgnored := by
  rw [skipIgnored, dif_neg (by omega), h]

end Cursor

/-! ### Ignored pieces -/

/-- A comment ends at the first place where it can. -/
theorem closingLength?_append {body : List Char} (h : IsCommentBody body) (rest : List Char) :
    closingLength? (body ++ '=' :: '#' :: rest) = some (body.length + 2) := by
  induction body with
  | nil => rfl
  | cons b body ih =>
    have hbody : IsCommentBody body := fun hin => h (hin.trans (List.suffix_cons b body).isInfix)
    -- the comment cannot end at its first character: its body would have had an end in it
    have hopen : ¬ (b = '=' ∧ ∃ rest', body ++ '=' :: '#' :: rest = '#' :: rest') := by
      rintro ⟨rfl, rest', heq⟩
      cases body with
      | nil => cases heq
      | cons b' body =>
        cases heq
        exact h ⟨[], body, rfl⟩
    rw [List.cons_append, closingLength?, ih hbody]
    · rfl
    · exact fun rest' hb heq => hopen ⟨hb, rest', heq⟩

theorem ignoredLength_lineComment {cs : List Char} (h : cs.head? ≠ some '=') :
    ignoredLength ('#' :: cs) = runLength (· ≠ '\n') cs + 1 := by
  rw [ignoredLength]
  rintro cs' heq
  exact h (by rw [heq]; rfl)

theorem ignoredLength_of_ne {c : Char} {cs : List Char} (h : c ≠ '#') :
    ignoredLength (c :: cs) = runLength isBlank (c :: cs) := by
  rw [ignoredLength]
  · rintro cs' heq
    cases heq
    exact h rfl
  · rintro cs' heq
    cases heq
    exact h rfl

namespace Cursor

variable {c : Cursor}

/-- A blank is passed, whatever follows it. -/
theorem skipIgnored_blank {b : Char} {rest : List Char} (hb : isBlank b = true)
    (h : c.rest = b :: rest) : c.skipIgnored = (c.advance 1).skipIgnored := by
  have hhash : b ≠ '#' := by
    rintro rfl
    cases hb
  have hlen : ignoredLength c.rest = runLength isBlank rest + 1 := by
    rw [h, ignoredLength_of_ne hhash, runLength, List.takeWhile_cons_of_pos hb]
    rfl
  rw [skipIgnored_of_pos hlen]
  rcases hn : runLength isBlank rest with - | n
  · rfl
  · -- the blanks that follow are passed at once from here, and from behind the first one
    have hrest : (c.advance 1).rest = rest := by
      rw [rest_advance, h]
      rfl
    have hlen' : ignoredLength (c.advance 1).rest = n + 1 := by
      rw [hrest]
      cases rest with
      | nil => cases hn
      | cons b' rest =>
        have hb' : b' ≠ '#' := by
          rintro rfl
          cases hn
        rw [ignoredLength_of_ne hb', hn]
    rw [skipIgnored_of_pos hlen', advance_advance c (by simp [h]), Nat.add_comm 1 (n + 1)]

/-- A block comment is passed. -/
theorem skipIgnored_blockComment {body rest : List Char} (hbody : IsCommentBody body)
    (h : c.rest = '#' :: '=' :: (body ++ ['=', '#']) ++ rest) :
    c.skipIgnored = (c.advance ('#' :: '=' :: (body ++ ['=', '#'])).length).skipIgnored := by
  have hrest : c.rest = '#' :: '=' :: (body ++ '=' :: '#' :: rest) := by simpa using h
  have hlen : ignoredLength c.rest = body.length + 3 + 1 := by
    rw [hrest, ignoredLength, closingLength?_append hbody]
    rfl
  rw [skipIgnored_of_pos hlen]
  simp

/-- A line comment is passed up to its end. -/
theorem skipIgnored_lineComment {body rest : List Char} (hbody : '\n' ∉ body)
    (hopen : body.head? ≠ some '=') (hrest : ∀ d ∈ rest.head?, d = '\n')
    (h : c.rest = '#' :: body ++ rest) :
    c.skipIgnored = (c.advance ('#' :: body).length).skipIgnored := by
  have hline : ∀ d ∈ body, d ≠ '\n' := fun d hd hn => hbody (hn ▸ hd)
  have hhead : (body ++ rest).head? ≠ some '=' := by
    cases body with
    | nil =>
      intro heq
      exact absurd (hrest '=' heq) (by decide)
    | cons b body => exact hopen
  refine skipIgnored_of_pos ?_
  rw [h, List.cons_append, ignoredLength_lineComment hhead, runLength_append]
  · simpa [List.all_eq_true] using hline
  · simpa using hrest

/-- Ignored text is passed piece by piece. -/
theorem skipIgnored_append {piece g rest : List Char} (h : c.rest = piece ++ (g ++ rest))
    (hpiece : c.skipIgnored = (c.advance piece.length).skipIgnored)
    (hg : (c.advance piece.length).skipIgnored =
      ((c.advance piece.length).advance g.length).skipIgnored) :
    c.skipIgnored = (c.advance (piece ++ g).length).skipIgnored := by
  rw [hpiece, hg, advance_advance c (by simp [h]), List.length_append]

/-- A gap is passed, whatever follows it. -/
theorem skipIgnored_gap {g rest : List Char} (hg : Gap g) (h : c.rest = g ++ rest) :
    c.skipIgnored = (c.advance g.length).skipIgnored := by
  induction hg generalizing c with
  | empty => rw [List.length_nil, advance_zero]
  | @blank b g hb hg ih =>
    have hsplit : c.rest = [b] ++ (g ++ rest) := h
    exact skipIgnored_append hsplit (skipIgnored_blank hb h) (ih (rest_advance_append hsplit))
  | @blockComment body g hbody hg ih =>
    have hpiece : '#' :: '=' :: (body ++ '=' :: '#' :: g) =
        ('#' :: '=' :: (body ++ ['=', '#'])) ++ g := by simp
    rw [hpiece] at h ⊢
    rw [List.append_assoc] at h
    exact skipIgnored_append h (skipIgnored_blockComment hbody h) (ih (rest_advance_append h))
  | @lineComment body g hbody hopen hg ih =>
    -- the newline behind the comment is a blank of its own
    have hpiece : '#' :: (body ++ '\n' :: g) = ('#' :: body) ++ (['\n'] ++ g) := by simp
    rw [hpiece] at h ⊢
    rw [List.append_assoc, List.append_assoc] at h
    have hnewline := rest_advance_append h
    have hsplit : c.rest = ('#' :: body) ++ ((['\n'] ++ g) ++ rest) := by simpa using h
    refine skipIgnored_append hsplit ?_ ?_
    · exact skipIgnored_lineComment hbody hopen (by simp) h
    · exact skipIgnored_append hnewline (skipIgnored_blank rfl hnewline)
        (ih (rest_advance_append hnewline))

/-- Behind the last token everything is passed. -/
theorem skipIgnored_lastGap {g : List Char} (hg : LastGap g) (h : c.rest = g) :
    c.skipIgnored = c.advance g.length := by
  have hend {d : Cursor} (hd : d.rest = []) : d.skipIgnored = d :=
    skipIgnored_of_zero (by rw [hd, ignoredLength_nil])
  cases hg with
  | gap hg =>
    have h' : c.rest = g ++ [] := by rw [h, List.append_nil]
    rw [skipIgnored_gap hg h', hend (rest_advance_append h')]
  | @lineComment g body hg hbody hopen =>
    have hcomment := rest_advance_append h
    have hcomment' : (c.advance g.length).rest = ('#' :: body) ++ [] := by
      rw [hcomment, List.append_nil]
    rw [skipIgnored_gap hg h, skipIgnored_lineComment hbody hopen (by simp) hcomment',
      hend (rest_advance_append hcomment'), advance_advance c (by simp [h]), List.length_append]

end Cursor

/-! ### What may follow a token -/

theorem Kind.goesOn_of_apart {c : Char} (hname : isNameChar c = false)
    (hhex : isHexDigit c = false) (k : Kind) : k.goesOn c = false := by
  cases k with
  | name => exact hname
  | number => exact hhex
  | _ => rfl

/-- A gap begins with a blank or with a comment sign, and neither belongs to a token. -/
theorem Gap.endsBefore {g : List Char} (hg : Gap g) (hne : g ≠ []) (k : Kind)
    (cs : List Char) : k.EndsBefore (g ++ cs) := by
  have hhash : k.goesOn '#' = false := Kind.goesOn_of_apart (by decide) (by decide) k
  cases hg with
  | empty => exact absurd rfl hne
  | blank hb _ =>
    rintro d ⟨⟩
    obtain ⟨hname, hhex⟩ := apart_of_isBlank hb
    exact Kind.goesOn_of_apart hname hhex k
  | blockComment =>
    rintro d ⟨⟩
    exact hhash
  | lineComment =>
    rintro d ⟨⟩
    exact hhash

/-- Text behind the last token does not belong to it. -/
theorem LastGap.endsBefore {g : List Char} (hg : LastGap g) (k : Kind) : k.EndsBefore g := by
  cases hg with
  | gap hg =>
    by_cases hne : g = []
    · simp [hne, Kind.EndsBefore]
    · simpa using hg.endsBefore hne k []
  | @lineComment g body hg =>
    by_cases hne : g = []
    · rw [hne]
      rintro d ⟨⟩
      exact Kind.goesOn_of_apart (by decide) (by decide) k
    · exact hg.endsBefore hne k _

/-- Tokens that do not run together need no gap. -/
theorem endsBefore_of_needsGap {l m : Lexeme} (hm : IsLexeme m) (h : needsGap l m = false)
    (cs : List Char) : l.1.EndsBefore (m.2.toList ++ cs) := by
  obtain ⟨k, s⟩ := l
  obtain ⟨k', s'⟩ := m
  cases k' with
  | endOfText => cases hm
  | name =>
    obtain ⟨c, ds, hs', hc, -⟩ := hm
    rw [hs']
    rintro d ⟨⟩
    cases k with
    | name => cases h
    | number =>
      show isHexDigit c = false
      simpa [needsGap, hs'] using h
    | _ => rfl
  | number =>
    obtain ⟨x, ds, hs', -⟩ := hm
    rw [hs']
    rintro d ⟨⟩
    cases k with
    | name => cases h
    | number => cases h
    | _ => rfl
  | _ =>
    obtain ⟨c, hs', hc⟩ := hm
    rw [hs']
    rintro d ⟨⟩
    obtain ⟨hname, hhex, -⟩ := Kind.apart_of_ofMark? hc
    exact Kind.goesOn_of_apart hname hhex k

/-- What follows a token in a layout does not belong to it. -/
theorem Layout.endsBefore {l : Lexeme} {ls : List Lexeme} {cs : List Char}
    (h : Layout (some l) ls cs) (hls : ∀ m ∈ ls, IsLexeme m) : l.1.EndsBefore cs := by
  cases h with
  | stop hg => exact hg.endsBefore l.1
  | @token _ g cs m ls hg hneed _ =>
    rw [List.append_assoc]
    by_cases hne : g = []
    · have hgap : needsGap l m = false := by
        simpa using fun h => hneed h hne
      rw [hne]
      exact endsBefore_of_needsGap (hls m List.mem_cons_self) hgap cs
    · exact hg.endsBefore hne l.1 _

/-! ### Reading a layout -/

/-- A token begins with neither a blank nor a comment sign. -/
theorem IsLexeme.exists_head {l : Lexeme} (hl : IsLexeme l) :
    ∃ c cs, l.2.toList = c :: cs ∧ isBlank c = false ∧ c ≠ '#' := by
  obtain ⟨k, s⟩ := l
  cases k with
  | endOfText => cases hl
  | name =>
    obtain ⟨c, cs, hs, hc, -⟩ := hl
    exact ⟨c, cs, hs, (apart_of_isNameStart hc).2⟩
  | number =>
    obtain ⟨x, ds, hs, -⟩ := hl
    exact ⟨'0', x :: ds, hs, by decide, by decide⟩
  | _ =>
    obtain ⟨c, hs, hc⟩ := hl
    exact ⟨c, [], hs, (Kind.apart_of_ofMark? hc).2.2⟩

namespace Cursor

variable {c : Cursor}

/-- Behind a gap the token that ends where it does is read. -/
theorem next_of_gap {g rest : List Char} {l : Lexeme} (hg : Gap g) (hl : IsLexeme l)
    (hrest : l.1.EndsBefore rest) (h : c.rest = g ++ (l.2.toList ++ rest)) :
    c.next = (.ok ⟨l.1, l.2, (c.advance g.length).position⟩,
      (c.advance g.length).advance l.2.toList.length) := by
  have htoken := rest_advance_append h
  obtain ⟨ch, cs, hch, hblank, hhash⟩ := hl.exists_head
  have hskip : c.skipIgnored = c.advance g.length := by
    rw [skipIgnored_gap hg h]
    refine skipIgnored_of_zero ?_
    rw [htoken, hch, List.cons_append, ignoredLength_of_ne hhash, runLength,
      List.takeWhile_cons_of_neg (by simp [hblank])]
    rfl
  refine next_eq_ok_iff.mpr ⟨?_, ?_⟩
  · rw [hskip, htoken, hch]
    unfold opensBlockComment
    split
    · rename_i heq
      exact absurd (List.cons.inj heq).1 hhash
    · rfl
  · rw [hskip, tokenHere_of_isLexeme htoken hl hrest]

/-- Behind the last token the end token is read. -/
theorem next_of_lastGap (hg : LastGap c.rest) :
    c.next = (.ok ⟨.endOfText, "", (c.advance c.rest.length).position⟩,
      c.advance c.rest.length) := by
  have hskip := skipIgnored_lastGap hg rfl
  have hnil : (c.advance c.rest.length).rest = [] := List.drop_length
  refine next_eq_ok_iff.mpr ⟨?_, ?_⟩
  · rw [hskip, hnil]
    rfl
  · rw [hskip, tokenHere, hnil]

/-- The tokens read off a layout are those that were laid out, then the end token. -/
theorem scan_of_layout {before : Option Lexeme} {ls : List Lexeme} {cs : List Char}
    (h : Layout before ls cs) (hls : ∀ l ∈ ls, IsLexeme l) (hc : c.rest = cs) :
    c.scan.fault? = none ∧ ∃ us last, c.scan.tokens = us ++ [last] ∧
      us.map Token.lexeme = ls ∧ last.kind = .endOfText := by
  induction h generalizing c with
  | stop hg =>
    rw [scan_of_end (next_of_lastGap (hc ▸ hg)) rfl]
    exact ⟨rfl, [], _, rfl, rfl, rfl⟩
  | @token before g cs l ls hg _ hlayout ih =>
    obtain ⟨hl, hls⟩ := List.forall_mem_cons.mp hls
    rw [List.append_assoc] at hc
    have hnext := next_of_gap hg hl (hlayout.endsBefore hls) hc
    obtain ⟨hfault, us, last, htok, hus, hlast⟩ :=
      ih hls (rest_advance_append (rest_advance_append hc))
    rw [scan_of_token hnext hl.kind_ne]
    refine ⟨hfault, ⟨l.1, l.2, (c.advance g.length).position⟩ :: us, last, ?_, ?_, hlast⟩
    · rw [List.cons_append, ← htok]
    · rw [List.map_cons, hus]
      rfl

end Cursor

end HexDoc
