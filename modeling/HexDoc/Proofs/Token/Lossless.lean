/-
HexDoc/Proofs/Token/Lossless.lean

Cutting a text into tokens loses nothing.  `Tiling` is the rule: a text is a row of gaps and
tokens, each token as long as it can be, up to the end of the text or up to a place where it
begins like a block comment that is never closed or with a character that nothing begins with.

What stops the reading is told from the text alone: a comment is open when it holds no end
(`closingLength?_eq_none_iff`), and no token can be read exactly where none of the language
starts (`lexeme?_eq_none_iff`).

Main statement: the tokens and the fault that are read off a text are the ones that tile it, and
no others do (`scan_iff_tiling`).
-/
import HexDoc.Proofs.Token.Tiling

namespace HexDoc

/-! ### The rule -/

/-- Text that starts neither a token nor anything that may stand between tokens. -/
def StartsNothing (cs : List Char) : Prop :=
  (∀ l, IsLexeme l → ¬ l.2.toList <+: cs) ∧ ∀ g, LastGap g → g <+: cs → g = []

/-- A text that starts at a place and is made up of gaps and of these tokens, to its end or to a
fault.  A token ends where none of its characters follows. -/
inductive Tiling : Position → List Char → List Token → Option LexError → Prop
  | finished {p : Position} {g : List Char} :
      LastGap g → Tiling p g [⟨.endOfText, "", p.past g⟩] none
  | openComment {p : Position} {g cs : List Char} :
      Gap g → IsCommentBody cs →
      Tiling p (g ++ '#' :: '=' :: cs) [] (some ⟨p.past g, .openComment⟩)
  | unexpected {p : Position} {g cs : List Char} {c : Char} :
      Gap g → StartsNothing (c :: cs) →
      Tiling p (g ++ c :: cs) [] (some ⟨p.past g, .unexpected c⟩)
  | token {p : Position} {g cs : List Char} {t : Token} {ts : List Token} {e? : Option LexError} :
      Gap g → IsLexeme t.lexeme → t.kind.EndsBefore cs → t.position = p.past g →
      Tiling ((p.past g).past t.text.toList) cs ts e? →
      Tiling p (g ++ (t.text.toList ++ cs)) (t :: ts) e?

/-! ### Where nothing starts -/

/-- A comment is never closed when its end is not in it. -/
theorem closingLength?_eq_none_iff {cs : List Char} :
    closingLength? cs = none ↔ IsCommentBody cs := by
  constructor
  · intro h
    fun_induction closingLength? cs with
    | case1 => simp [IsCommentBody]
    | case2 => cases h
    | case3 b cs hopen ih =>
      intro hin
      rcases List.infix_cons_iff.mp hin with ⟨rest, heq⟩ | hin
      · obtain ⟨rfl, htail⟩ := List.cons.inj heq
        exact hopen rest rfl htail.symm
      · exact ih (Option.map_eq_none_iff.mp h) hin
  · intro h
    rcases hn : closingLength? cs with - | n
    · rfl
    · obtain ⟨body, rest, rfl, -⟩ := exists_of_closingLength? hn
      exact absurd ⟨body, rest, by simp⟩ h

/-- A gap begins with a blank or with a comment sign. -/
theorem Gap.head?_eq {g : List Char} (h : Gap g) : ∀ c ∈ g.head?, isBlank c = true ∨ c = '#' := by
  cases h with
  | empty => simp
  | blank hb _ =>
    rintro c ⟨⟩
    exact .inl hb
  | blockComment =>
    rintro c ⟨⟩
    exact .inr rfl
  | lineComment =>
    rintro c ⟨⟩
    exact .inr rfl

theorem LastGap.head?_eq {g : List Char} (h : LastGap g) :
    ∀ c ∈ g.head?, isBlank c = true ∨ c = '#' := by
  cases h with
  | gap hg => exact hg.head?_eq
  | @lineComment g body hg =>
    cases g with
    | nil =>
      rintro c ⟨⟩
      exact .inr rfl
    | cons c g => exact hg.head?_eq

/-- A blank may stand between tokens, and so may a comment sign at the end of the text. -/
theorem lastGap_singleton {c : Char} (h : isBlank c = true ∨ c = '#') : LastGap [c] := by
  rcases h with h | rfl
  · exact .gap (.blank h .empty)
  · exact @LastGap.lineComment [] [] .empty (by simp) (by simp)

/-- No token can be read exactly where none of the language starts. -/
theorem lexeme?_eq_none_iff {cs : List Char} :
    lexeme? cs = none ↔ ∀ l, IsLexeme l → ¬ l.2.toList <+: cs := by
  constructor
  · rintro h ⟨k, s⟩ hl ⟨rest, rfl⟩
    cases k with
    | endOfText => exact hl
    | name =>
      obtain ⟨c, ds, hs, hc, -⟩ := hl
      rw [hs] at h
      simp [lexeme?, (apart_of_isNameStart hc).1, hc] at h
    | number =>
      obtain ⟨x, ds, hs, hx, -⟩ := hl
      have hmark : Kind.ofMark? '0' = none := rfl
      have hstart : isNameStart '0' = false := by decide
      rw [hs] at h
      rcases hx with rfl | rfl <;> simp [lexeme?, hmark, hstart] at h
    | _ =>
      obtain ⟨c, hs, hc⟩ := hl
      rw [hs] at h
      simp [lexeme?, hc] at h
  · intro h
    rcases hlex : lexeme? cs with - | ⟨k, n⟩
    · rfl
    · obtain ⟨l, rest, rfl, -, hl, -⟩ := exists_of_lexeme? hlex
      exact absurd ⟨rest, by simp⟩ (h _ hl)

/-- Nothing starts where no token can be read, with a character that is no blank and no comment
sign. -/
theorem startsNothing_cons_iff {c : Char} {cs : List Char} :
    StartsNothing (c :: cs) ↔ lexeme? (c :: cs) = none ∧ isBlank c = false ∧ c ≠ '#' := by
  rw [StartsNothing, lexeme?_eq_none_iff]
  refine and_congr_right fun _ => ⟨fun h => ?_, ?_⟩
  · have hc : ¬ (isBlank c = true ∨ c = '#') := by
      intro hc
      have hnil := h [c] (lastGap_singleton hc) ⟨cs, rfl⟩
      cases hnil
    rw [not_or] at hc
    exact ⟨by simpa using hc.1, hc.2⟩
  · rintro ⟨hblank, hhash⟩ g hg ⟨rest, hrest⟩
    cases g with
    | nil => rfl
    | cons d g =>
      obtain ⟨rfl, -⟩ := List.cons.inj hrest
      rcases hg.head?_eq d rfl with h | h
      · rw [hblank] at h
        cases h
      · exact absurd h hhash

namespace Cursor

variable {c d : Cursor}

theorem opensBlockComment_iff {cs : List Char} :
    opensBlockComment cs = true ↔ ∃ ds, cs = '#' :: '=' :: ds := by
  unfold opensBlockComment
  split <;> simp_all

/-- Nothing is ignored where nothing starts. -/
theorem ignoredLength_of_startsNothing {ch : Char} {cs : List Char}
    (h : StartsNothing (ch :: cs)) : ignoredLength (ch :: cs) = 0 := by
  obtain ⟨-, hblank, hhash⟩ := startsNothing_cons_iff.mp h
  rw [ignoredLength_of_ne hhash, runLength, List.takeWhile_cons_of_neg (by simp [hblank])]
  rfl

/-- A character that is not ignored is no blank, and no comment sign unless a block comment
begins with it. -/
theorem apart_of_ignoredLength {ch : Char} {cs : List Char} (h : ignoredLength (ch :: cs) = 0)
    (hopen : opensBlockComment (ch :: cs) = false) : isBlank ch = false ∧ ch ≠ '#' := by
  have hhash : ch ≠ '#' := by
    rintro rfl
    rw [ignoredLength_lineComment] at h
    · cases h
    · intro hhead
      obtain ⟨ds, rfl⟩ := List.head?_eq_some_iff.mp hhead
      cases hopen
  refine ⟨?_, hhash⟩
  rw [ignoredLength_of_ne hhash, runLength] at h
  rcases hblank : isBlank ch with - | -
  · rfl
  · rw [List.takeWhile_cons_of_pos hblank] at h
    cases h

/-- Where reading fails, a gap has been passed, and behind it stands a comment that is never
closed, or nothing starts there. -/
theorem exists_of_next_error {e : LexError} (h : c.next = (.error e, d)) :
    ∃ g rest, c.rest = g ++ rest ∧ Gap g ∧ e.position = (c.advance g.length).position ∧
      d = c.advance g.length ∧
      ((e.fault = .openComment ∧ ∃ cs, rest = '#' :: '=' :: cs ∧ IsCommentBody cs) ∨
        ∃ ch cs, e.fault = .unexpected ch ∧ rest = ch :: cs ∧ StartsNothing rest) := by
  obtain ⟨g, hg, hskip, -, hgap⟩ := c.exists_of_skipIgnored
  have hzero := c.ignoredLength_skipIgnored
  have hposition : (c.advance g.length).position = c.skipIgnored.position := by rw [hskip]
  unfold next skip refuseOpenComment at h
  by_cases hopen : opensBlockComment c.skipIgnored.rest = true
  · simp only [hopen, if_true] at h
    cases h
    obtain ⟨cs, hcs⟩ := opensBlockComment_iff.mp hopen
    rw [hcs] at hg hzero hgap
    refine ⟨g, _, hg, hgap (by simp), hposition.symm, hskip, .inl ⟨rfl, cs, rfl, ?_⟩⟩
    rw [← closingLength?_eq_none_iff]
    rcases hn : closingLength? cs with - | n
    · rfl
    · simp [ignoredLength, hn] at hzero
  · simp only [hopen, Bool.false_eq_true, if_false] at h
    unfold tokenHere at h
    split at h
    · cases h
    · rename_i ch cs hcs
      rw [hcs] at hg hzero hgap hopen
      split at h
      · cases h
      · rename_i hnone
        cases h
        have hapart := apart_of_ignoredLength hzero (by simpa using hopen)
        exact ⟨g, _, hg, hgap (by simp), hposition.symm, hskip,
          .inr ⟨ch, cs, rfl, rfl, startsNothing_cons_iff.mpr ⟨hnone, hapart⟩⟩⟩

/-- Behind a gap, a comment that is never closed is a fault. -/
theorem next_of_openComment {g cs : List Char} (hg : Gap g) (hcs : IsCommentBody cs)
    (h : c.rest = g ++ '#' :: '=' :: cs) :
    c.next = (.error ⟨(c.advance g.length).position, .openComment⟩, c.advance g.length) := by
  have hrest := rest_advance_append h
  have hskip : c.skipIgnored = c.advance g.length := by
    rw [skipIgnored_gap hg h]
    refine skipIgnored_of_zero ?_
    rw [hrest, ignoredLength, closingLength?_eq_none_iff.mpr hcs]
    rfl
  have hopen : opensBlockComment (c.advance g.length).rest = true :=
    opensBlockComment_iff.mpr ⟨cs, hrest⟩
  unfold next skip refuseOpenComment
  rw [hskip, if_pos hopen]

/-- Behind a gap, a character that nothing starts with is a fault. -/
theorem next_of_startsNothing {g cs : List Char} {ch : Char} (hg : Gap g)
    (hcs : StartsNothing (ch :: cs)) (h : c.rest = g ++ ch :: cs) :
    c.next = (.error ⟨(c.advance g.length).position, .unexpected ch⟩, c.advance g.length) := by
  have hrest := rest_advance_append h
  obtain ⟨hnone, -, hhash⟩ := startsNothing_cons_iff.mp hcs
  have hskip : c.skipIgnored = c.advance g.length := by
    rw [skipIgnored_gap hg h]
    refine skipIgnored_of_zero ?_
    rw [hrest]
    exact ignoredLength_of_startsNothing hcs
  have hopen : ¬ opensBlockComment (c.advance g.length).rest = true := by
    rw [opensBlockComment_iff, hrest]
    rintro ⟨ds, heq⟩
    exact hhash (List.cons.inj heq).1
  unfold next skip refuseOpenComment
  rw [hskip, if_neg hopen]
  simp only [tokenHere, hrest, hnone]

/-! ### Reading is tiling -/

/-- The place behind the text that a cursor has ahead first. -/
theorem position_advance_append {cs ds : List Char} (h : c.rest = cs ++ ds) :
    (c.advance cs.length).position = c.position.past cs := by
  rw [c.position_advance _ (by simp [h]), h, List.take_left]

/-- What is read tiles the text. -/
theorem tiling_scan (c : Cursor) : Tiling c.position c.rest c.scan.tokens c.scan.fault? := by
  fun_induction scan c with
  | case1 c e d h =>
    obtain ⟨g, rest, hrest, hg, hposition, -, hfault⟩ := exists_of_next_error h
    obtain ⟨p, f⟩ := e
    rw [position_advance_append hrest] at hposition
    cases hposition
    rw [hrest]
    rcases hfault with ⟨hf, cs, rfl, hcs⟩ | ⟨ch, cs, hf, rfl, hcs⟩
    · cases hf
      exact .openComment hg hcs
    · cases hf
      exact .unexpected hg hcs
  | case2 c t d h ht =>
    have hlast := lastGap_of_next h ht
    rw [next_of_lastGap hlast] at h
    cases h
    have hposition := position_advance_append (c := c) (List.append_nil c.rest).symm
    simp only [hposition]
    exact .finished hlast
  | case3 c t d h ht r ih =>
    obtain ⟨g, rest, hrest, hg, hl, hend, hposition, hd⟩ := exists_of_next h ht
    have hbehind := rest_advance_append hrest
    rw [position_advance_append hrest] at hposition
    have hdrest : d.rest = rest := by
      rw [hd, rest_advance_append hbehind]
    have hdposition : d.position = (c.position.past g).past t.text.toList := by
      rw [hd, position_advance_append hbehind, position_advance_append hrest]
    rw [hdrest, hdposition] at ih
    rw [hrest]
    exact .token hg hl hend hposition ih

/-- What tiles the text is read. -/
theorem scan_of_tiling {p : Position} {cs : List Char} {ts : List Token} {e? : Option LexError}
    (h : Tiling p cs ts e?) {c : Cursor} (hc : c.rest = cs) (hp : c.position = p) :
    c.scan.tokens = ts ∧ c.scan.fault? = e? := by
  induction h generalizing c with
  | @finished p g hg =>
    have hnext := next_of_lastGap (hc ▸ hg)
    rw [scan_of_end hnext rfl,
      position_advance_append (List.append_nil c.rest).symm, hc, hp]
    exact ⟨rfl, rfl⟩
  | openComment hg hcs =>
    rw [scan_of_error (next_of_openComment hg hcs hc), position_advance_append hc, hp]
    exact ⟨rfl, rfl⟩
  | unexpected hg hcs =>
    rw [scan_of_error (next_of_startsNothing hg hcs hc), position_advance_append hc, hp]
    exact ⟨rfl, rfl⟩
  | @token p g cs t ts e? hg hl hend hposition _ ih =>
    have hnext := next_of_gap hg hl hend hc
    have hbehind := rest_advance_append hc
    have hplace : (c.advance g.length).position = t.position := by
      rw [position_advance_append hc, hp, hposition]
    obtain ⟨htok, hfault⟩ := ih (rest_advance_append hbehind)
      (by rw [position_advance_append hbehind, position_advance_append hc, hp])
    rw [scan_of_token hnext hl.kind_ne, hplace]
    exact ⟨congrArg (t :: ·) htok, hfault⟩

end Cursor

/-- The tokens that are read off a text, and the fault that ends the reading if one does, are
those that tile it from its start, and no others tile it. -/
theorem scan_iff_tiling (text : String) (ts : List Token) (e? : Option LexError) :
    (Cursor.ofText text).scan.tokens = ts ∧ (Cursor.ofText text).scan.fault? = e? ↔
      Tiling .start text.toList ts e? := by
  constructor
  · rintro ⟨rfl, rfl⟩
    exact (Cursor.ofText text).tiling_scan
  · exact fun h => Cursor.scan_of_tiling h rfl rfl

end HexDoc
