/-
HexDoc/Proofs/Token/LineEnds.lean

Tokens do not tell which line ends a text has.  A carriage return in front of a newline can stand
in a gap, in a comment or at the end of a line comment, and what is left without it is still a gap
(`Gap.withoutReturns`); in a token it cannot stand at all.  Where nothing begins, nothing begins
without the carriage returns further on, and a comment that is left open stays open: for a token
or the end of a comment to come together, the newline between its parts would have to go as well.

That every carriage return has a newline behind it is needed throughout: one that stands alone goes
on with a line comment, and without it two tokens may run together.

Main statement: a text with carriage returns in pairs and the text without them are tiled by the
same tokens, at the same places, with the same fault (`Tiling.withoutReturns`).
-/
import HexDoc.Proofs.Token.Moves
import HexDoc.Text.LineEnds

namespace HexDoc

/-! ### Gaps and comments -/

/-- A comment does not end because carriage returns are taken out of it. -/
theorem IsCommentBody.withoutReturns {cs : List Char} (h : IsCommentBody cs)
    (hcs : ReturnsPaired cs) : IsCommentBody (withoutReturns cs) :=
  fun hin => h (hcs.isInfix_of_withoutReturns (by decide) hin)

/-- No block comment begins because carriage returns are taken out of a line comment. -/
theorem head?_withoutReturns_ne {body rest : List Char}
    (hopen : body.head? ≠ some '=') (hrest : rest.head? ≠ some '=')
    (h : ReturnsPaired (body ++ rest)) : (withoutReturns body).head? ≠ some '=' := by
  intro hhead
  have hwhole : (withoutReturns (body ++ rest)).head? = some '=' := by
    rw [withoutReturns_append, List.head?_append, hhead]
    rfl
  have hfirst := h.head?_of_withoutReturns hwhole (by decide)
  cases body with
  | nil => exact hrest hfirst
  | cons b body => exact hopen hfirst

theorem notMem_withoutReturns {c : Char} {cs : List Char} (h : c ∉ cs) :
    c ∉ withoutReturns cs :=
  fun hmem => h (List.mem_filter.mp hmem).1

/-- A gap is a gap without its carriage returns. -/
theorem Gap.withoutReturns {g : List Char} (hg : Gap g) (h : ReturnsPaired g) :
    Gap (withoutReturns g) := by
  induction hg with
  | empty => exact .empty
  | @blank c g hb _ ih =>
    by_cases hc : c = '\r'
    · rw [hc, withoutReturns_return]
      exact ih h.tail
    · rw [withoutReturns_cons hc]
      exact .blank hb (ih h.tail)
  | @blockComment body g hbody _ ih =>
    have hpaired : ReturnsPaired (body ++ '=' :: '#' :: g) := h.tail.tail
    have hbody' := hbody.withoutReturns (hpaired.left (by simp))
    have hgap := ih hpaired.right.tail.tail
    simpa [withoutReturns_cons] using Gap.blockComment hbody' hgap
  | @lineComment body g hbody hopen _ ih =>
    have hpaired : ReturnsPaired (body ++ '\n' :: g) := h.tail
    have hopen' := head?_withoutReturns_ne hopen (by simp) hpaired
    have hgap := ih hpaired.right.tail
    simpa [withoutReturns_cons] using
      Gap.lineComment (notMem_withoutReturns hbody) hopen' hgap

theorem LastGap.withoutReturns {g : List Char} (hg : LastGap g) (h : ReturnsPaired g) :
    LastGap (withoutReturns g) := by
  cases hg with
  | gap hg => exact .gap (hg.withoutReturns h)
  | @lineComment g body hg hbody hopen =>
    have hgap := hg.withoutReturns (h.left (by simp))
    have hpaired : ReturnsPaired (body ++ []) := by simpa using h.right.tail
    have hopen' := head?_withoutReturns_ne hopen (by simp) hpaired
    simpa [withoutReturns_cons] using
      LastGap.lineComment hgap (notMem_withoutReturns hbody) hopen'

/-! ### Tokens -/

/-- No token holds a carriage return. -/
theorem IsLexeme.withoutReturns {l : Lexeme} (hl : IsLexeme l) :
    withoutReturns l.2.toList = l.2.toList :=
  withoutReturns_of_notMem (hl.notMem_of_isBlank rfl)

/-- A token that ends before a text ends before it without the carriage returns: neither what it
begins with nor a newline belongs to the token. -/
theorem Kind.EndsBefore.withoutReturns {k : Kind} {cs : List Char} (h : k.EndsBefore cs)
    (hcs : ReturnsPaired cs) : k.EndsBefore (withoutReturns cs) := by
  intro c hc
  by_cases hnewline : c = '\n'
  · rw [hnewline]
    exact Kind.goesOn_of_apart (by decide) (by decide) k
  · exact h c (hcs.head?_of_withoutReturns hc hnewline)

/-- Where nothing begins, nothing begins without the carriage returns further on. -/
theorem StartsNothing.withoutReturns {c : Char} {cs : List Char} (h : StartsNothing (c :: cs))
    (hcs : ReturnsPaired (c :: cs)) : StartsNothing (c :: withoutReturns cs) := by
  obtain ⟨hnone, hblank, hhash⟩ := startsNothing_cons_iff.mp h
  have hc : c ≠ '\r' := by
    rintro rfl
    cases hblank
  rw [lexeme?_eq_none_iff] at hnone
  refine startsNothing_cons_iff.mpr ⟨lexeme?_eq_none_iff.mpr fun l hl hpre => ?_, hblank, hhash⟩
  rw [← withoutReturns_cons hc] at hpre
  exact hnone l hl (hcs.isPrefix_of_withoutReturns hl.notMem_newline hpre)

/-- A token does not begin with a newline. -/
theorem IsLexeme.head?_ne_newline {l : Lexeme} (hl : IsLexeme l) (cs : List Char) :
    (l.2.toList ++ cs).head? ≠ some '\n' := by
  obtain ⟨c, ds, hs, hblank, -⟩ := hl.exists_head
  rw [hs]
  rintro ⟨⟩
  cases hblank

/-! ### Texts -/

/-- What tiles a text with its carriage returns in pairs tiles the text without them. -/
theorem Tiling.withoutReturns {p : Position} {cs : List Char} {ts : List Token}
    {e? : Option LexError} (ht : Tiling p cs ts e?) (h : ReturnsPaired cs) :
    Tiling p (withoutReturns cs) ts e? := by
  induction ht with
  | @finished p g hg =>
    rw [← Position.past_withoutReturns h]
    exact .finished (hg.withoutReturns h)
  | @openComment p g cs hg hcs =>
    have hgap := h.left (by simp)
    rw [← Position.past_withoutReturns hgap]
    simpa [withoutReturns_cons] using
      Tiling.openComment (hg.withoutReturns hgap) (hcs.withoutReturns h.right.tail.tail)
  | @unexpected p g cs c hg hcs =>
    obtain ⟨-, hblank, -⟩ := startsNothing_cons_iff.mp hcs
    have hnewline : c ≠ '\n' := by
      rintro rfl
      cases hblank
    have hreturn : c ≠ '\r' := by
      rintro rfl
      cases hblank
    have hgap := h.left (by simpa using hnewline)
    rw [← Position.past_withoutReturns hgap, withoutReturns_append, withoutReturns_cons hreturn]
    exact .unexpected (hg.withoutReturns hgap) (hcs.withoutReturns h.right)
  | @token p g cs t ts e? hg hl hend hposition _ ih =>
    have hgap := h.left (hl.head?_ne_newline cs)
    have hcs := h.right.right
    have hplace := Position.past_withoutReturns hgap p
    have htext : HexDoc.withoutReturns t.text.toList = t.text.toList := hl.withoutReturns
    rw [withoutReturns_append, withoutReturns_append, htext]
    refine .token (hg.withoutReturns hgap) hl (hend.withoutReturns hcs) ?_ ?_
    · rw [hplace, hposition]
    · rw [hplace]
      exact ih hcs

/-- A text with its carriage returns in pairs and the text without them have the same tokens and
the same fault. -/
theorem scan_dropPairedReturns {text : String} (h : ReturnsPaired text.toList) :
    (Cursor.ofText (String.ofList (dropPairedReturns text.toList))).scan.tokens =
        (Cursor.ofText text).scan.tokens ∧
      (Cursor.ofText (String.ofList (dropPairedReturns text.toList))).scan.fault? =
        (Cursor.ofText text).scan.fault? := by
  rw [scan_iff_tiling, String.toList_ofList, dropPairedReturns_eq_withoutReturns h]
  exact ((scan_iff_tiling text _ _).mp ⟨rfl, rfl⟩).withoutReturns h

end HexDoc
