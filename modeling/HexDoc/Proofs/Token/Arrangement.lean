/-
HexDoc/Proofs/Token/Arrangement.lean

Tokens that are arranged as text are read back, each from where it stands.  An arrangement that
keeps to the rule for gaps is a layout of its tokens (`Arrangement.IsSpaced.layout`), so no token
goes on into what follows it, and its text is tiled by its tokens
(`Arrangement.IsSpaced.exists_tiling`).  The induction is over the arrangement, with the text in
front of it carried along: the places come from counting over that text.

Main statement: an arrangement is read as its tokens, at the places of their offsets, with the end
token behind the last gap (`tokenize_arrangement`).
-/
import Mathlib.Data.List.Forall2
import HexDoc.Token.Arrangement
import HexDoc.Proofs.Token.Lossless
import HexDoc.Proofs.Text.Place

namespace HexDoc

/-- A token stands at an offset of a text: its characters are there, and its place tells the line
and the column of that offset. -/
structure Token.IsAt (cs : List Char) (t : Token) (offset : Nat) : Prop where
  stands : t.text.toList <+: cs.drop offset
  place : IsPlace cs offset t.position

/-- The place behind the first part of a text is that of its length. -/
theorem isPlace_append (front rest : List Char) :
    IsPlace (front ++ rest) front.length (Position.start.past front) := by
  have h := isPlace_past (front ++ rest) front.length
  rwa [List.take_left, Nat.sub_eq_zero_of_le (by simp)] at h

/-- What stands behind the first part of a text is at the offset of its length. -/
theorem Token.isAt_append (front rest : List Char) (l : Lexeme) :
    Token.IsAt (front ++ (l.2.toList ++ rest)) ⟨l.1, l.2, Position.start.past front⟩
      front.length where
  stands := by
    rw [List.drop_left]
    exact List.prefix_append _ _
  place := isPlace_append front _

namespace Arrangement

variable {a : Arrangement} {before : Option Lexeme}

theorem IsSpaced.isLexeme_of_mem (h : a.IsSpaced before) : ∀ l ∈ a.lexemes, IsLexeme l := by
  induction a generalizing before with
  | ending g => exact List.forall_mem_nil _
  | token g l a ih =>
    obtain ⟨-, hl, -, ha⟩ := h
    exact List.forall_mem_cons.mpr ⟨hl, ih ha⟩

/-- An arrangement that keeps to the rule for gaps is a layout of its tokens. -/
theorem IsSpaced.layout (h : a.IsSpaced before) : Layout before a.lexemes a.text := by
  induction a generalizing before with
  | ending g => exact .stop h
  | token g l a ih =>
    obtain ⟨hg, -, hneed, ha⟩ := h
    rw [text, ← List.append_assoc]
    exact .token hg hneed (ih ha)

/-- A token does not go on into what is arranged behind it. -/
theorem IsSpaced.endsBefore {l : Lexeme} (h : a.IsSpaced (some l)) : l.1.EndsBefore a.text :=
  h.layout.endsBefore h.isLexeme_of_mem

/-- With some text in front of it, an arrangement is tiled by its tokens, each at its offset, and
by an end token at the end. -/
theorem IsSpaced.exists_tiling (h : a.IsSpaced before) (front : List Char) :
    ∃ us last, Tiling (Position.start.past front) a.text (us ++ [last]) none ∧
      us.map Token.lexeme = a.lexemes ∧
      List.Forall₂ (Token.IsAt (front ++ a.text)) us (a.offsets front.length) ∧
      last.lexeme = (.endOfText, "") ∧ last.IsAt (front ++ a.text) (front ++ a.text).length := by
  induction a generalizing before front with
  | ending g =>
    have hlast := Token.isAt_append (front ++ g) [] (.endOfText, "")
    rw [Position.past_append] at hlast
    exact ⟨[], _, .finished h, rfl, .nil, rfl, by simpa [text] using hlast⟩
  | token g l a ih =>
    obtain ⟨hg, hl, -, ha⟩ := h
    -- in front of what is left stands all of the text up to the end of this token
    obtain ⟨us, last, htiling, hus, hoffsets, hlast⟩ := ih ha ((front ++ g) ++ l.2.toList)
    have hsplit : ((front ++ g) ++ l.2.toList) ++ a.text = front ++ (token g l a).text := by
      simp only [text, List.append_assoc]
    let t : Token := ⟨l.1, l.2, (Position.start.past front).past g⟩
    have ht : t.IsAt (front ++ (token g l a).text) (front.length + g.length) := by
      have hstands := Token.isAt_append (front ++ g) a.text l
      rwa [Position.past_append, ← List.append_assoc, hsplit, List.length_append] at hstands
    rw [Position.past_append, Position.past_append] at htiling
    rw [hsplit, List.length_append, List.length_append] at hoffsets
    rw [hsplit] at hlast
    exact ⟨t :: us, last, .token (t := t) hg hl ha.endsBefore rfl htiling,
      congrArg (l :: ·) hus, .cons ht hoffsets, hlast⟩

end Arrangement

/-- Tokens of the language that are arranged as text, with gaps of any choice that keep them apart,
are read back as they are and in their order.  Each is read from its offset in the text, with the
line and the column of that offset, and the end token from the end of the text. -/
theorem tokenize_arrangement {a : Arrangement} (h : a.IsSpaced none) :
    ∃ us last, tokenize (String.ofList a.text) = .ok (us ++ [last]) ∧
      us.map Token.lexeme = a.lexemes ∧
      List.Forall₂ (Token.IsAt a.text) us (a.offsets 0) ∧
      last.lexeme = (.endOfText, "") ∧ last.IsAt a.text a.text.length := by
  obtain ⟨us, last, htiling, hus, hoffsets, hlast⟩ := h.exists_tiling []
  obtain ⟨htokens, hfault⟩ := Cursor.scan_of_tiling (c := .ofText (String.ofList a.text)) htiling
    String.toList_ofList rfl
  exact ⟨us, last, tokenize_eq_ok_iff.mpr ⟨hfault, htokens⟩, hus, hoffsets, hlast⟩

/-- A block comment may open right behind an equals sign and hold a comment sign; a line comment
goes on past the end of a block comment, and the last one needs no newline. -/
theorem tokenize_arrangement_comments :
    ∃ a : Arrangement, a.IsSpaced none ∧ a.text = "a=#=#=#0X1f# =#\n0x,#".toList ∧
      ∃ us last, tokenize (String.ofList a.text) = .ok (us ++ [last]) ∧
        us.map Token.lexeme = [(.name, "a"), (.equals, "="), (.number, "0X1f"), (.number, "0x"),
          (.comma, ",")] ∧
        List.Forall₂ (Token.IsAt a.text) us [0, 1, 7, 16, 18] ∧
        last.lexeme = (.endOfText, "") ∧ last.IsAt a.text 20 := by
  let a : Arrangement :=
    .token [] (.name, "a") <| .token [] (.equals, "=") <|
    .token "#=#=#".toList (.number, "0X1f") <| .token "# =#\n".toList (.number, "0x") <|
    .token [] (.comma, ",") <| .ending "#".toList
  have hbody : IsCommentBody ['#'] := by
    rw [IsCommentBody]
    decide
  have hblock : Gap "#=#=#".toList := @Gap.blockComment ['#'] [] hbody .empty
  have hline : Gap "# =#\n".toList :=
    @Gap.lineComment " =#".toList [] (by decide) (by decide) .empty
  have hlast : LastGap "#".toList := @LastGap.lineComment [] [] .empty (by decide) (by decide)
  have hspaced : a.IsSpaced none :=
    ⟨.empty, ⟨'a', [], rfl, by decide, rfl⟩, by decide, .empty, ⟨'=', rfl, rfl⟩, by decide,
      hblock, ⟨'X', ['1', 'f'], rfl, .inr rfl, by decide⟩, by decide,
      hline, ⟨'x', [], rfl, .inl rfl, rfl⟩, by decide, .empty, ⟨',', rfl, rfl⟩, by decide, hlast⟩
  exact ⟨a, hspaced, rfl, tokenize_arrangement hspaced⟩

end HexDoc
