/-
HexDoc/Proofs/Document/RoundTrip.lean

Documents and their texts.

Main statements: a well-formed document is read back from every text that its tokens can be laid
out as (`parse_layout`), and a text is read exactly when its tokens are those of a well-formed
document, of one document only, whose meaning is what has been read
(`parse_eq_ok_iff_document`).
-/
import HexDoc.Proofs.Document.Recognition
import HexDoc.Proofs.Token.Spacing

namespace HexDoc

/-! ### The tokens of a text -/

/-- The tokens of a layout are those that were laid out. -/
theorem tokenize_layout {ls : List Lexeme} {text : String} (hls : ∀ l ∈ ls, IsLexeme l)
    (h : Layout none ls text.toList) :
    ∃ us last, tokenize text = .ok (us ++ [last]) ∧ us.map Token.lexeme = ls ∧
      last.kind = .endOfText := by
  obtain ⟨hfault, us, last, htok, hus, hlast⟩ :=
    Cursor.scan_of_layout (c := .ofText text) h hls rfl
  exact ⟨us, last, tokenize_eq_ok_iff.mpr ⟨hfault, htok⟩, hus, hlast⟩

/-- The tokens of a text, up to the last, are tokens of the language. -/
theorem isLexeme_of_tokenize {text : String} {us : List Token} {last : Token}
    (h : tokenize text = .ok (us ++ [last])) : ∀ l ∈ us.map Token.lexeme, IsLexeme l := by
  obtain ⟨hfault, htok⟩ := tokenize_eq_ok_iff.mp h
  rcases (Cursor.ofText text).scan_shape with ⟨vs, v, hvs, -, -, hall⟩ | ⟨e, he, -⟩
  · obtain ⟨rfl, -⟩ := List.append_inj' (htok.symm.trans hvs) rfl
    rw [List.forall_mem_map]
    intro u hu
    refine (Cursor.ofText text).isLexeme_of_mem_scan u ?_ (hall u hu)
    rw [htok]
    exact List.mem_append_left _ hu
  · rw [hfault] at he
    cases he

/-! ### Documents and texts -/

/-- A well-formed document is read back, as what it means, from every text that its tokens can be
laid out as. -/
theorem parse_layout {d : WrittenDocument} {text : String} (hd : d.WellFormed)
    (h : Layout none d.lexemes text.toList) :
    parse text = .ok d.environment ∧ d.Means d.environment := by
  obtain ⟨us, last, htok, hus, hlast⟩ := tokenize_layout (WrittenDocument.isLexeme_of_mem hd) h
  have hfeed := DocumentState.feed_document hd [] []
  rw [← hus] at hfeed
  exact ⟨parse_eq_ok_iff.mpr ⟨us, last, _, htok, hlast, hfeed, rfl, rfl⟩,
    WrittenDocument.means_environment hd⟩

/-- A name that is bound twice and a field that is given twice, with a comment where a number would
run on into the name behind it. -/
theorem parse_layout_repeated :
    ∃ d : WrittenDocument, d.WellFormed ∧
      Layout none d.lexemes "a=0x1#==#a = \x7bk: 0xF, k: [a]\x7d # end".toList ∧
      parse "a=0x1#==#a = \x7bk: 0xF, k: [a]\x7d # end" =
        .ok [("a", .dict [("k", .reference "a")])] := by
  let d : WrittenDocument :=
    [("a", .number "0x1"), ("a", .dict [("k", .number "0xF"), ("k", .reference "a")])]
  have hname (c : Char) (hc : isNameStart c = true) : IsName (String.ofList [c]) :=
    ⟨c, [], String.toList_ofList, hc, rfl⟩
  have hd : d.WellFormed := by
    refine List.forall_mem_cons.mpr ⟨⟨hname 'a' rfl, rfl⟩, List.forall_mem_singleton.mpr ?_⟩
    exact ⟨hname 'a' rfl, hname 'k' rfl, rfl, hname 'k' rfl, hname 'a' rfl, trivial⟩
  have hblank : Gap [' '] := .blank rfl .empty
  have hcomment : Gap ['#', '=', '=', '#'] :=
    @Gap.blockComment [] [] (by simp [IsCommentBody]) .empty
  have h : Layout none d.lexemes "a=0x1#==#a = \x7bk: 0xF, k: [a]\x7d # end".toList := by
    refine .token .empty (by decide) ?_
    refine .token .empty (by decide) ?_
    refine .token .empty (by decide) ?_
    -- the number would run on into the name
    refine .token hcomment (by decide) ?_
    refine .token hblank (by decide) ?_
    refine .token hblank (by decide) ?_
    refine .token .empty (by decide) ?_
    refine .token .empty (by decide) ?_
    refine .token hblank (by decide) ?_
    refine .token .empty (by decide) ?_
    refine .token hblank (by decide) ?_
    refine .token .empty (by decide) ?_
    refine .token hblank (by decide) ?_
    refine .token .empty (by decide) ?_
    refine .token .empty (by decide) ?_
    refine .token .empty (by decide) ?_
    exact .stop (.lineComment hblank (by decide) (by decide))
  exact ⟨d, hd, h, (parse_layout hd h).1⟩

/-- A text is read exactly when its tokens, up to the end token, are those of a well-formed
document; there is one such document only, and what has been read is what it means. -/
theorem parse_eq_ok_iff_document {text : String} {env : Environment} :
    parse text = .ok env ↔
      ∃ us last, tokenize text = .ok (us ++ [last]) ∧ last.kind = .endOfText ∧
        ∃ d : WrittenDocument, d.WellFormed ∧ d.lexemes = us.map Token.lexeme ∧ d.Means env ∧
          ∀ d' : WrittenDocument, d'.lexemes = us.map Token.lexeme → d' = d := by
  rw [parse_eq_ok_iff]
  constructor
  · rintro ⟨us, last, s, htok, hlast, hfeed, hb, rfl⟩
    obtain ⟨d, hd, hlex, rfl⟩ :=
      (DocumentState.feed_initial_eq_ok_iff (isLexeme_of_tokenize htok)).mp ⟨hfeed, hb⟩
    refine ⟨us, last, htok, hlast, d, hd, hlex, WrittenDocument.means_environment hd, ?_⟩
    intro d' hd'
    exact WrittenDocument.lexemes_injective (hd'.trans hlex.symm)
  · rintro ⟨us, last, htok, hlast, d, hd, hlex, hmeans, -⟩
    have hfeed := DocumentState.feed_document hd [] []
    rw [hlex] at hfeed
    exact ⟨us, last, _, htok, hlast, hfeed, rfl, hmeans.eq_environment.symm⟩

end HexDoc
