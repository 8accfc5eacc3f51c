/-
HexDoc/Proofs/Conversion/Spelling.lean

Neither the layout of a document nor the spelling of its numbers matters to what it converts to.
Environments that are the same, spelling apart, are written alike
(`Conversion.writeResolved_unspelled`), and they resolve alike.

Main statement: two texts whose tokens agree one by one convert to the same document, or fail
alike; where the fault is a token, it is the token of the same index (`convert_of_agrees`).
-/
import HexDoc.Proofs.Conversion.Failures
import HexDoc.Proofs.Parser.Spelling
import HexDoc.Proofs.Resolution.Spelling
import HexDoc.Proofs.Token.Lossless

namespace HexDoc

/-- An environment is written by its data. -/
theorem Format.write_congr {env env' : Environment} (h : env.plain = env'.plain) (f : Format) :
    f.write env = f.write env' := by
  cases f with
  | xml => rw [Format.write, Format.write, Xml.write_eq, Xml.write_eq, h]
  | yaml => rw [Format.write, Format.write, Yaml.write, Yaml.write, h]

/-- Spelling does not matter to writing. -/
theorem Conversion.writeResolved_unspelled (env : Environment) (f : Format) :
    writeResolved (Value.unspelledFields env) f = writeResolved env f := by
  have hnest : Value.fieldsNestWithin deepestWritten (Value.unspelledFields env) =
      Value.fieldsNestWithin deepestWritten env := by
    rw [Bool.eq_iff_iff, Value.fieldsNestWithin_iff, Value.fieldsNestWithin_iff,
      Value.nestingOfFields_unspelledFields]
  have hwrite : f.write (Value.unspelledFields env) = f.write env :=
    Format.write_congr (Value.plainFields_unspelledFields env) f
  rw [writeResolved, writeResolved, hnest, hwrite]

/-- Environments that are the same, spelling apart, resolve to the same error or to environments
that are the same, spelling apart. -/
theorem resolve_of_unspelled_eq {env env' : Environment}
    (h : Value.unspelledFields env = Value.unspelledFields env') :
    (∃ e, resolve env = .error e ∧ resolve env' = .error e) ∨
      ∃ c c', resolve env = .ok c ∧ resolve env' = .ok c' ∧
        Value.unspelledFields c = Value.unspelledFields c' := by
  apply Outcome.cases_of_map_eq
  rw [← resolve_unspelled, h, resolve_unspelled]

/-- Texts whose tokens agree one by one, by kind and text or as numbers that stand for the same
word, convert to the same document, or fail alike: with the same error of the resolution, with the
same complaint about the nesting, or with the same fault at tokens of the same index. -/
theorem convert_of_agrees {s t : String} {ts us : List Token} (hs : tokenize s = .ok ts)
    (ht : tokenize t = .ok us) (h : List.Forall₂ Token.Agrees ts us) (f : Format) :
    (∃ document, convert s f = .ok document ∧ convert t f = .ok document) ∨
      (∃ e, convert s f = .error (.resolve e) ∧ convert t f = .error (.resolve e)) ∨
      (convert s f = .error (.tooDeep f) ∧ convert t f = .error (.tooDeep f)) ∨
      ∃ (i : Nat) (u v : Token) (fault : GrammarFault), ts[i]? = some u ∧ us[i]? = some v ∧
        convert s f = .error (.read (.grammatical ⟨u.position, fault⟩)) ∧
        convert t f = .error (.read (.grammatical ⟨v.position, fault⟩)) := by
  simp only [convert, Conversion.result_ofText_eq]
  rcases parse_of_agrees hs ht h with
    ⟨env, env', hparse, hparse', henv⟩ | ⟨i, u, v, fault, hu, hv, hparse, hparse'⟩
  · rcases resolve_of_unspelled_eq henv with ⟨e, he, he'⟩ | ⟨c, c', hc, hc', hcc⟩
    · exact .inr (.inl ⟨e, by simp only [hparse, he], by simp only [hparse', he']⟩)
    · have hwrite : Conversion.writeResolved c f = Conversion.writeResolved c' f := by
        rw [← Conversion.writeResolved_unspelled c, hcc, Conversion.writeResolved_unspelled]
      simp only [hparse, hparse', hc, hc', ← hwrite]
      rcases Conversion.writeResolved_cases f (isResolved_of_resolve hc) with ⟨d, hd⟩ | hdeep
      · exact .inl ⟨d, hd, hd⟩
      · exact .inr (.inr (.inl ⟨hdeep, hdeep⟩))
  · refine .inr (.inr (.inr ⟨i, u, v, fault, hu, hv, ?_, ?_⟩))
    · rw [hparse]
    · rw [hparse']

/-- One document in two layouts, with a digit above the low 64 bits in one of them. -/
theorem convert_of_agrees_above :
    ∃ ts us, tokenize "a = 0x7" = .ok ts ∧
      tokenize "a=0X10000000000000007#z\n" = .ok us ∧ List.Forall₂ Token.Agrees ts us ∧
      convert "a = 0x7" .yaml = .ok "a: 7\n" ∧
      convert "a=0X10000000000000007#z\n" .yaml = .ok "a: 7\n" := by
  let ts : List Token := [⟨.name, "a", ⟨1, 1⟩⟩, ⟨.equals, "=", ⟨1, 3⟩⟩, ⟨.number, "0x7", ⟨1, 5⟩⟩,
    ⟨.endOfText, "", ⟨1, 8⟩⟩]
  let us : List Token := [⟨.name, "a", ⟨1, 1⟩⟩, ⟨.equals, "=", ⟨1, 2⟩⟩,
    ⟨.number, "0X10000000000000007", ⟨1, 3⟩⟩, ⟨.endOfText, "", ⟨2, 1⟩⟩]
  have hname : IsLexeme (.name, "a") := ⟨'a', [], by decide, rfl, rfl⟩
  have hequals : IsLexeme (.equals, "=") := ⟨'=', by decide, rfl⟩
  have hts : Tiling .start "a = 0x7".toList ts none := by
    have hblank : Gap [' '] := .blank rfl .empty
    refine @Tiling.token _ [] " = 0x7".toList ⟨.name, "a", _⟩ _ _ .empty hname ?_ rfl ?_
    · rintro c ⟨⟩
      rfl
    refine @Tiling.token _ [' '] " 0x7".toList ⟨.equals, "=", _⟩ _ _ hblank hequals ?_ rfl ?_
    · rintro c ⟨⟩
      rfl
    refine @Tiling.token _ [' '] [] ⟨.number, "0x7", _⟩ _ _ hblank
      ⟨'x', ['7'], by decide, .inl rfl, rfl⟩ ?_ rfl ?_
    · rintro c ⟨⟩
    exact .finished (.gap .empty)
  have hus : Tiling .start "a=0X10000000000000007#z\n".toList us none := by
    refine @Tiling.token _ [] "=0X10000000000000007#z\n".toList ⟨.name, "a", _⟩ _ _ .empty hname
      ?_ rfl ?_
    · rintro c ⟨⟩
      rfl
    refine @Tiling.token _ [] "0X10000000000000007#z\n".toList ⟨.equals, "=", _⟩ _ _ .empty
      hequals ?_ rfl ?_
    · rintro c ⟨⟩
      rfl
    refine @Tiling.token _ [] "#z\n".toList ⟨.number, "0X10000000000000007", _⟩ _ _ .empty
      ⟨'X', "10000000000000007".toList, by decide, .inr rfl, by decide⟩ ?_ rfl ?_
    · rintro c ⟨⟩
      rfl
    exact .finished (.gap (@Gap.lineComment ['z'] [] (by simp) (by simp) .empty))
  have hs : tokenize "a = 0x7" = .ok ts :=
    tokenize_eq_ok_iff.mpr (Cursor.scan_of_tiling hts rfl rfl).symm
  have ht : tokenize "a=0X10000000000000007#z\n" = .ok us :=
    tokenize_eq_ok_iff.mpr (Cursor.scan_of_tiling hus rfl rfl).symm
  have hnumber : Token.Agrees ⟨.number, "0x7", ⟨1, 5⟩⟩
      ⟨.number, "0X10000000000000007", ⟨1, 3⟩⟩ :=
    .inr ⟨rfl, rfl, "7".toList, "10000000000000007".toList, rfl, rfl, rfl⟩
  have h : List.Forall₂ Token.Agrees ts us :=
    .cons (.inl rfl) (.cons (.inl rfl) (.cons hnumber (.cons (.inl rfl) .nil)))
  have hparse : parse "a = 0x7" = .ok [("a", .number ⟨"0x7", 7⟩)] := by
    obtain ⟨hfault, htokens⟩ := tokenize_eq_ok_iff.mp hs
    rw [parse_eq_run, hfault, htokens]
    rfl
  have hdoc : convert "a = 0x7" .yaml = .ok "a: 7\n" := by
    rw [convert, Conversion.result_ofText_eq, hparse]
    cbv
  refine ⟨ts, us, hs, ht, h, hdoc, ?_⟩
  rcases convert_of_agrees hs ht h .yaml with
    ⟨document, hd, hd'⟩ | ⟨e, he, -⟩ | ⟨hdeep, -⟩ | ⟨i, u, v, fault, -, -, he, -⟩
  · rw [hd', ← hd, hdoc]
  · cases hdoc.symm.trans he
  · cases hdoc.symm.trans hdeep
  · cases hdoc.symm.trans he

end HexDoc
