/-
HexDoc/Proofs/Document/Standing.lean

Errors that stand whatever is written below.  An error at a token is found once that token is
there, and a character that nothing begins with stays what it is, so neither sees the text below.
The other two do: a comment that is left open may be closed further down, and where a document
stops too early its end moves down.

`ReadError.IsWithin` says that an error is of the first sort.  Main statement: these are exactly
the errors that stand (`parse_error_stands_iff`).
-/
import HexDoc.Proofs.Token.Above

namespace HexDoc

/-- Whether an error is one of a character or of a token of a text, and neither of a comment that
the text leaves open nor of its end. -/
def ReadError.IsWithin (text : String) : ReadError → Prop
  | .lexical e => ∃ c, e.fault = .unexpected c
  | .grammatical e =>
    ∃ t ∈ (Cursor.ofText text).scan.tokens, t.kind ≠ .endOfText ∧ t.position = e.position

/-! ### What is read above -/

/-- The characters of a text with another one below. -/
theorem toList_above (text text' : String) :
    (text ++ "\n" ++ text').toList = text.toList ++ '\n' :: text'.toList := by
  simp

/-- With a text below, a text is tiled as far as before, and then what is left together with the
text below. -/
theorem scan_of_tiledUpTo {text text' : String} {us : List Token} {q : Position}
    {tail : List Char} (h : TiledUpTo .start text.toList us q tail) {ts : List Token}
    {e? : Option LexError} (htail : Tiling q (tail ++ '\n' :: text'.toList) ts e?) :
    (Cursor.ofText (text ++ "\n" ++ text')).scan.tokens = us ++ ts ∧
      (Cursor.ofText (text ++ "\n" ++ text')).scan.fault? = e? := by
  rw [scan_iff_tiling, toList_above]
  exact h.below htail

/-- A text that is tiled up to a tail goes on somehow. -/
theorem exists_scan_of_tiledUpTo {text : String} {us : List Token} {q : Position}
    {tail : List Char} (h : TiledUpTo .start text.toList us q tail) (text' : String) :
    ∃ ts, (Cursor.ofText (text ++ "\n" ++ text')).scan.tokens = us ++ ts :=
  ⟨_, (scan_of_tiledUpTo h (Cursor.tiling_scan ⟨tail ++ '\n' :: text'.toList, 0, q⟩)).1⟩

/-! ### Errors within a text -/

/-- A character that nothing begins with is reported whatever is below. -/
theorem parse_unexpected_above {text : String} {e : LexError} {c : Char}
    (h : parse text = .error (.lexical e)) (hc : e.fault = .unexpected c) (text' : String) :
    parse (text ++ "\n" ++ text') = .error (.lexical e) := by
  obtain ⟨us, q, tail, last, htok, htail, hus⟩ := (Cursor.ofText text).tiling_scan.exists_tail
  have hfault := fault_of_parse h
  have hbelow : Tiling q (tail ++ '\n' :: text'.toList) last (some e) := by
    rw [hfault] at htail
    generalize hf? : some e = f? at htail
    cases htail with
    | finished => cases hf?
    | openComment =>
      cases hf?
      cases hc
    | unexpected hg hcs =>
      rw [List.append_assoc]
      exact .unexpected hg (hcs.above _)
  obtain ⟨htok', hfault'⟩ := scan_of_tiledUpTo hus hbelow
  rw [← h]
  exact parse_of_scan_eq (htok'.trans htok.symm) (hfault'.trans hfault.symm)

/-- An error at a token is reported whatever is below. -/
theorem parse_misfit_above {text : String} {e : GrammarError}
    (h : parse text = .error (.grammatical e)) (he : (ReadError.grammatical e).IsWithin text)
    (text' : String) : parse (text ++ "\n" ++ text') = .error (.grammatical e) := by
  obtain ⟨us, q, tail, last, htok, htail, hus⟩ := (Cursor.ofText text).tiling_scan.exists_tail
  obtain ⟨vs, v, rest, s, hvs, hs, hv, hend, hplace⟩ := exists_of_parse_grammatical h
  obtain ⟨t, ht, hkind, hposition⟩ := he
  have hbefore : t.position.IsBefore q := by
    rw [htok, List.mem_append] at ht
    exact (hus.before t (ht.resolve_right fun ht => hkind (by rw [htail.eq_of_mem ht]))).2
  -- the token that does not fit is not the end of the text, which stands behind
  have hv_last : v ∉ last := by
    intro hmem
    rw [hposition, hplace, htail.eq_of_mem hmem] at hbefore
    exact Position.not_isBefore_self _ (hbefore.past tail)
  obtain ⟨ts, hts⟩ := exists_scan_of_tiledUpTo hus text'
  have hsplit : ∃ rest', (Cursor.ofText (text ++ "\n" ++ text')).scan.tokens =
      vs ++ v :: rest' := by
    rcases List.append_eq_append_iff.mp (htok.symm.trans hvs) with
      ⟨ws, rfl, hws⟩ | ⟨ws, rfl, hws⟩
    · exact absurd (by rw [hws]; simp) hv_last
    · cases ws with
      | nil => exact absurd (by rw [← List.nil_append last, ← hws]; simp) hv_last
      | cons w ws =>
        obtain ⟨rfl, -⟩ := List.cons.inj hws
        exact ⟨ws ++ ts, by rw [hts]; simp⟩
  obtain ⟨rest', htok'⟩ := hsplit
  rw [parse_eq_grammatical htok' hs hv hend, ← hplace]

/-! ### Errors at the end of a text -/

/-- A comment that is left open is not reported once it is closed. -/
theorem parse_openComment_below {text : String} {e : LexError}
    (h : parse text = .error (.lexical e)) (he : e.fault = .openComment) :
    parse (text ++ "\n" ++ "=#") ≠ .error (.lexical e) := by
  obtain ⟨us, q, tail, last, -, htail, hus⟩ := (Cursor.ofText text).tiling_scan.exists_tail
  have hclosed : ∃ ts, Tiling q (tail ++ '\n' :: "=#".toList) ts none := by
    rw [fault_of_parse h] at htail
    generalize hf? : some e = f? at htail
    cases htail with
    | finished => cases hf?
    | openComment hg hcs => exact ⟨_, .finished (.gap (hg.close hcs))⟩
    | unexpected =>
      cases hf?
      cases he
  obtain ⟨ts, hts⟩ := hclosed
  intro h'
  have hfault := fault_of_parse h'
  rw [(scan_of_tiledUpTo hus hts).2] at hfault
  cases hfault

/-- An error at the end of a text is not reported there once there is another line. -/
theorem parse_end_below {text : String} {e : GrammarError}
    (h : parse text = .error (.grammatical e)) (he : ¬ (ReadError.grammatical e).IsWithin text) :
    parse (text ++ "\n" ++ "") ≠ .error (.grammatical e) := by
  obtain ⟨us, q, tail, last, htok, htail, hus⟩ := (Cursor.ofText text).tiling_scan.exists_tail
  obtain ⟨vs, v, rest, s, hvs, -, -, -, hplace⟩ := exists_of_parse_grammatical h
  have hmem : v ∈ (Cursor.ofText text).scan.tokens := by rw [hvs]; simp
  have hv_last : v ∈ last := by
    rw [htok, List.mem_append] at hmem
    refine hmem.resolve_left fun hv => he ⟨v, ?_, (hus.before v hv).1, hplace.symm⟩
    rw [htok]
    exact List.mem_append_left last hv
  have hplace_end : e.position = q.past tail := by rw [hplace, htail.eq_of_mem hv_last]
  generalize (Cursor.ofText text).scan.fault? = f? at htail
  cases htail with
  | finished hg =>
    -- the same tokens, and the end a line further down
    have hgap : LastGap (tail ++ '\n' :: "".toList) := .gap hg.newline
    obtain ⟨htok', -⟩ := scan_of_tiledUpTo hus (.finished hgap)
    intro h'
    obtain ⟨ws, w, rest', s', hws, -, -, -, hplace'⟩ := exists_of_parse_grammatical h'
    have hw : w ∈ us ++ [⟨.endOfText, "", q.past (tail ++ '\n' :: "".toList)⟩] := by
      rw [← htok', hws]
      simp
    rcases List.mem_append.mp hw with hw | hw
    · have hbefore := ((hus.before w hw).2).past tail
      rw [← hplace', hplace_end] at hbefore
      exact Position.not_isBefore_self _ hbefore
    · rw [List.mem_singleton] at hw
      have hbefore := Position.isBefore_past (List.cons_ne_nil '\n' "".toList) (q.past tail)
      rw [← Position.past_append, ← hplace_end, hplace', hw] at hbefore
      exact Position.not_isBefore_self _ hbefore
  | openComment => cases hv_last
  | unexpected => cases hv_last

/-- An error is one of a character or of a token of a text exactly when it is reported, at the same
place and in the same words, whatever is written below the text. -/
theorem parse_error_stands_iff {text : String} {e : ReadError} (h : parse text = .error e) :
    e.IsWithin text ↔ ∀ text', parse (text ++ "\n" ++ text') = .error e := by
  rcases e with e | e
  · constructor
    · rintro ⟨c, hc⟩
      exact parse_unexpected_above h hc
    · intro hall
      rcases hf : e.fault with - | c
      · exact absurd (hall "=#") (parse_openComment_below h hf)
      · exact ⟨c, hf⟩
  · constructor
    · exact parse_misfit_above h
    · intro hall
      by_contra he
      exact parse_end_below h he (hall "")

/-- A comment that is left open behind a token that does not fit is not reached, and closing it
makes no difference. -/
theorem parse_error_stands_before_openComment :
    parse "a = \x7bk: ] #=" = .error (.grammatical ⟨⟨1, 9⟩, .noValue .closeBracket⟩) ∧
      parse ("a = \x7bk: ] #=" ++ "\n" ++ "=# \x7d") =
        .error (.grammatical ⟨⟨1, 9⟩, .noValue .closeBracket⟩) := by
  have h : parse "a = \x7bk: ] #=" =
      .error (.grammatical ⟨⟨1, 9⟩, .noValue .closeBracket⟩) := by with_unfolding_all rfl
  have hmem : (⟨.closeBracket, "]", ⟨1, 9⟩⟩ : Token) ∈
      (Cursor.ofText "a = \x7bk: ] #=").scan.tokens := by with_unfolding_all decide
  exact ⟨h, (parse_error_stands_iff h).mp ⟨_, hmem, by decide, rfl⟩ _⟩

end HexDoc
