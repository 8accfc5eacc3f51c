/-
HexDoc/Proofs/Xml/Pieces.lean

Cutting the text of elements into tags and numbers again.  Blanks between them are skipped, a tag
ends at its first closing bracket, since neither a name nor an escaped attribute has one, and the
digits of a number end at the bracket of the next tag.

Main statements: the text of a start tag, of an end tag and of a number is cut off in front of
whatever comes after it (`pieces?_startTag`, `pieces?_endTag`, `pieces?_number`).
-/
import HexDoc.Proofs.Text.Span
import HexDoc.Proofs.Xml.Elements
import HexDoc.Proofs.Xml.Escape

namespace HexDoc.Xml

/-! ### Up to a character -/

theorem splitAt?_append {c : Char} {cs : List Char} (h : c ∉ cs) (ds : List Char) :
    splitAt? c (cs ++ c :: ds) = some (cs, ds) := by
  rw [splitAt?, dropWhile_ne_append h, takeWhile_ne_append h]

theorem splitAt?_of_notMem {c : Char} {cs : List Char} (h : c ∉ cs) : splitAt? c cs = none := by
  rw [splitAt?, dropWhile_ne_of_notMem h]

/-! ### One piece in front -/

variable {tag : String}

theorem pieces?_blank {c : Char} (hc : c = ' ' ∨ c = '\n') (cs : List Char) :
    pieces? (c :: cs) = pieces? cs := by
  have hbracket : c ≠ '<' := by
    rintro rfl
    simp at hc
  rw [pieces?_cons hbracket, if_pos hc]

theorem pieces?_indent (depth : Nat) (cs : List Char) :
    pieces? (indent depth ++ cs) = pieces? cs := by
  rw [indent]
  induction 2 * depth with
  | zero => rfl
  | succ n ih => rw [List.replicate_succ, List.cons_append, pieces?_blank (.inl rfl), ih]

theorem pieces?_endTag (htag : IsName tag) (cs : List Char) :
    pieces? (endTag tag ++ cs) = (pieces? cs).map (.endTag tag :: ·) := by
  have htext : endTag tag ++ cs = '<' :: '/' :: (tag.toList ++ '>' :: cs) := by simp [endTag]
  -- a name has no bracket, so the first one ends the tag
  have hsplit := splitAt?_append (notMem_name htag (c := '>') rfl) cs
  rw [htext, pieces?]
  split
  · rename_i hnone
    cases hsplit.symm.trans hnone
  · rename_i inner rest hsome
    cases hsplit.symm.trans hsome
    rw [String.ofList_toList]

/-- The text of a start tag between its brackets. -/
def inStartTag (tag : String) (name? : Option String) : List Char :=
  match name? with
  | none => tag.toList
  | some name => tag.toList ++ ' ' :: ("name=\"".toList ++ (escape name.toList ++ ['\"']))

theorem startTag_eq (tag : String) (name? : Option String) :
    startTag tag name? = '<' :: (inStartTag tag name? ++ ['>']) := by
  cases name? <;> simp [startTag, inStartTag]

theorem startTagOf?_inStartTag (htag : IsName tag) (name? : Option String) :
    startTagOf? (inStartTag tag name?) = some (.startTag tag name?) := by
  have htag : ' ' ∉ tag.toList := notMem_name htag rfl
  cases name? with
  | none => rw [startTagOf?, inStartTag, splitAt?_of_notMem htag, String.ofList_toList]
  | some name =>
    -- between the opening of the attribute and its last quotation mark stands the escaped name
    have hprefix : "name=\"".toList.isPrefixOf
        ("name=\"".toList ++ (escape name.toList ++ ['\"'])) = true :=
      List.isPrefixOf_iff_prefix.mpr (List.prefix_append _ _)
    have hlast : (("name=\"".toList ++ (escape name.toList ++ ['\"'])).getLast? == some '\"') =
        true := by
      rw [← List.append_assoc, List.getLast?_concat]
      rfl
    have hdrop : (("name=\"".toList ++ (escape name.toList ++ ['\"'])).drop 6).dropLast =
        escape name.toList :=
      List.dropLast_concat
    simp only [startTagOf?, inStartTag, splitAt?_append htag, hprefix, hlast, Bool.and_self, if_true,
      hdrop, unescape?_escape, Option.map_some, String.ofList_toList]

theorem notMem_inStartTag (htag : IsName tag) (name? : Option String) {c : Char}
    (hc : c ∈ ['>', '\n']) : c ∉ inStartTag tag name? := by
  have hall : ∀ c ∈ ['>', '\n'], isNameChar c = false ∧
      c ∈ ['<', '>', '\"', '\r', '\n', '\t'] ∧ c ∉ ' ' :: "name=\"".toList := by
    simp [isNameChar, isNameStart]
  obtain ⟨hname, hescape, hattr⟩ := hall c hc
  have htag : c ∉ tag.toList := notMem_name htag hname
  cases name? with
  | none => exact htag
  | some name =>
    have hvalue : c ∉ escape name.toList := notMem_escape hescape name.toList
    simp_all [inStartTag]

theorem pieces?_startTag (htag : IsName tag) (name? : Option String) (cs : List Char) :
    pieces? (startTag tag name? ++ cs) = (pieces? cs).map (.startTag tag name? :: ·) := by
  have hsplit := splitAt?_append (notMem_inStartTag htag name? (c := '>') (by simp)) cs
  -- a slash would make it an end tag, but a name does not start with one
  have hslash : ∀ ds, inStartTag tag name? ++ '>' :: cs ≠ '/' :: ds := by
    obtain ⟨c, tl, hc, hstart, -⟩ := htag
    intro ds hds
    have hslash : c = '/' := by
      cases name? <;> simp [inStartTag, hc] at hds <;> exact hds.1
    rw [hslash] at hstart
    cases hstart
  rw [startTag_eq, List.cons_append, List.append_assoc, List.singleton_append,
    pieces?_bracket hslash]
  simp only [hsplit, startTagOf?_inStartTag htag name?]

/-- Digits are cut off as a number where no digit follows. -/
theorem pieces?_number (n : Nat) {cs : List Char} (hcs : ∀ c ∈ cs.head?, c.isDigit = false) :
    pieces? (Nat.toDigits 10 n ++ cs) = (pieces? cs).map (.number n :: ·) := by
  obtain ⟨d, ds, hn, hd, hds⟩ := exists_toDigits_eq_cons n
  have hvalue : Nat.ofDigitChars 10 (d :: ds) 0 = n := by
    rw [← hn, Nat.ofDigitChars_ten_toDigits]
  have hne {c : Char} (hc : c.isDigit = false) : d ≠ c := by
    rintro rfl
    cases hd.symm.trans hc
  rw [hn, List.cons_append, pieces?_cons (hne rfl),
    if_neg (by simp [hne (c := ' ') rfl, hne (c := '\n') rfl]), if_pos hd,
    takeWhile_append_stop hds hcs, dropWhile_append_stop hds hcs, hvalue]

end HexDoc.Xml
