/-
HexDoc/Proofs/Xml/Escape.lean

Attributes and their text.  Every character is escaped by itself, to an entity or to itself
(`escapeChar_cases`).  Only an entity starts with an ampersand, so a reader knows at every place
what to undo.

Main statements: every text is read back from its escaped form (`unescape?_escape`), and nothing
is left in that form that would end an attribute, its tag or its line (`notMem_escape`).
-/
import HexDoc.Xml.Reader

namespace HexDoc.Xml

/-- A character is escaped to its entity, or it has none and stays as it is. -/
theorem escapeChar_cases (c : Char) :
    (∃ e ∈ entities, e.2 = c ∧ escapeChar c = e.1) ∨
      c ∉ ['&', '<', '>', '\"', '\r', '\n', '\t'] ∧ escapeChar c = [c] := by
  unfold escapeChar
  split
  case h_8 =>
    refine .inr ⟨?_, rfl⟩
    simp_all
  all_goals
    refine .inl ⟨(_, _), ?_, rfl, rfl⟩
    decide

/-! ### Undoing the escapes -/

/-- An entity is found in front of any text. -/
theorem entity?_append {e : List Char × Char} (he : e ∈ entities) (cs : List Char) :
    entity? (e.1 ++ cs) = some (e.2, e.1.length) := by
  simp only [entities, List.mem_cons, List.not_mem_nil, or_false] at he
  rcases he with rfl | rfl | rfl | rfl | rfl | rfl | rfl <;> rfl

theorem unescape?_entity_append {e : List Char × Char} (he : e ∈ entities) (cs : List Char) :
    unescape? (e.1 ++ cs) = (unescape? cs).map (e.2 :: ·) := by
  have hentity := entity?_append he cs
  have hamp : ∀ e ∈ entities, e.1.head? = some '&' := by decide
  obtain ⟨rest, hrest⟩ := List.head?_eq_some_iff.mp (hamp e he)
  rw [hrest, List.cons_append] at hentity ⊢
  rw [unescape?, if_pos rfl]
  split
  · rename_i hnone
    cases hentity.symm.trans hnone
  · rename_i d n hsome
    cases hentity.symm.trans hsome
    simp

theorem unescape?_escapeChar_append (c : Char) (cs : List Char) :
    unescape? (escapeChar c ++ cs) = (unescape? cs).map (c :: ·) := by
  rcases escapeChar_cases c with ⟨e, he, rfl, hc⟩ | ⟨hc, heq⟩
  · rw [hc, unescape?_entity_append he]
  · have hamp : c ≠ '&' := by
      rintro rfl
      simp at hc
    rw [heq, List.singleton_append, unescape?, if_neg hamp]

/-- A text is read back from its escaped form. -/
theorem unescape?_escape (s : List Char) : unescape? (escape s) = some s := by
  induction s with
  | nil => rw [escape, List.flatMap_nil, unescape?]
  | cons c s ih =>
    calc unescape? (escape (c :: s))
        = unescape? (escapeChar c ++ escape s) := by rw [escape, List.flatMap_cons, ← escape]
      _ = (unescape? (escape s)).map (c :: ·) := unescape?_escapeChar_append c (escape s)
      _ = some (c :: s) := by rw [ih, Option.map_some]

/-! ### What is left -/

/-- No escaped text has a bracket, a quotation mark or a blank other than the space. -/
theorem notMem_escape {c : Char} (hc : c ∈ ['<', '>', '\"', '\r', '\n', '\t']) (s : List Char) :
    c ∉ escape s := by
  rw [escape, List.mem_flatMap]
  rintro ⟨d, -, hd⟩
  rcases escapeChar_cases d with ⟨e, he, -, hentity⟩ | ⟨hnone, hsame⟩
  · have hall : ∀ c ∈ ['<', '>', '\"', '\r', '\n', '\t'], ∀ e ∈ entities, c ∉ e.1 := by
      simp [entities]
    exact hall c hc e he (hentity ▸ hd)
  · rw [hsame, List.mem_singleton] at hd
    rw [← hd] at hnone
    exact hnone (List.mem_cons_of_mem _ hc)

end HexDoc.Xml
