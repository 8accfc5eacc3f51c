/-
HexDoc/Proofs/Document/Foreign.lean

A document cannot write a foreign value: the only values that the language has are numbers,
references and dictionaries of these.

Main statement: whatever a text is read as has no foreign values (`foreignKinds_of_parse`).
-/
import HexDoc.Proofs.Document.RoundTrip
import HexDoc.Proofs.Value.Data

namespace HexDoc

namespace Written

mutual

/-- What is written has no foreign values. -/
theorem foreignKinds_value (w : Written) : w.value.foreignKinds = [] := by
  match w with
  | .number l => rw [value, Value.foreignKinds]
  | .reference n => rw [value, Value.foreignKinds]
  | .dict fs =>
    rw [value, Value.foreignKinds, Value.foreignKindsOfFields_eq_nil_iff]
    exact fun f hf => foreignKinds_valuesOfFields fs f (Entries.mem_of_mem_collapse hf)

theorem foreignKinds_valuesOfFields (fs : List (Name × Written)) :
    ∀ f ∈ valuesOfFields fs, f.2.foreignKinds = [] := by
  match fs with
  | [] => simp [valuesOfFields]
  | (k, w) :: fs =>
    rw [valuesOfFields]
    exact List.forall_mem_cons.mpr ⟨foreignKinds_value w, foreignKinds_valuesOfFields fs⟩

end

end Written

/-- What a text is read as is the meaning of a well-formed document. -/
theorem exists_document_of_parse {text : String} {env : Environment} (h : parse text = .ok env) :
    ∃ d : WrittenDocument, d.WellFormed ∧ d.environment = env := by
  obtain ⟨us, last, s, htok, -, hfeed, hb, rfl⟩ := parse_eq_ok_iff.mp h
  obtain ⟨d, hd, -, rfl⟩ :=
    (DocumentState.feed_initial_eq_ok_iff (isLexeme_of_tokenize htok)).mp ⟨hfeed, hb⟩
  exact ⟨d, hd, rfl⟩

/-- A text is read as an environment without foreign values. -/
theorem foreignKinds_of_parse {text : String} {env : Environment} (h : parse text = .ok env)
    {n : Name} {raw : Value} (hraw : env.get? n = some raw) : raw.foreignKinds = [] := by
  obtain ⟨d, -, rfl⟩ := exists_document_of_parse h
  have hmem := Entries.mem_of_mem_collapse (Entries.mem_of_get? hraw)
  obtain ⟨b, -, heq⟩ := List.mem_map.mp hmem
  cases heq
  exact b.2.foreignKinds_value

end HexDoc
