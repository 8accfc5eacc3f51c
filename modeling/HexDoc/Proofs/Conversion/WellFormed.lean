/-
HexDoc/Proofs/Conversion/WellFormed.lean

Well-formed values from the text on.  What is written comes to well-formed values, with repeated
names and keys put into one place each, so whatever a text is read as is well formed.  A resolved
value is a raw value with its references replaced by resolved values, and this keeps it well formed
and brings no number in that has not been in the environment before.

Main statement: both together, for every text that is read (`wellFormed_through_resolution`).
-/
import HexDoc.Proofs.Document.Foreign
import HexDoc.Proofs.Resolution.Meaning
import HexDoc.Proofs.Value.WellFormed

namespace HexDoc

/-! ### What is read -/

namespace Written

mutual

/-- What is written well means a well-formed value. -/
theorem wellFormed_value {w : Written} (h : w.WellFormed) : w.value.WellFormed := by
  match w with
  | .number l =>
    obtain ⟨u, hu⟩ := Option.isSome_iff_exists.mp h
    rw [value, hu]
    exact .number (Number.wellFormed_of_decode? hu)
  | .reference n =>
    rw [value]
    exact .reference h
  | .dict fs =>
    rw [value]
    apply Value.wellFormed_dict_iff.mpr
    exact Environment.wellFormed_collapse (wellFormed_valuesOfFields h)

theorem wellFormed_valuesOfFields {fs : List (Name × Written)} (h : WellFormedFields fs) :
    ∀ e ∈ valuesOfFields fs, IsName e.1 ∧ e.2.WellFormed := by
  match fs with
  | [] => simp [valuesOfFields]
  | (k, w) :: fs =>
    obtain ⟨hk, hw, hfs⟩ := h
    rw [valuesOfFields, List.forall_mem_cons]
    exact ⟨⟨hk, wellFormed_value hw⟩, wellFormed_valuesOfFields hfs⟩

end

end Written

/-- Whatever a text is read as is well formed. -/
theorem wellFormed_of_parse {text : String} {env : Environment} (h : parse text = .ok env) :
    env.WellFormed := by
  obtain ⟨d, hd, rfl⟩ := exists_document_of_parse h
  apply Environment.wellFormed_collapse
  rw [List.forall_mem_map]
  intro b hb
  obtain ⟨hn, hw⟩ := hd b hb
  exact ⟨hn, b.2.wellFormed_value hw⟩

/-! ### What is resolved -/

/-- Settled values of a well-formed environment are well formed. -/
theorem Settled.wellFormed {env c : Environment} (henv : env.WellFormed) (h : Settled env c) :
    c.WellFormed where
  distinct := h.nodup_keys
  names := by
    intro n hn
    obtain ⟨raw, hraw⟩ := h.isBound hn
    exact henv.names n (Entries.mem_keys_of_get? hraw)
  values := by
    intro b hb
    refine h.forall_value ?_ ((Entries.mem_iff_get? h.nodup_keys).mp hb)
    intro n raw v f hraw hv hf
    exact Value.wellFormed_of_replace (henv.values (n, raw) (Entries.mem_of_get? hraw)) hv hf

/-- Whatever a text is read as is well formed: names are bound once, the keys of a dictionary are
distinct at every depth, names, keys and references are names of the language, and a number is a
literal with the word it decodes to.  What it is resolved to is well formed as well, under the same
names; there is no reference left in it, and every number in it stands in the environment that has
been read. -/
theorem wellFormed_through_resolution {text : String} {env : Environment}
    (h : parse text = .ok env) :
    env.WellFormed ∧
      ∀ c, resolve env = .ok c →
        (∀ n, n ∈ c.keys ↔ n ∈ env.keys) ∧ c.WellFormed ∧ (∀ b ∈ c, b.2.references = []) ∧
          ∀ b ∈ c, ∀ m ∈ b.2.numbers, ∃ raw ∈ env, m ∈ raw.2.numbers := by
  have henv := wellFormed_of_parse h
  refine ⟨henv, ?_⟩
  intro c hc
  obtain ⟨hsettled, hkeys⟩ := settled_resolve hc
  refine ⟨hkeys, hsettled.wellFormed henv, ?_, ?_⟩
  · intro b hb
    exact (isResolved_of_resolve hc b hb).1
  · intro b hb
    exact hsettled.exists_raw_of_mem_numbers ((Entries.mem_iff_get? hsettled.nodup_keys).mp hb)

/-- A name and a key that are written twice, and a value that is copied through two references. -/
theorem wellFormed_through_resolution_repeated :
    ∃ env c : Environment,
      parse "a = 0x1\nb = \x7bk: 0x2, k: 0X00fF\x7d a = \x7bx: [b], y: [b]\x7d" = .ok env ∧
        env.keys = ["a", "b"] ∧ env.WellFormed ∧ resolve env = .ok c ∧ c.keys = ["b", "a"] ∧
        c.WellFormed ∧ (∀ b ∈ c, b.2.references = []) ∧
        ∀ b ∈ c, ∀ m ∈ b.2.numbers, m = ⟨"0X00fF", 255⟩ := by
  have hparse : parse "a = 0x1\nb = \x7bk: 0x2, k: 0X00fF\x7d a = \x7bx: [b], y: [b]\x7d" =
      .ok [("a", .dict [("x", .reference "b"), ("y", .reference "b")]),
        ("b", .dict [("k", .number ⟨"0X00fF", 255⟩)])] := by with_unfolding_all rfl
  have hresolve : resolve [("a", .dict [("x", .reference "b"), ("y", .reference "b")]),
        ("b", .dict [("k", .number ⟨"0X00fF", 255⟩)])] =
      .ok [("b", .dict [("k", .number ⟨"0X00fF", 255⟩)]),
        ("a", .dict [("x", .dict [("k", .number ⟨"0X00fF", 255⟩)]),
          ("y", .dict [("k", .number ⟨"0X00fF", 255⟩)])])] := by cbv
  obtain ⟨henv, hresolved⟩ := wellFormed_through_resolution hparse
  obtain ⟨-, hc, hreferences, hnumbers⟩ := hresolved _ hresolve
  refine ⟨_, _, hparse, rfl, henv, hresolve, rfl, hc, hreferences, ?_⟩
  intro b hb m hm
  obtain ⟨raw, hraw, hm⟩ := hnumbers b hb m hm
  simp only [List.mem_cons, List.not_mem_nil, or_false] at hraw
  rcases hraw with rfl | rfl
  · simp [Value.numbers, Value.numbersOfFields] at hm
  · simpa [Value.numbers, Value.numbersOfFields] using hm

end HexDoc
