/-
HexDoc/Proofs/Value/WellFormed.lean

Values as documents have them.  A number is a literal with digits together with the word that this
literal is decoded to, a reference names something by a name, and a dictionary has names for keys,
none of them twice.  An environment is well formed as the fields of a dictionary are.

Main statements: entries that are put one after the other, keys repeated or not, come to well-formed
fields if all of them are well formed (`Environment.wellFormed_collapse`), and a well-formed value
stays so when its references are replaced by well-formed values (`Value.wellFormed_of_replace`).
-/
import HexDoc.Proofs.Document.Collapse
import HexDoc.Proofs.Hex.Positional
import HexDoc.Proofs.Resolution.Replacement

namespace HexDoc

/-! ### Well-formed values -/

/-- A literal, one digit at least, with the word that it is decoded to. -/
structure Number.WellFormed (n : Number) : Prop where
  literal : ∃ x ds, n.lexeme = Hex.literal x ds ∧ Hex.IsSign x ∧ Hex.AreDigits ds
  decoded : Hex.decode? n.lexeme = some n.value
  bounded : n.value.toNat < 2 ^ 64

/-- A well-formed number, a reference by a name, or a dictionary with names for keys, no key twice
and well-formed values.  There is no such thing as a well-formed foreign value. -/
inductive Value.WellFormed : Value → Prop
  | number {n : Number} : n.WellFormed → WellFormed (.number n)
  | reference {n : Name} : IsName n → WellFormed (.reference n)
  | dict {fs : Fields} :
      fs.keys.Nodup → (∀ k ∈ fs.keys, IsName k) → (∀ f ∈ fs, f.2.WellFormed) →
      WellFormed (.dict fs)

/-- Names that are bound once each, to well-formed values. -/
structure Environment.WellFormed (env : Environment) : Prop where
  distinct : env.keys.Nodup
  names : ∀ n ∈ env.keys, IsName n
  values : ∀ b ∈ env, b.2.WellFormed

/-- What decodes to its word is a well-formed number. -/
theorem Number.wellFormed_of_decode? {n : Number} (h : Hex.decode? n.lexeme = some n.value) :
    n.WellFormed where
  literal := Hex.exists_decode?_iff.mp ⟨n.value, h⟩
  decoded := h
  bounded := n.value.toNat_lt

/-- A dictionary is well formed as an environment of its fields is. -/
theorem Value.wellFormed_dict_iff {fs : Fields} :
    (Value.dict fs).WellFormed ↔ Environment.WellFormed fs := by
  constructor
  · rintro ⟨⟩
    constructor <;> assumption
  · rintro ⟨hdistinct, hnames, hvalues⟩
    exact .dict hdistinct hnames hvalues

/-! ### Entries put one after the other -/

/-- Well-formed entries come to well-formed fields, whichever keys are repeated. -/
theorem Environment.wellFormed_collapse {es : List (Name × Value)}
    (h : ∀ e ∈ es, IsName e.1 ∧ e.2.WellFormed) :
    Environment.WellFormed (Entries.collapse es) where
  distinct := Entries.nodup_keys_collapse es
  names := by
    rw [Entries.keys, List.forall_mem_map]
    intro e he
    exact (h e (Entries.mem_of_mem_collapse he)).1
  values := fun e he => (h e (Entries.mem_of_mem_collapse he)).2

/-! ### References replaced -/

namespace Value

variable {f : Name → Except ResolveError Value}

mutual

/-- Replacing references by well-formed values keeps a value well formed. -/
theorem wellFormed_of_replace {v w : Value} (hv : v.WellFormed) (h : v.replace f = .ok w)
    (hf : ∀ n ∈ v.references, ∀ u, f n = .ok u → u.WellFormed) : w.WellFormed := by
  match v with
  | .number n =>
    cases h
    exact hv
  | .foreign k => cases h
  | .reference n => exact hf n (by simp [references]) w h
  | .dict fs =>
    obtain ⟨fs', hs, rfl⟩ := replace_dict_eq_ok_iff.mp h
    obtain ⟨hdistinct, hnames, hvalues⟩ := wellFormed_dict_iff.mp hv
    have hkeys := keys_of_replaceFields hs
    apply wellFormed_dict_iff.mpr
    constructor
    · rwa [hkeys]
    · rwa [hkeys]
    · exact wellFormed_of_replaceFields hvalues hs (by simpa [references] using hf)

theorem wellFormed_of_replaceFields {fs fs' : List (Name × Value)}
    (hfs : ∀ b ∈ fs, b.2.WellFormed) (h : replaceFields f fs = .ok fs')
    (hf : ∀ n ∈ referencesOfFields fs, ∀ u, f n = .ok u → u.WellFormed) :
    ∀ b ∈ fs', b.2.WellFormed := by
  match fs with
  | [] =>
    cases h
    simp
  | (k, v) :: fs =>
    obtain ⟨v', rest, hv, hs, rfl⟩ := replaceFields_cons_eq_ok_iff.mp h
    obtain ⟨hvw, hfs⟩ := List.forall_mem_cons.mp hfs
    simp only [referencesOfFields, List.mem_append] at hf
    rw [List.forall_mem_cons]
    constructor
    · exact wellFormed_of_replace hvw hv fun n hn => hf n (.inl hn)
    · exact wellFormed_of_replaceFields hfs hs fun n hn => hf n (.inr hn)

end

end Value

end HexDoc
