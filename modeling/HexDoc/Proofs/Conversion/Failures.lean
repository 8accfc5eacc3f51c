/-
HexDoc/Proofs/Conversion/Failures.lean

How a conversion can end.  It reads, resolves and writes, and the first of these that fails gives
the failure (`Conversion.result_ofText_cases`).  Behind a step that succeeds, some failures of the
next one are out of the question:

  * a document has no foreign values, whatever its text (`foreignKinds_of_parse`), so resolving
    fails at an unbound name or on a cycle only (`resolveError_of_parse`);
  * what has been resolved has data (`isResolved_of_resolve`), so it is written unless it nests too
    deeply (`Conversion.writeResolved_cases`).

Main statement: these are all the failures there are, and depth alone decides behind reading and
resolving (`conversion_outcome`).
-/
import HexDoc.Conversion
import HexDoc.Proofs.Document.Foreign
import HexDoc.Proofs.Resolution.Errors
import HexDoc.Proofs.Xml.Elements

namespace HexDoc

/-! ### What stops the resolution of a document -/

/-- What has been read is not resolved for two reasons only: a name that is not bound, and a
cycle. -/
theorem resolveError_of_parse {text : String} {env : Environment} {e : ResolveError}
    (h : parse text = .ok env) (he : resolve env = .error e) :
    (∃ n, e = .unknown n) ∨ ∃ n, e = .cyclic n := by
  obtain ⟨m, hm⟩ := exists_atFault_of_resolve he
  cases e with
  | unknown n => exact .inl ⟨n, rfl⟩
  | cyclic n => exact .inr ⟨n, rfl⟩
  | foreign k =>
    obtain ⟨raw, hraw, hk⟩ := hm
    rw [foreignKinds_of_parse h hraw] at hk
    cases hk

/-! ### What has been resolved can be written -/

/-- Both formats write an environment of resolved values. -/
theorem Format.exists_write {env : Environment} (h : ∀ b ∈ env, b.2.IsResolved) (f : Format) :
    ∃ document, f.write env = .ok document := by
  obtain ⟨bs, hbs⟩ := Environment.exists_plain_iff.mpr h
  cases f with
  | xml => exact ⟨_, by rw [Format.write, Xml.write_eq, hbs]; rfl⟩
  | yaml => exact ⟨_, by rw [Format.write, Yaml.write, hbs]; rfl⟩

namespace Conversion

/-- Resolved values are written exactly as far as the limit on nesting allows. -/
theorem writeResolved_of_le {resolved : Environment} {f : Format}
    (hres : ∀ b ∈ resolved, b.2.IsResolved)
    (h : ∀ b ∈ resolved, b.2.nesting ≤ deepestWritten) :
    ∃ document, writeResolved resolved f = .ok document := by
  obtain ⟨document, hdoc⟩ := Format.exists_write hres f
  have hnest := (Value.fieldsNestWithin_iff _ _).mpr (Value.nestingOfFields_le_iff.mpr h)
  exact ⟨document, by rw [writeResolved, if_pos hnest, hdoc]; rfl⟩

theorem writeResolved_of_lt {resolved : Environment} {f : Format}
    (h : ∃ b ∈ resolved, deepestWritten < b.2.nesting) :
    writeResolved resolved f = .error (.tooDeep f) := by
  obtain ⟨b, hb, hdeep⟩ := h
  have hnest : ¬ Value.fieldsNestWithin deepestWritten resolved = true := by
    rw [Value.fieldsNestWithin_iff, Value.nestingOfFields_le_iff]
    exact fun hall => absurd (hall b hb) (by omega)
  rw [writeResolved, if_neg hnest]

theorem writeResolved_cases {resolved : Environment} (f : Format)
    (hres : ∀ b ∈ resolved, b.2.IsResolved) :
    (∃ document, writeResolved resolved f = .ok document) ∨
      writeResolved resolved f = .error (.tooDeep f) := by
  by_cases h : ∀ b ∈ resolved, b.2.nesting ≤ deepestWritten
  · exact .inl (writeResolved_of_le hres h)
  · refine .inr (writeResolved_of_lt ?_)
    simpa using h

end Conversion

/-! ### The whole conversion -/

theorem Format.ofWord?_word (f : Format) : Format.ofWord? f.word = some f := by
  cases f <;> rfl

namespace Conversion

theorem result_ofResolved (resolved : Environment) (f : Format) :
    (ofResolved resolved f).result = writeResolved resolved f := by
  unfold ofResolved
  rcases writeResolved resolved f <;> rfl

theorem result_ofEnvironment (env : Environment) (f : Format) :
    (ofEnvironment env f).result =
      match resolve env with
      | .error e => .error (.resolve e)
      | .ok resolved => writeResolved resolved f := by
  rw [resolve, ofEnvironment]
  rcases (Resolver.ofEnvironment env).all.result with e | resolved
  · rfl
  · exact result_ofResolved resolved f

/-- A conversion reads, resolves and writes, up to the first failure. -/
theorem result_ofText_eq (text : String) (f : Format) :
    (ofText text f).result =
      match parse text with
      | .error e => .error (.read e)
      | .ok env =>
        match resolve env with
        | .error e => .error (.resolve e)
        | .ok resolved => writeResolved resolved f := by
  unfold parse ofText
  rcases readDocument text with ⟨e | env, names⟩
  · rfl
  · exact result_ofEnvironment env f

theorem result_ofText_cases (text : String) (f : Format) :
    (∃ e, parse text = .error e ∧ (ofText text f).result = .error (.read e)) ∨
    (∃ env e, parse text = .ok env ∧ resolve env = .error e ∧
      (ofText text f).result = .error (.resolve e)) ∨
    ∃ env resolved, parse text = .ok env ∧ resolve env = .ok resolved ∧
      (ofText text f).result = writeResolved resolved f := by
  rw [result_ofText_eq]
  rcases parse text with e | env
  · exact .inl ⟨e, rfl, rfl⟩
  · rcases hresolve : resolve env with e | resolved
    · exact .inr (.inl ⟨env, e, rfl, hresolve, by simp only [hresolve]⟩)
    · exact .inr (.inr ⟨env, resolved, rfl, hresolve, by simp only [hresolve]⟩)

theorem result_ofText {text : String} {env resolved : Environment} {f : Format}
    (hparse : parse text = .ok env) (hresolve : resolve env = .ok resolved) :
    (ofText text f).result = writeResolved resolved f := by
  rw [result_ofText_eq, hparse]
  simp only [hresolve]

end Conversion

/-- A conversion gives a document, or it stops at the first token that cannot be read or does not
fit, at an unbound name, at a cycle, or because values nest too deeply.  The last is possible only
behind reading and resolving; there, resolved values that nest at most 150 dictionaries are always
written, and one that nests 1000 or more never is. -/
theorem conversion_outcome (text : String) (f : Format) :
    let outcome := (Conversion.ofTextTo text f.word).result
    ((∃ document, outcome = .ok document) ∨
      (∃ e, outcome = .error (.read (.lexical e))) ∨
      (∃ e, outcome = .error (.read (.grammatical e))) ∨
      (∃ n, outcome = .error (.resolve (.unknown n))) ∨
      (∃ n, outcome = .error (.resolve (.cyclic n))) ∨
      outcome = .error (.tooDeep f)) ∧
    (Failure.tooDeep f).render =
      "Parse error at 0:0: Values nested too deeply to write as " ++ f.word ∧
    (outcome = .error (.tooDeep f) →
      ∃ env resolved, parse text = .ok env ∧ resolve env = .ok resolved) ∧
    ∀ env resolved, parse text = .ok env → resolve env = .ok resolved →
      ((∀ b ∈ resolved, b.2.nesting ≤ 150) → ∃ document, outcome = .ok document) ∧
      ((∃ b ∈ resolved, 1000 ≤ b.2.nesting) → outcome = .error (.tooDeep f)) := by
  intro outcome
  have hout : outcome = (Conversion.ofText text f).result := by
    simp only [outcome, Conversion.ofTextTo, Format.ofWord?_word]
  refine ⟨?_, by cases f <;> rfl, ?_, ?_⟩
  · -- the failures of each step, given that the steps before have succeeded
    rw [hout]
    rcases Conversion.result_ofText_cases text f with
      ⟨e, -, h⟩ | ⟨env, e, hparse, hresolve, h⟩ | ⟨env, resolved, -, hresolve, h⟩
    · rcases e with e | e
      · exact .inr (.inl ⟨e, h⟩)
      · exact .inr (.inr (.inl ⟨e, h⟩))
    · rcases resolveError_of_parse hparse hresolve with ⟨n, rfl⟩ | ⟨n, rfl⟩
      · exact .inr (.inr (.inr (.inl ⟨n, h⟩)))
      · exact .inr (.inr (.inr (.inr (.inl ⟨n, h⟩))))
    · rw [h]
      rcases Conversion.writeResolved_cases f (isResolved_of_resolve hresolve) with hdoc | hdeep
      · exact .inl hdoc
      · exact .inr (.inr (.inr (.inr (.inr hdeep))))
  · intro hdeep
    rw [hout] at hdeep
    rcases Conversion.result_ofText_cases text f with
      ⟨e, -, h⟩ | ⟨env, e, -, -, h⟩ | ⟨env, resolved, hparse, hresolve, -⟩
    · cases h.symm.trans hdeep
    · cases h.symm.trans hdeep
    · exact ⟨env, resolved, hparse, hresolve⟩
  · intro env resolved hparse hresolve
    rw [hout, Conversion.result_ofText hparse hresolve]
    constructor
    · intro hnest
      apply Conversion.writeResolved_of_le (isResolved_of_resolve hresolve)
      intro b hb
      exact Nat.le_trans (hnest b hb) (by decide)
    · rintro ⟨b, hb, hdeep⟩
      exact Conversion.writeResolved_of_lt ⟨b, hb, Nat.lt_of_lt_of_le (by decide) hdeep⟩

end HexDoc
