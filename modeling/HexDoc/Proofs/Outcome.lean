/-
HexDoc/Proofs/Outcome.lean

When an outcome whose value has been mapped is a value, and when it is an error; outcomes that
have the same errors succeed together, and so do outcomes that are mapped alike.
-/
namespace HexDoc.Outcome

variable {ε α β : Type} {f : α → β} {x : Except ε α}

theorem map_eq_ok_iff {b : β} : x.map f = .ok b ↔ ∃ a, x = .ok a ∧ f a = b := by
  cases x <;> simp [Except.map]

theorem map_eq_error_iff {e : ε} : x.map f = .error e ↔ x = .error e := by
  cases x <;> simp [Except.map]

theorem exists_map_eq_ok_iff : (∃ b, x.map f = .ok b) ↔ ∃ a, x = .ok a := by
  cases x <;> simp [Except.map]

theorem exists_ok_iff_of_error_iff {y : Except ε β} (h : ∀ e, x = .error e ↔ y = .error e) :
    (∃ a, x = .ok a) ↔ ∃ b, y = .ok b := by
  cases x with
  | error e => simp [(h e).mp rfl]
  | ok a =>
    cases y with
    | error e => simpa using h e
    | ok b => simp

/-- Outcomes that are mapped alike are the same error, or values that are mapped alike. -/
theorem cases_of_map_eq {y : Except ε α} (h : x.map f = y.map f) :
    (∃ e, x = .error e ∧ y = .error e) ∨ ∃ a b, x = .ok a ∧ y = .ok b ∧ f a = f b := by
  cases x with
  | error e => exact .inl ⟨e, rfl, map_eq_error_iff.mp h.symm⟩
  | ok a =>
    obtain ⟨b, hb, hab⟩ := map_eq_ok_iff.mp h.symm
    exact .inr ⟨a, b, rfl, hb, hab.symm⟩

end HexDoc.Outcome
