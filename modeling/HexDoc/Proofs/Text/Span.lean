/-
HexDoc/Proofs/Text/Span.lean

Where a run of characters ends.  A text that starts with characters of a kind and goes on, if it
does, with one that is not of that kind is taken apart there.

Names and decimal numbers are such runs: `isNameChar_of_mem` says what a name is made of,
`exists_toDigits_eq_cons` what a number is.
-/
import HexDoc.Text.CharClass

namespace HexDoc

section
variable {p : Char → Bool} {cs ds : List Char}

theorem takeWhile_append_stop (hcs : ∀ c ∈ cs, p c = true) (hds : ∀ d ∈ ds.head?, p d = false) :
    (cs ++ ds).takeWhile p = cs := by
  rw [List.takeWhile_append_of_pos hcs]
  cases ds with
  | nil => simp
  | cons d ds => simp [hds d rfl]

theorem dropWhile_append_stop (hcs : ∀ c ∈ cs, p c = true) (hds : ∀ d ∈ ds.head?, p d = false) :
    (cs ++ ds).dropWhile p = ds := by
  rw [List.dropWhile_append_of_pos hcs]
  cases ds with
  | nil => rfl
  | cons d ds => simp [hds d rfl]

end

/-! ### Up to a character -/

theorem forall_ne_of_notMem {c : Char} {cs : List Char} (h : c ∉ cs) :
    ∀ d ∈ cs, decide (d ≠ c) = true := by
  intro d hd
  simpa using fun hdc : d = c => h (hdc ▸ hd)

theorem takeWhile_ne_append {c : Char} {cs : List Char} (h : c ∉ cs) (ds : List Char) :
    (cs ++ c :: ds).takeWhile (· ≠ c) = cs :=
  takeWhile_append_stop (forall_ne_of_notMem h) (by simp)

theorem dropWhile_ne_append {c : Char} {cs : List Char} (h : c ∉ cs) (ds : List Char) :
    (cs ++ c :: ds).dropWhile (· ≠ c) = c :: ds :=
  dropWhile_append_stop (forall_ne_of_notMem h) (by simp)

theorem dropWhile_ne_of_notMem {c : Char} {cs : List Char} (h : c ∉ cs) :
    cs.dropWhile (· ≠ c) = [] := by
  have hdrop := @dropWhile_append_stop _ cs [] (forall_ne_of_notMem h) (by simp)
  rwa [List.append_nil] at hdrop

/-! ### Names and numbers -/

theorem isDigit_of_isNameStart {c : Char} (h : isNameStart c = true) : c.isDigit = false := by
  rw [Bool.eq_false_iff]
  intro hdigit
  have hnine : c.val ≤ '9'.val := of_decide_eq_true (Bool.and_eq_true_iff.mp hdigit).2
  -- the letters and the underscore stand above the digits
  have habove (d : Char) (hle : d.val ≤ c.val) (hd : ¬ d.val ≤ '9'.val) : False :=
    hd (UInt32.le_trans hle hnine)
  rcases Bool.or_eq_true_iff.mp h with h | h
  · rcases Bool.or_eq_true_iff.mp h with hupper | hlower
    · exact habove 'A' (of_decide_eq_true hupper).1 (by decide)
    · exact habove 'a' (of_decide_eq_true (Bool.and_eq_true_iff.mp hlower).1) (by decide)
  · rw [of_decide_eq_true h] at hnine
    exact absurd hnine (by decide)

/-- A name is made of letters, digits and underscores. -/
theorem isNameChar_of_mem {s : String} (hs : IsName s) : ∀ c ∈ s.toList, isNameChar c = true := by
  obtain ⟨c, cs, hs, hc, hcs⟩ := hs
  rw [hs]
  exact List.forall_mem_cons.mpr ⟨isNameChar_of_isNameStart hc, List.all_eq_true.mp hcs⟩

theorem notMem_name {s : String} (hs : IsName s) {c : Char} (hc : isNameChar c = false) :
    c ∉ s.toList := by
  intro hmem
  rw [isNameChar_of_mem hs c hmem] at hc
  cases hc

/-- A decimal number is made of digits. -/
theorem isDigit_of_mem_toDigits {n : Nat} : ∀ c ∈ Nat.toDigits 10 n, c.isDigit = true :=
  fun _ hc => Nat.isDigit_of_mem_toDigits (by decide) (by decide) hc

theorem exists_toDigits_eq_cons (n : Nat) :
    ∃ d ds, Nat.toDigits 10 n = d :: ds ∧ d.isDigit = true ∧ ∀ c ∈ ds, c.isDigit = true := by
  have hall := isDigit_of_mem_toDigits (n := n)
  rcases hn : Nat.toDigits 10 n with - | ⟨d, ds⟩
  · exact absurd hn Nat.toDigits_ne_nil
  · rw [hn, List.forall_mem_cons] at hall
    exact ⟨d, ds, rfl, hall.1, hall.2⟩

end HexDoc
