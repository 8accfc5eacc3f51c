/-
HexDoc/Proofs/Yaml/Scalars.lean

Names and numbers on a line.  A name is written so that it is read as a word: quotes keep a
reserved word from being taken for a truth value or null, and any other name starts with a letter
or an underscore, so it is no number.

Main statements: a name is read back from its text (`name?_key`), and data that fit on a line are
read back from theirs (`inline?_digits`, `inline?_braces`); the line that an entry starts with is
never taken for such data (`inline?_of_startsEntry`).
-/
import HexDoc.Proofs.Text.Span
import HexDoc.Yaml.Reader

namespace HexDoc.Yaml

/-! ### Names -/

theorem scalar?_quoted {s : List Char} (hs : '\'' ∉ s) :
    scalar? ('\'' :: (s ++ ['\''])) = some (.word (String.ofList s)) := by
  rw [scalar?, if_pos ⟨by simp, by simpa using hs⟩, List.dropLast_concat]

/-- A name without quotes is no number; it is itself unless it is reserved. -/
theorem scalar?_name {n : Name} (hn : IsName n) :
    scalar? n.toList = some (if n ∈ reservedWords then .reserved n else .word n) := by
  obtain ⟨c, cs, hcs, hc, hall⟩ := hn
  have hquote : c ≠ '\'' := by
    rintro rfl
    cases hc
  have hdigit : ¬ (c :: cs).all Char.isDigit = true := by
    simp [isDigit_of_isNameStart hc]
  have hname : String.ofList (c :: cs) = n := by rw [← hcs, String.ofList_toList]
  rw [hcs, scalar?_cons hquote, if_neg hdigit, if_pos (by rw [hc, hall, Bool.and_self]), hname]
  split <;> rfl

/-- A name is read back from its text. -/
theorem name?_key {n : Name} (hn : IsName n) : name? (key n) = some n := by
  have hquote : '\'' ∉ n.toList := notMem_name hn rfl
  by_cases h : n ∈ reservedWords
  · rw [name?, key, if_pos h, List.cons_append, scalar?_quoted hquote, String.ofList_toList]
  · rw [name?, key, if_neg h, scalar?_name hn, if_neg h]

/-- The text of a name is letters, digits and underscores, and quotes. -/
theorem notMem_key {n : Name} (hn : IsName n) {c : Char} (hc : isNameChar c = false)
    (hquote : c ≠ '\'') : c ∉ key n := by
  have hname : c ∉ n.toList := notMem_name hn hc
  unfold key
  split <;> simp [hname, hquote]

/-! ### What entries start with -/

/-- Text that an entry can start with: a name, a name in quotes, or a question mark. -/
def StartsEntry (cs : List Char) : Prop :=
  ∃ c ∈ cs.head?, isNameStart c = true ∨ c = '\'' ∨ c = '?'

theorem exists_head?_key {n : Name} (hn : IsName n) (cs : List Char) :
    ∃ c ∈ (key n ++ cs).head?, isNameStart c = true ∨ c = '\'' := by
  unfold key
  split
  · exact ⟨'\'', rfl, .inr rfl⟩
  · obtain ⟨c, tl, hcs, hc, -⟩ := hn
    rw [hcs]
    exact ⟨c, rfl, .inl hc⟩

theorem StartsEntry.head?_ne {cs : List Char} (h : StartsEntry cs) {d : Char}
    (hd : isNameStart d = false ∧ d ≠ '\'' ∧ d ≠ '?') : cs.head? ≠ some d := by
  obtain ⟨c, hc, hcase⟩ := h
  intro hhead
  cases hc.symm.trans hhead
  rcases hcase with hstart | rfl | rfl
  · cases hstart.symm.trans hd.1
  · exact hd.2.1 rfl
  · exact hd.2.2 rfl

/-! ### Data on a line -/

theorem inline?_digits (n : Nat) : inline? (Nat.toDigits 10 n) = some (.number n) := by
  obtain ⟨d, ds, hn, hd, hds⟩ := exists_toDigits_eq_cons n
  have hne {c : Char} (hc : c.isDigit = false) : d ≠ c := by
    rintro rfl
    cases hd.symm.trans hc
  have hall : (d :: ds).all Char.isDigit = true :=
    List.all_eq_true.mpr (List.forall_mem_cons.mpr ⟨hd, hds⟩)
  have hscalar : scalar? (d :: ds) = some (.number n) := by
    rw [scalar?_cons (hne rfl), if_pos hall, ← hn, Nat.ofDigitChars_ten_toDigits]
  rw [hn, inline?, if_neg (fun h => hne rfl (List.cons.inj h).1), hscalar]

theorem inline?_braces : inline? ['\x7b', '\x7d'] = some (.dict []) :=
  if_pos rfl

/-- What an entry starts with is no number. -/
theorem scalar?_ne_number {cs : List Char} (h : StartsEntry cs) (n : Nat) :
    scalar? cs ≠ some (.number n) := by
  obtain ⟨c, hc, hcase⟩ := h
  obtain ⟨tl, rfl⟩ := List.head?_eq_some_iff.mp hc
  by_cases hquote : c = '\''
  · rw [hquote, scalar?]
    split <;> simp
  · have hdigit : c.isDigit = false := by
      rcases hcase with hstart | rfl | rfl
      · exact isDigit_of_isNameStart hstart
      · exact absurd rfl hquote
      · rfl
    rw [scalar?_cons hquote, if_neg (by simp [hdigit])]
    split
    · split <;> simp
    · simp

theorem inline?_of_startsEntry {cs : List Char} (h : StartsEntry cs) : inline? cs = none := by
  have hbrace : cs ≠ ['\x7b', '\x7d'] := by
    rintro rfl
    exact h.head?_ne (d := '\x7b') (by decide) rfl
  rw [inline?, if_neg hbrace]
  split
  · rename_i n hscalar
    exact absurd hscalar (scalar?_ne_number h n)
  · rfl

end HexDoc.Yaml
