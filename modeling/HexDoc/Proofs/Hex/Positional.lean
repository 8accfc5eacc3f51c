/-
HexDoc/Proofs/Hex/Positional.lean

Which texts are hex literals, and what they stand for.  `alphabet` lists the digits of both cases,
`rank` tells where a digit stands among those of its case, and `valueOf` is the value of a row of
digits in base sixteen, without bound.  None of the three looks at how a literal is decoded.

The value is that of the digits in front, shifted by the digits behind, plus that of the digits
behind (`valueOf_append`).  What is in front of sixteen digits is therefore a multiple of `2 ^ 64`
and lost (`valueOf_mod`), and zeros in front count for nothing.

Main statement: a text is decoded exactly when it is a literal, to its value modulo `2 ^ 64`, with
what this means for digits in a row, for the spelling and for long literals
(`decode?_positional`).
-/
import HexDoc.Hex
import Mathlib.Data.List.DropRight
import Mathlib.Data.Nat.Digits.Defs

namespace HexDoc.Hex

/-! ### Literals and their values -/

/-- The hex digits, the letters in both cases. -/
def alphabet : List Char :=
  "0123456789abcdefABCDEF".toList

/-- Where a digit stands among the digits of its case. -/
def rank (c : Char) : Nat :=
  "0123456789abcdef".toList.idxOf c.toLower

/-- The value of a row of digits in base sixteen, the last one counting ones. -/
def valueOf (ds : List Char) : Nat :=
  Nat.ofDigits 16 (ds.map rank).reverse

/-- A row of digits, one at least. -/
def AreDigits (ds : List Char) : Prop :=
  ds ≠ [] ∧ ∀ d ∈ ds, d ∈ alphabet

/-- The letter that follows the zero of a literal. -/
def IsSign (x : Char) : Prop :=
  x = 'x' ∨ x = 'X'

/-- A zero, a letter and a row of digits. -/
def literal (x : Char) (ds : List Char) : String :=
  String.ofList ('0' :: x :: ds)

/-! ### Digits -/

theorem isHexDigit_of_mem {c : Char} (h : c ∈ alphabet) : isHexDigit c = true := by
  have hall : alphabet.all isHexDigit = true := by decide
  exact List.all_eq_true.mp hall c h

/-- There are no further digits. -/
theorem mem_of_isHexDigit {c : Char} (h : isHexDigit c = true) : c ∈ alphabet := by
  have hcode : ∀ n < 128, isHexDigit (Char.ofNat n) = true → Char.ofNat n ∈ alphabet := by decide
  have hlt : c.toNat < 128 := by
    obtain ⟨d, hd⟩ := Option.isSome_iff_exists.mp h
    simp only [hexValue?, Char.le_def, UInt32.le_iff_toNat_le] at hd
    simp only [Char.toNat]
    split at hd
    · simp_all; omega
    · split at hd
      · simp_all; omega
      · split at hd
        · simp_all; omega
        · simp at hd
  rw [← Char.ofNat_toNat c] at h ⊢
  exact hcode _ hlt h

theorem isHexDigit_iff {c : Char} : isHexDigit c = true ↔ c ∈ alphabet :=
  ⟨mem_of_isHexDigit, isHexDigit_of_mem⟩

/-- The rows of digits are those of hex digits. -/
theorem areDigits_iff {ds : List Char} : AreDigits ds ↔ ds ≠ [] ∧ ds.all isHexDigit = true := by
  simp only [AreDigits, List.all_eq_true, isHexDigit_iff]

theorem digitValue_eq_rank {c : Char} (h : c ∈ alphabet) : digitValue c = rank c := by
  have hall : alphabet.all (fun c => digitValue c = rank c) = true := by decide
  exact of_decide_eq_true (List.all_eq_true.mp hall c h)

/-- A digit in another case is a digit, and of the same rank. -/
theorem mem_alphabet_of_case {d e : Char} (hd : d ∈ alphabet) (h : e = d.toLower ∨ e = d.toUpper) :
    e ∈ alphabet ∧ rank e = rank d := by
  have hlower : alphabet.all (fun d => d.toLower ∈ alphabet ∧ rank d.toLower = rank d) = true := by
    decide
  have hupper : alphabet.all (fun d => d.toUpper ∈ alphabet ∧ rank d.toUpper = rank d) = true := by
    decide
  rcases h with rfl | rfl
  · exact of_decide_eq_true (List.all_eq_true.mp hlower d hd)
  · exact of_decide_eq_true (List.all_eq_true.mp hupper d hd)

/-! ### Values of rows -/

/-- Arithmetic on the digits as they are decoded gives the value of the row. -/
theorem positional_eq_valueOf {ds : List Char} (h : ∀ d ∈ ds, d ∈ alphabet) :
    positional ds = valueOf ds := by
  induction ds using List.reverseRecOn with
  | nil => rfl
  | append_singleton ds d ih =>
    obtain ⟨hds, hd⟩ := List.forall_mem_append.mp h
    have hlast := digitValue_eq_rank (hd d (List.mem_singleton_self d))
    have hfront := ih hds
    rw [positional, valueOf] at hfront
    rw [positional, List.foldl_append, hfront, valueOf, List.map_append, List.reverse_append]
    simp only [List.foldl_cons, List.foldl_nil, List.map_cons, List.map_nil,
      List.reverse_singleton, List.singleton_append, Nat.ofDigits_cons, hlast]
    omega

/-- Digits in front count as often as the digits behind have room for. -/
theorem valueOf_append (as bs : List Char) :
    valueOf (as ++ bs) = valueOf as * 16 ^ bs.length + valueOf bs := by
  rw [valueOf, List.map_append, List.reverse_append, Nat.ofDigits_append, List.length_reverse,
    List.length_map, Nat.add_comm, Nat.mul_comm]
  rfl

/-- Zeros in front count for nothing. -/
theorem valueOf_zeros_append (n : Nat) (ds : List Char) :
    valueOf (List.replicate n '0' ++ ds) = valueOf ds := by
  have hzero : valueOf (List.replicate n '0') = 0 := by
    rw [valueOf, List.map_replicate, List.reverse_replicate]
    exact Nat.ofDigits_replicate_zero
  rw [valueOf_append, hzero, Nat.zero_mul, Nat.zero_add]

/-- Only the last sixteen digits count in the low 64 bits. -/
theorem valueOf_mod (ds : List Char) (h : 16 ≤ ds.length) :
    valueOf ds % 2 ^ 64 = valueOf (ds.rtake 16) % 2 ^ 64 := by
  have hlen : (ds.rtake 16).length = 16 := by
    rw [List.rtake, List.length_drop]
    omega
  have hsplit : ds = ds.take (ds.length - 16) ++ ds.rtake 16 := (List.take_append_drop _ _).symm
  have hpow : (16 : Nat) ^ 16 = 2 ^ 64 := by norm_num
  conv_lhs => rw [hsplit, valueOf_append, hlen, hpow, Nat.mul_add_mod_self_right]

/-- Rows of the same digits, in whatever case, have the same value. -/
theorem valueOf_of_case {ds es : List Char} (hds : ∀ d ∈ ds, d ∈ alphabet)
    (h : List.Forall₂ (fun d e => e = d.toLower ∨ e = d.toUpper) ds es) :
    (∀ e ∈ es, e ∈ alphabet) ∧ es.map rank = ds.map rank := by
  induction h with
  | nil => exact ⟨by simp, rfl⟩
  | @cons d e ds es hde _ ih =>
    obtain ⟨hd, hds⟩ := List.forall_mem_cons.mp hds
    obtain ⟨he, hrank⟩ := mem_alphabet_of_case hd hde
    obtain ⟨hes, hranks⟩ := ih hds
    exact ⟨List.forall_mem_cons.mpr ⟨he, hes⟩, by rw [List.map_cons, List.map_cons, hrank, hranks]⟩

/-! ### Decoding -/

/-- What is decoded is a literal, and the word is the value of its digits, cut down. -/
theorem decode?_eq_some_iff {s : String} {w : UInt64} :
    decode? s = some w ↔
      ∃ x ds, s = literal x ds ∧ IsSign x ∧ AreDigits ds ∧ w.toNat = valueOf ds % 2 ^ 64 := by
  have hword {ds : List Char} (hds : ∀ d ∈ ds, d ∈ alphabet) :
      (word ds).toNat = valueOf ds % 2 ^ 64 := by
    rw [toNat_word, positional_eq_valueOf hds]
    rfl
  rw [decode?, Option.map_eq_some_iff]
  constructor
  · rintro ⟨ds, hds, rfl⟩
    unfold digitsOf? at hds
    split at hds
    · rename_i x es hs
      split at hds
      · rename_i hlit
        obtain ⟨hx, hne, hall⟩ := hlit
        cases hds
        have hdigits : AreDigits ds := areDigits_iff.mpr ⟨hne, hall⟩
        refine ⟨x, ds, ?_, hx, hdigits, hword hdigits.2⟩
        rw [literal, ← hs, String.ofList_toList]
      · cases hds
    · cases hds
  · rintro ⟨x, ds, rfl, hx, hdigits, hw⟩
    obtain ⟨hne, hall⟩ := areDigits_iff.mp hdigits
    refine ⟨ds, ?_, UInt64.toNat_inj.mp ((hword hdigits.2).trans hw.symm)⟩
    rw [digitsOf?, literal, String.toList_ofList]
    exact if_pos ⟨hx, hne, hall⟩

/-- A literal is decoded to the value of its digits, cut down. -/
theorem exists_decode?_literal {x : Char} {ds : List Char} (hx : IsSign x) (hds : AreDigits ds) :
    ∃ w, decode? (literal x ds) = some w ∧ w.toNat = valueOf ds % 2 ^ 64 := by
  have hw : (UInt64.ofNat (valueOf ds)).toNat = valueOf ds % 2 ^ 64 := UInt64.toNat_ofNat'
  exact ⟨_, decode?_eq_some_iff.mpr ⟨x, ds, rfl, hx, hds, hw⟩, hw⟩

/-- Literals whose values agree in the low 64 bits are decoded to the same word. -/
theorem decode?_literal_congr {x y : Char} {ds es : List Char} (hx : IsSign x) (hy : IsSign y)
    (hds : AreDigits ds) (hes : AreDigits es) (h : valueOf ds % 2 ^ 64 = valueOf es % 2 ^ 64) :
    decode? (literal x ds) = decode? (literal y es) := by
  obtain ⟨v, hv, hvalue⟩ := exists_decode?_literal hx hds
  obtain ⟨w, hw, hvalue'⟩ := exists_decode?_literal hy hes
  rw [hv, hw, UInt64.toNat_inj.mp (hvalue.trans (h.trans hvalue'.symm))]

/-- A text is decoded exactly when it is a literal. -/
theorem exists_decode?_iff {s : String} :
    (∃ w, decode? s = some w) ↔ ∃ x ds, s = literal x ds ∧ IsSign x ∧ AreDigits ds := by
  constructor
  · rintro ⟨w, hw⟩
    obtain ⟨x, ds, hs, hx, hds, -⟩ := decode?_eq_some_iff.mp hw
    exact ⟨x, ds, hs, hx, hds⟩
  · rintro ⟨x, ds, rfl, hx, hds⟩
    obtain ⟨w, hw, -⟩ := exists_decode?_literal hx hds
    exact ⟨w, hw⟩

/-- The word of two rows of digits, one behind the other, comes of the words of both. -/
theorem exists_decode?_append {x : Char} {as bs : List Char} (hx : IsSign x) (has : AreDigits as)
    (hbs : AreDigits bs) :
    ∃ u v w, decode? (literal x as) = some u ∧ decode? (literal x bs) = some v ∧
      decode? (literal x (as ++ bs)) = some w ∧
      w.toNat = (u.toNat * 16 ^ bs.length + v.toNat) % 2 ^ 64 := by
  have hboth : AreDigits (as ++ bs) :=
    ⟨by simp [has.1], List.forall_mem_append.mpr ⟨has.2, hbs.2⟩⟩
  obtain ⟨u, hu, hvalue⟩ := exists_decode?_literal hx has
  obtain ⟨v, hv, hvalue'⟩ := exists_decode?_literal hx hbs
  obtain ⟨w, hw, hvalue''⟩ := exists_decode?_literal hx hboth
  refine ⟨u, v, w, hu, hv, hw, ?_⟩
  rw [hvalue'', hvalue, hvalue', valueOf_append]
  simp only [Nat.add_mod, Nat.mul_mod, Nat.mod_mod]

/-- Zeros in front, the case of the digits and the letter of a literal do not matter. -/
theorem decode?_respelled {x y : Char} {ds es : List Char} (hx : IsSign x) (hy : IsSign y)
    (hds : AreDigits ds) (h : List.Forall₂ (fun d e => e = d.toLower ∨ e = d.toUpper) ds es)
    (n : Nat) : decode? (literal y (List.replicate n '0' ++ es)) = decode? (literal x ds) := by
  obtain ⟨hes, hranks⟩ := valueOf_of_case hds.2 h
  have hzeros : ∀ e ∈ List.replicate n '0', e ∈ alphabet := by
    intro e he
    rw [List.eq_of_mem_replicate he]
    decide
  have hne : es ≠ [] := by
    rintro rfl
    cases h
    exact hds.1 rfl
  have hall : AreDigits (List.replicate n '0' ++ es) :=
    ⟨by simp [hne], List.forall_mem_append.mpr ⟨hzeros, hes⟩⟩
  refine decode?_literal_congr hy hx hall hds ?_
  rw [valueOf_zeros_append, valueOf, hranks, valueOf]

/-- A text is decoded exactly when it is a literal, and the word is the value of the digits modulo
`2 ^ 64`.  Hence the word of digits in a row comes of the words of both parts; zeros in front, the
case of the digits and the letter of the literal do not matter; and of sixteen digits or more, the
last sixteen count. -/
theorem decode?_positional :
    (∀ s, (∃ w, decode? s = some w) ↔ ∃ x ds, s = literal x ds ∧ IsSign x ∧ AreDigits ds) ∧
    (∀ x ds, IsSign x → AreDigits ds →
      ∃ w, decode? (literal x ds) = some w ∧ w.toNat = valueOf ds % 2 ^ 64) ∧
    (∀ x as bs, IsSign x → AreDigits as → AreDigits bs →
      ∃ u v w, decode? (literal x as) = some u ∧ decode? (literal x bs) = some v ∧
        decode? (literal x (as ++ bs)) = some w ∧
        w.toNat = (u.toNat * 16 ^ bs.length + v.toNat) % 2 ^ 64) ∧
    (∀ x y ds es n, IsSign x → IsSign y → AreDigits ds →
      List.Forall₂ (fun d e => e = d.toLower ∨ e = d.toUpper) ds es →
      decode? (literal y (List.replicate n '0' ++ es)) = decode? (literal x ds)) ∧
    ∀ x y ds es, IsSign x → IsSign y → AreDigits ds → AreDigits es →
      16 ≤ ds.length → 16 ≤ es.length → ds.rtake 16 = es.rtake 16 →
      decode? (literal x ds) = decode? (literal y es) := by
  refine ⟨fun s => exists_decode?_iff, fun x ds => exists_decode?_literal,
    fun x as bs => exists_decode?_append,
    fun x y ds es n hx hy hds h => decode?_respelled hx hy hds h n, ?_⟩
  intro x y ds es hx hy hds hes hlen hlen' htail
  refine decode?_literal_congr hx hy hds hes ?_
  rw [valueOf_mod ds hlen, valueOf_mod es hlen', htail]

/-- A digit above the low 64 bits is lost, and zeros and the case below it do not matter. -/
theorem decode?_positional_above :
    let ds := "00000000000000fF".toList
    AreDigits ds ∧ AreDigits ('7' :: ds) ∧ AreDigits ['F', 'F'] ∧
      decode? (literal 'X' ('7' :: ds)) = decode? (literal 'x' ds) ∧
      decode? (literal 'x' ds) = decode? (literal 'X' ['F', 'F']) := by
  intro ds
  have hds : AreDigits ds := areDigits_iff.mpr ⟨by decide, by decide⟩
  have hlong : AreDigits ('7' :: ds) := areDigits_iff.mpr ⟨by decide, by decide⟩
  have hshort : AreDigits ['F', 'F'] := areDigits_iff.mpr ⟨by decide, by decide⟩
  have hzeros : ds = List.replicate 14 '0' ++ ['f', 'F'] := by decide
  have hcase : List.Forall₂ (fun d e => e = d.toLower ∨ e = d.toUpper) ['F', 'F'] ['f', 'F'] :=
    .cons (.inl (by decide)) (.cons (.inr (by decide)) .nil)
  obtain ⟨-, -, -, hrespelled, hlast⟩ := decode?_positional
  refine ⟨hds, hlong, hshort, ?_, ?_⟩
  · exact hlast 'X' 'x' _ ds (.inr rfl) (.inl rfl) hlong hds (by decide) (by decide) (by decide)
  · rw [hzeros]
    exact hrespelled 'X' 'x' _ _ 14 (.inr rfl) (.inl rfl) hshort hcase

end HexDoc.Hex
