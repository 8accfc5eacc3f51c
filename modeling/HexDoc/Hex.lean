/-
HexDoc/Hex.lean

Hex literals: `0x` or `0X` followed by one or more hex digits, in either case.  A literal
stands for an unsigned 64-bit word; a longer one keeps its low 64 bits.

`Hex.digitsOf?` finds the digits of a literal, `Hex.word` reads them by arithmetic that wraps at
every digit, and `Hex.positional` is their value without bound.  Main statement: the word is that
value cut down to its low 64 bits (`Hex.toNat_word`).
-/
import HexDoc.Text.CharClass

namespace HexDoc.Hex

/-- The digits of a literal, without its two leading characters. -/
def digitsOf? (lexeme : String) : Option (List Char) :=
  match lexeme.toList with
  | '0' :: x :: ds =>
    if (x = 'x' ∨ x = 'X') ∧ ds ≠ [] ∧ ds.all isHexDigit then some ds else none
  | _ => none

/-- The value of a digit, as a number. -/
def digitValue (c : Char) : Nat :=
  (hexValue? c).getD 0

/-- The value of a row of digits, the last one counting ones. -/
def positional (ds : List Char) : Nat :=
  ds.foldl (fun n c => 16 * n + digitValue c) 0

/-- The word that a row of digits stands for: each further digit shifts the word by four bits,
and what leaves it at the top is lost. -/
def word (ds : List Char) : UInt64 :=
  ds.foldl (fun w c => 16 * w + UInt64.ofNat (digitValue c)) 0

/-- A word that takes in a digit wraps as a number does that is cut down. -/
theorem toNat_shift {w : UInt64} {n : Nat} (h : w.toNat = n % UInt64.size) (c : Char) :
    (16 * w + UInt64.ofNat (digitValue c)).toNat = (16 * n + digitValue c) % UInt64.size := by
  have h16 : (16 : UInt64).toNat = 16 := rfl
  have hsize : UInt64.size = 18446744073709551616 := rfl
  rw [UInt64.toNat_add, UInt64.toNat_mul, UInt64.toNat_ofNat', h16, h, hsize]
  omega

/-- Wrapping at every digit is wrapping once at the end. -/
theorem toNat_word (ds : List Char) : (word ds).toNat = positional ds % UInt64.size := by
  have hfold : ∀ (w : UInt64) (n : Nat), w.toNat = n % UInt64.size →
      (ds.foldl (fun w c => 16 * w + UInt64.ofNat (digitValue c)) w).toNat =
        ds.foldl (fun n c => 16 * n + digitValue c) n % UInt64.size := by
    induction ds with
    | nil => exact fun w n h => h
    | cons d ds ih => exact fun w n h => ih _ _ (toNat_shift h d)
  exact hfold 0 0 rfl

/-- Rows of digits stand for the same word when their values agree in the low 64 bits. -/
theorem word_eq_iff {ds es : List Char} :
    word ds = word es ↔ positional ds % UInt64.size = positional es % UInt64.size := by
  rw [← UInt64.toNat_inj, toNat_word, toNat_word]

/-- The word that a literal stands for. -/
def decode? (lexeme : String) : Option UInt64 :=
  (digitsOf? lexeme).map word

/-- The wording for a text that is no literal. -/
def invalidMessage (lexeme : String) : String :=
  "Invalid hex number: '" ++ lexeme ++ "'"

end HexDoc.Hex
