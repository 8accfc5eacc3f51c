/-
HexDoc/Text/Encoding.lean

Reading a text from bytes.  The bytes are UTF-8 and nothing else: no overlong form, no surrogate,
and a byte order mark is a character like any other.  A carriage return with a newline after
it, and one that stands alone, both become a newline.

`textOfBytes?_eq_some_iff` says which bytes stand for a text.  `notMem_unifyLineEnds` says that
no carriage return is left, and `unifyLineEnds_of_notMem` that a text without one is not changed.
-/
namespace HexDoc

/-- Ends every line by a newline. -/
def unifyLineEnds : List Char → List Char
  | [] => []
  | '\r' :: '\n' :: cs => '\n' :: unifyLineEnds cs
  | c :: cs => (if c = '\r' then '\n' else c) :: unifyLineEnds cs

/-- What is no carriage return stays. -/
theorem unifyLineEnds_cons {c : Char} (h : c ≠ '\r') (cs : List Char) :
    unifyLineEnds (c :: cs) = c :: unifyLineEnds cs := by
  rw [unifyLineEnds, if_neg h]
  exact fun _ hc _ => h hc

/-- The text that bytes stand for. -/
def textOfBytes? (bytes : ByteArray) : Option String :=
  (String.fromUTF8? bytes).map fun s => String.ofList (unifyLineEnds s.toList)

/-- Bytes stand for a text if they encode one that it is with its line ends unified. -/
theorem textOfBytes?_eq_some_iff {bytes : ByteArray} {text : String} :
    textOfBytes? bytes = some text ↔
      ∃ s : String, s.toUTF8 = bytes ∧ String.ofList (unifyLineEnds s.toList) = text := by
  have hdecode (s : String) : String.fromUTF8? bytes = some s ↔ s.toUTF8 = bytes := by
    rw [String.fromUTF8?]
    constructor
    · intro h
      split at h
      · cases h
        rfl
      · cases h
    · rintro rfl
      exact dif_pos s.isValidUTF8
  simp only [textOfBytes?, Option.map_eq_some_iff, hdecode]

/-- No carriage return is left. -/
theorem notMem_unifyLineEnds (cs : List Char) : '\r' ∉ unifyLineEnds cs := by
  fun_induction unifyLineEnds cs with
  | case1 => simp
  | case2 cs ih => simp [ih]
  | case3 c cs _ ih =>
    by_cases h : c = '\r'
    · simp [h, ih]
    · have h' : ¬ '\r' = c := fun hc => h hc.symm
      simp [h, ih, h']

/-- A text without a carriage return is not changed. -/
theorem unifyLineEnds_of_notMem {cs : List Char} (h : '\r' ∉ cs) : unifyLineEnds cs = cs := by
  fun_induction unifyLineEnds cs with
  | case1 => rfl
  | case2 cs ih => simp at h
  | case3 c cs _ ih =>
    have hc : c ≠ '\r' := fun hc => h (by simp [hc])
    rw [ih fun hm => h (List.mem_cons_of_mem _ hm)]
    simp [hc]

end HexDoc
