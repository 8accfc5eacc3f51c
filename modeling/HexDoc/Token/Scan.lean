/-
HexDoc/Token/Scan.lean

Reading tokens off a text.  A reading operation takes a cursor and gives its answer together
with the cursor it leaves behind; when it fails, that cursor stands where the fault is, and
what was passed before the fault stays passed.

`Cursor.next` reads one token, `Cursor.tokens` all of them and `tokenize` those of a whole
text.  Every token but the last is made of characters of the text
(`Cursor.length_rest_next_lt`), so reading on ends after at most one token per character and
the one that marks the end.
-/
import HexDoc.Token.Basic
import HexDoc.Token.Gap

namespace HexDoc

/-- Why a text cannot be cut into tokens. -/
inductive LexFault
  /-- A block comment that is never closed. -/
  | openComment
  /-- A character that starts neither a token nor an ignored piece. -/
  | unexpected (c : Char)
deriving DecidableEq, Repr

/-- The wording of a fault. -/
def LexFault.message : LexFault → String
  | .openComment => "Unterminated multiline comment"
  | .unexpected c => "Unexpected character: '" ++ c.toString ++ "'"

/-- A fault in the text, at the place where the offending piece starts. -/
structure LexError where
  position : Position
  fault : LexFault
deriving DecidableEq, Repr

/-- The full text of a fault: its place and its wording. -/
def LexError.render (e : LexError) : String :=
  errorLine e.position e.fault.message

/-- Kind and length of the token that a text begins with: a punctuation mark, `0x` or `0X` with
the hex digits that follow, of which there may be none, or a name. -/
def lexeme? : List Char → Option (Kind × Nat)
  | [] => none
  | c :: cs =>
    match Kind.ofMark? c with
    | some k => some (k, 1)
    | none =>
      if isNameStart c then some (.name, runLength isNameChar cs + 1)
      else
        match c, cs with
        | '0', 'x' :: ds => some (.number, runLength isHexDigit ds + 2)
        | '0', 'X' :: ds => some (.number, runLength isHexDigit ds + 2)
        | _, _ => none

/-- A token that a text begins with has at least one character. -/
theorem lexeme?_pos {cs : List Char} {k : Kind} {n : Nat} (h : lexeme? cs = some (k, n)) :
    0 < n := by
  unfold lexeme? at h
  split at h
  · simp at h
  · split at h
    · simp_all; omega
    · split at h
      · simp_all; omega
      · split at h <;> simp_all <;> omega

/-- Only the end of the text gives the end token. -/
theorem lexeme?_kind_ne {cs : List Char} {k : Kind} {n : Nat} (h : lexeme? cs = some (k, n)) :
    k ≠ .endOfText := by
  unfold lexeme? at h
  split at h
  · simp at h
  · split at h
    · rename_i hk
      unfold Kind.ofMark? at hk
      split at hk <;> simp_all <;> rintro rfl <;> simp_all
    · split at h
      · simp_all; rintro rfl; simp_all
      · split at h <;> simp_all <;> rintro rfl <;> simp_all

namespace Cursor

/-- Refuses a text that begins like a block comment, and moves nowhere. -/
def refuseOpenComment (c : Cursor) : Except LexError Unit × Cursor :=
  if opensBlockComment c.rest then (.error ⟨c.position, .openComment⟩, c) else (.ok (), c)

/-- Passes what is ignored.  A block comment that is left then is open: a fault, and it stays
ahead. -/
def skip (c : Cursor) : Except LexError Unit × Cursor :=
  c.skipIgnored.refuseOpenComment

/-- Reads the token that starts right here. -/
def tokenHere (c : Cursor) : Except LexError Token × Cursor :=
  match c.rest with
  | [] => (.ok ⟨.endOfText, "", c.position⟩, c)
  | ch :: cs =>
    match lexeme? (ch :: cs) with
    | some (k, n) => (.ok ⟨k, String.ofList ((ch :: cs).take n), c.position⟩, c.advance n)
    | none => (.error ⟨c.position, .unexpected ch⟩, c)

/-- Reads the next token; at the end of the text that is the end token, again and again. -/
def next (c : Cursor) : Except LexError Token × Cursor :=
  match c.skip with
  | (.ok (), d) => d.tokenHere
  | (.error e, d) => (.error e, d)

/-- The tokens that can be read from here on, the end token included, with the fault that ends
the reading, if one does, and the cursor where it ends. -/
structure Scan where
  tokens : List Token
  fault? : Option LexError
  stop : Cursor

theorem length_rest_tokenHere_lt {c d : Cursor} {t : Token} (h : c.tokenHere = (.ok t, d))
    (ht : t.kind ≠ .endOfText) : d.rest.length < c.rest.length := by
  unfold tokenHere at h
  split at h
  · simp_all; simp [← h.1] at ht
  · rename_i ch cs hc
    split at h
    · rename_i k n hk
      simp only [Prod.mk.injEq, Except.ok.injEq] at h
      rw [← h.2]
      exact c.length_rest_advance_lt n (lexeme?_pos hk) (by simp [hc])
    · simp at h

/-- A token other than the end token is made of characters of the text. -/
theorem length_rest_next_lt {c d : Cursor} {t : Token} (h : c.next = (.ok t, d))
    (ht : t.kind ≠ .endOfText) : d.rest.length < c.rest.length := by
  unfold next skip at h
  split at h
  · rename_i e he
    unfold refuseOpenComment at he
    split at he
    · simp at he
    · simp only [Prod.mk.injEq, true_and] at he
      have := c.length_rest_skipIgnored_le
      have := length_rest_tokenHere_lt h ht
      subst he; omega
  · simp at h

theorem length_rest_tokenHere_le (c : Cursor) : c.tokenHere.2.rest.length ≤ c.rest.length := by
  unfold tokenHere
  split
  · exact Nat.le_refl _
  · split <;> simp

/-- Reading never goes back. -/
theorem length_rest_next_le (c : Cursor) : c.next.2.rest.length ≤ c.rest.length := by
  have h := c.length_rest_skipIgnored_le
  have h' := c.skipIgnored.length_rest_tokenHere_le
  unfold next skip refuseOpenComment
  by_cases ho : opensBlockComment c.skipIgnored.rest = true
  · simpa [ho] using h
  · simp only [ho]
    exact Nat.le_trans h' h

/-- Reads to the end of the text or to the first fault. -/
def scan (c : Cursor) : Scan :=
  match _h : c.next with
  | (.error e, d) => ⟨[], some e, d⟩
  | (.ok t, d) =>
    if _ht : t.kind = .endOfText then ⟨[t], none, d⟩
    else
      let r := d.scan
      ⟨t :: r.tokens, r.fault?, r.stop⟩
termination_by c.rest.length
decreasing_by exact length_rest_next_lt _h _ht

/-- Reads every token to the end of the text, or fails with the first fault. -/
def tokens (c : Cursor) : Except LexError (List Token) × Cursor :=
  match c.scan with
  | ⟨ts, none, d⟩ => (.ok ts, d)
  | ⟨_, some e, d⟩ => (.error e, d)

end Cursor

/-- Cuts a text into tokens, the last of which marks its end. -/
def tokenize (text : String) : Except LexError (List Token) :=
  (Cursor.ofText text).tokens.1

end HexDoc
