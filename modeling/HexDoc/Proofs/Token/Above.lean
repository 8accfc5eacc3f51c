/-
HexDoc/Proofs/Token/Above.lean

What a text keeps when a newline and further text are put below it.  A tiling comes to its end in a
tail that holds no token (`Tail`): what stands behind the last token, a comment that is not closed,
or a character that nothing begins with.  The tokens in front of the tail stay as they are, whatever
is below, and so do their places; only the tail is read anew, together with the text below
(`Tiling.exists_tail`).

A character that nothing begins with stays one (`StartsNothing.above`), while a comment may be
closed further down (`Gap.close`) and the end of the text moves down.
-/
import HexDoc.Proofs.Document.Concatenation
import HexDoc.Proofs.Token.Moves

namespace HexDoc

/-! ### Places one behind the other -/

namespace Position

/-- A place further up, or further left on the same line. -/
def IsBefore (p q : Position) : Prop :=
  p.line < q.line ∨ p.line = q.line ∧ p.column < q.column

theorem not_isBefore_self (p : Position) : ¬ p.IsBefore p := by
  simp [IsBefore]

theorem isBefore_after (p : Position) (c : Char) : p.IsBefore (p.after c) := by
  unfold IsBefore after
  split
  · exact .inl (Nat.lt_succ_self _)
  · exact .inr ⟨rfl, Nat.lt_succ_self _⟩

theorem IsBefore.trans {p q r : Position} (hpq : p.IsBefore q) (hqr : q.IsBefore r) :
    p.IsBefore r := by
  unfold IsBefore at *
  omega

/-- What is before a place is before all that comes behind it. -/
theorem IsBefore.past {p q : Position} (h : p.IsBefore q) (cs : List Char) :
    p.IsBefore (q.past cs) := by
  induction cs generalizing q with
  | nil => exact h
  | cons c cs ih => exact ih (h.trans (q.isBefore_after c))

theorem isBefore_past {cs : List Char} (h : cs ≠ []) (p : Position) : p.IsBefore (p.past cs) := by
  cases cs with
  | nil => exact absurd rfl h
  | cons c cs => exact (p.isBefore_after c).past cs

end Position

/-! ### The tail of a tiling -/

/-- How a text that holds no token is tiled: what is behind the last token of a tiling. -/
inductive Tail : Position → List Char → List Token → Option LexError → Prop
  | finished {p : Position} {g : List Char} :
      LastGap g → Tail p g [⟨.endOfText, "", p.past g⟩] none
  | openComment {p : Position} {g cs : List Char} :
      Gap g → IsCommentBody cs →
      Tail p (g ++ '#' :: '=' :: cs) [] (some ⟨p.past g, .openComment⟩)
  | unexpected {p : Position} {g cs : List Char} {c : Char} :
      Gap g → StartsNothing (c :: cs) →
      Tail p (g ++ c :: cs) [] (some ⟨p.past g, .unexpected c⟩)

/-- The only token of a tail is the end of the text, and it is where the tail ends. -/
theorem Tail.eq_of_mem {p : Position} {cs : List Char} {last : List Token} {e? : Option LexError}
    (h : Tail p cs last e?) {t : Token} (ht : t ∈ last) : t = ⟨.endOfText, "", p.past cs⟩ := by
  cases h with
  | finished hg => exact List.mem_singleton.mp ht
  | openComment => cases ht
  | unexpected => cases ht

/-- The tokens `us` tile a text from a place up to a tail at another place: all of them stand
before the tail, and whatever tiles the tail with text below tiles the text with it. -/
structure TiledUpTo (p : Position) (cs : List Char) (us : List Token) (q : Position)
    (tail : List Char) : Prop where
  before : ∀ u ∈ us, u.kind ≠ .endOfText ∧ u.position.IsBefore q
  reached : ∃ front, q = p.past front
  below : ∀ {ds ts e?}, Tiling q (tail ++ '\n' :: ds) ts e? →
    Tiling p (cs ++ '\n' :: ds) (us ++ ts) e?

/-- Every tiling comes to its end in a tail. -/
theorem Tiling.exists_tail {p : Position} {cs : List Char} {ts : List Token} {e? : Option LexError}
    (h : Tiling p cs ts e?) :
    ∃ us q tail last, ts = us ++ last ∧ Tail q tail last e? ∧ TiledUpTo p cs us q tail := by
  have hnone (p : Position) (cs : List Char) : TiledUpTo p cs [] p cs :=
    ⟨by simp, ⟨[], rfl⟩, fun h => h⟩
  induction h with
  | @finished p g hg =>
    exact ⟨[], p, g, _, rfl, .finished hg, hnone p g⟩
  | openComment hg hcs => exact ⟨[], _, _, [], rfl, .openComment hg hcs, hnone _ _⟩
  | unexpected hg hcs => exact ⟨[], _, _, [], rfl, .unexpected hg hcs, hnone _ _⟩
  | @token p g cs t ts e? hg hl hend hposition _ ih =>
    obtain ⟨us, q, tail, last, rfl, htail, hus, ⟨front, hq⟩, hbelow⟩ := ih
    have hbefore : t.position.IsBefore q := by
      obtain ⟨c, text, htext, -⟩ := hl.exists_head
      rw [hq, hposition]
      refine (Position.isBefore_past ?_ _).past front
      rw [show t.text.toList = c :: text from htext]
      exact List.cons_ne_nil c text
    refine ⟨t :: us, q, tail, last, rfl, htail, ?_, ?_, ?_⟩
    · exact List.forall_mem_cons.mpr ⟨⟨hl.kind_ne, hbefore⟩, hus⟩
    · exact ⟨g ++ (t.text.toList ++ front), by rw [hq, Position.past_append, Position.past_append]⟩
    · intro ds ts e? h
      have hwhole := Tiling.token hg hl (hend.newline ds) hposition (hbelow h)
      simpa using hwhole

/-! ### Tails with text below -/

/-- A token that begins a text with a newline in it begins what stands above the newline. -/
theorem IsLexeme.prefix_above {l : Lexeme} (hl : IsLexeme l) {cs ds : List Char}
    (h : l.2.toList <+: cs ++ '\n' :: ds) : l.2.toList <+: cs := by
  have hline : cs ++ ['\n'] <+: cs ++ '\n' :: ds := ⟨ds, by simp⟩
  by_cases hlen : l.2.toList.length ≤ cs.length
  · exact List.prefix_of_prefix_length_le h (List.prefix_append _ _) hlen
  · -- a longer token would hold the newline
    have hin : cs ++ ['\n'] <+: l.2.toList :=
      List.prefix_of_prefix_length_le hline h (by simp; omega)
    exact absurd (hin.subset (by simp)) hl.notMem_newline

/-- Where nothing starts, nothing does with text below. -/
theorem StartsNothing.above {c : Char} {cs : List Char} (h : StartsNothing (c :: cs))
    (ds : List Char) : StartsNothing (c :: (cs ++ '\n' :: ds)) := by
  obtain ⟨hnone, hapart⟩ := startsNothing_cons_iff.mp h
  rw [lexeme?_eq_none_iff] at hnone
  refine startsNothing_cons_iff.mpr ⟨lexeme?_eq_none_iff.mpr fun l hl hpre => ?_, hapart⟩
  exact hnone l hl (hl.prefix_above hpre)

/-- A comment that is left open is closed by its end on the next line. -/
theorem Gap.close {g cs : List Char} (hg : Gap g) (hcs : IsCommentBody cs) :
    Gap (g ++ '#' :: '=' :: cs ++ '\n' :: ['=', '#']) := by
  have hbody : IsCommentBody (cs ++ ['\n']) := by
    rintro ⟨s, t, hst⟩
    rcases List.eq_nil_or_concat t with rfl | ⟨t, c, rfl⟩
    · -- an end of a comment does not end in a newline
      have hlast := congrArg List.getLast? hst
      simp at hlast
    · have hst' : (s ++ ['=', '#'] ++ t) ++ [c] = cs ++ ['\n'] := by simpa using hst
      exact hcs ⟨s, t, (List.append_inj' hst' rfl).1⟩
  simpa using hg.append (.blockComment hbody .empty)

end HexDoc
