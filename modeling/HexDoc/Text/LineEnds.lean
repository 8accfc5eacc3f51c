/-
HexDoc/Text/LineEnds.lean

Line ends of two characters, a carriage return and a newline.  Where every carriage return has a
newline behind it (`ReturnsPaired`), taking it out of each pair (`dropPairedReturns`) takes all of
them out, and this is what happens to a text when it is read from its bytes
(`unifyLineEnds_eq_dropPairedReturns`).

What is taken out shows nowhere else: places stay what they are (`past_withoutReturns`), and
a piece without a newline stands in what is left only if it stands in the text
(`ReturnsPaired.isInfix_of_withoutReturns`).
-/
import HexDoc.Text.Encoding
import HexDoc.Text.Position

namespace HexDoc

variable {cs ds : List Char} {c : Char}

/-! ### Pairs -/

/-- Every carriage return has a newline right behind it. -/
def ReturnsPaired (cs : List Char) : Prop :=
  ∀ before after, cs = before ++ '\r' :: after → after.head? = some '\n'

/-- Replaces every pair of a carriage return and a newline by the newline. -/
def dropPairedReturns : List Char → List Char
  | [] => []
  | '\r' :: '\n' :: cs => '\n' :: dropPairedReturns cs
  | c :: cs => c :: dropPairedReturns cs

theorem returnsPaired_nil : ReturnsPaired [] := by
  intro before after h
  simp at h

theorem returnsPaired_cons_iff :
    ReturnsPaired (c :: cs) ↔ (c = '\r' → cs.head? = some '\n') ∧ ReturnsPaired cs := by
  constructor
  · intro h
    refine ⟨?_, fun before after hcs => h (c :: before) after (by rw [hcs, List.cons_append])⟩
    rintro rfl
    exact h [] cs rfl
  · rintro ⟨hhead, htail⟩ before after hcs
    cases before with
    | nil =>
      obtain ⟨rfl, rfl⟩ := List.cons.inj hcs
      exact hhead rfl
    | cons b before => exact htail before after (List.cons.inj hcs).2

namespace ReturnsPaired

instance decidable : DecidablePred ReturnsPaired
  | [] => isTrue returnsPaired_nil
  | _ :: cs =>
    have : Decidable (ReturnsPaired cs) := decidable cs
    decidable_of_iff' _ returnsPaired_cons_iff

theorem tail (h : ReturnsPaired (c :: cs)) : ReturnsPaired cs :=
  (returnsPaired_cons_iff.mp h).2

/-- Behind a carriage return comes a newline. -/
theorem exists_newline (h : ReturnsPaired ('\r' :: cs)) : ∃ ds, cs = '\n' :: ds :=
  List.head?_eq_some_iff.mp ((returnsPaired_cons_iff.mp h).1 rfl)

/-- No pair is cut at the end of a text. -/
theorem right (h : ReturnsPaired (cs ++ ds)) : ReturnsPaired ds :=
  fun before after hds => h (cs ++ before) after (by rw [hds, List.append_assoc])

/-- No pair is cut in front of anything but a newline. -/
theorem left (h : ReturnsPaired (cs ++ ds)) (hds : ds.head? ≠ some '\n') : ReturnsPaired cs := by
  intro before after hcs
  have hhead := h before (after ++ ds) (by rw [hcs]; simp)
  cases after with
  | nil => exact absurd hhead hds
  | cons a after => exact hhead

/-- What does not begin with a pair does not begin with a carriage return. -/
theorem ne_return (h : ReturnsPaired (c :: cs))
    (hpair : ∀ ds, c = '\r' → cs = '\n' :: ds → False) : c ≠ '\r' := by
  rintro rfl
  obtain ⟨ds, rfl⟩ := h.exists_newline
  exact hpair ds rfl rfl

end ReturnsPaired

/-! ### Taking the carriage returns out -/

/-- What is left without the carriage returns. -/
def withoutReturns (cs : List Char) : List Char :=
  cs.filter (· ≠ '\r')

@[simp]
theorem withoutReturns_nil : withoutReturns [] = [] := rfl

@[simp]
theorem withoutReturns_append (cs ds : List Char) :
    withoutReturns (cs ++ ds) = withoutReturns cs ++ withoutReturns ds :=
  List.filter_append ..

@[simp]
theorem withoutReturns_return (cs : List Char) :
    withoutReturns ('\r' :: cs) = withoutReturns cs := rfl

theorem withoutReturns_cons (h : c ≠ '\r') (cs : List Char) :
    withoutReturns (c :: cs) = c :: withoutReturns cs :=
  List.filter_cons_of_pos (by simpa using h)

theorem withoutReturns_of_notMem (h : '\r' ∉ cs) : withoutReturns cs = cs := by
  refine List.filter_eq_self.mpr fun c hc => ?_
  have hne : c ≠ '\r' := fun hcr => h (hcr ▸ hc)
  simpa using hne

/-- Where all are in pairs, taking the carriage return out of each pair takes all of them out. -/
theorem dropPairedReturns_eq_withoutReturns (h : ReturnsPaired cs) :
    dropPairedReturns cs = withoutReturns cs := by
  fun_induction dropPairedReturns cs with
  | case1 => rfl
  | case2 cs ih =>
    rw [withoutReturns_return, withoutReturns_cons (by decide), ih h.tail.tail]
  | case3 c cs hpair ih =>
    rw [withoutReturns_cons (h.ne_return hpair), ih h.tail]

/-- The carriage returns that reading from bytes leaves out are those in pairs. -/
theorem unifyLineEnds_eq_dropPairedReturns (h : ReturnsPaired cs) :
    unifyLineEnds cs = dropPairedReturns cs := by
  fun_induction dropPairedReturns cs with
  | case1 => rfl
  | case2 cs ih => rw [unifyLineEnds, ih h.tail.tail]
  | case3 c cs hpair ih =>
    rw [unifyLineEnds_cons (h.ne_return hpair), ih h.tail]

/-! ### What does not show -/

/-- A carriage return in front of a newline moves no place. -/
theorem Position.past_withoutReturns (h : ReturnsPaired cs) (p : Position) :
    p.past (withoutReturns cs) = p.past cs := by
  induction cs generalizing p with
  | nil => rfl
  | cons c cs ih =>
    by_cases hc : c = '\r'
    · subst hc
      obtain ⟨ds, rfl⟩ := h.exists_newline
      rw [withoutReturns_return, ih h.tail]
      rfl
    · rw [withoutReturns_cons hc, past_cons, past_cons, ih h.tail]

namespace ReturnsPaired

/-- A piece without a newline that what is left begins with is one that the text begins with: the
newline of its pair would stand in front of it. -/
theorem isPrefix_of_withoutReturns (h : ReturnsPaired cs) {piece : List Char}
    (hpiece : '\n' ∉ piece) (hpre : piece <+: withoutReturns cs) : piece <+: cs := by
  induction cs generalizing piece with
  | nil => exact hpre
  | cons c cs ih =>
    cases piece with
    | nil => exact List.nil_prefix
    | cons d piece =>
      by_cases hc : c = '\r'
      · subst hc
        obtain ⟨ds, rfl⟩ := h.exists_newline
        rw [withoutReturns_return, withoutReturns_cons (by decide)] at hpre
        obtain ⟨rfl, -⟩ := List.cons_prefix_cons.mp hpre
        exact absurd List.mem_cons_self hpiece
      · rw [withoutReturns_cons hc] at hpre
        obtain ⟨rfl, hrest⟩ := List.cons_prefix_cons.mp hpre
        have hpiece' : '\n' ∉ piece := fun hmem => hpiece (List.mem_cons_of_mem _ hmem)
        exact List.cons_prefix_cons.mpr ⟨rfl, ih h.tail hpiece' hrest⟩

theorem isInfix_of_withoutReturns (h : ReturnsPaired cs) {piece : List Char}
    (hpiece : '\n' ∉ piece) (hin : piece <:+: withoutReturns cs) : piece <:+: cs := by
  induction cs with
  | nil => exact hin
  | cons c cs ih =>
    by_cases hc : c = '\r'
    · subst hc
      exact List.infix_cons (ih h.tail hin)
    · rw [withoutReturns_cons hc, List.infix_cons_iff] at hin
      rcases hin with hpre | hin
      · rw [← withoutReturns_cons hc] at hpre
        exact (h.isPrefix_of_withoutReturns hpiece hpre).isInfix
      · exact List.infix_cons (ih h.tail hin)

/-- Unless it is a newline, the first character that is left is the first one. -/
theorem head?_of_withoutReturns (h : ReturnsPaired cs)
    (hhead : (withoutReturns cs).head? = some c) (hc : c ≠ '\n') : cs.head? = some c := by
  obtain ⟨ds, hds⟩ := List.head?_eq_some_iff.mp hhead
  have hpre : [c] <+: withoutReturns cs := ⟨ds, hds.symm⟩
  obtain ⟨ds, rfl⟩ := h.isPrefix_of_withoutReturns (by simpa using hc.symm) hpre
  rfl

end ReturnsPaired

end HexDoc
