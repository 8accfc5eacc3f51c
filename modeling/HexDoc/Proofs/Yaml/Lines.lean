/-
HexDoc/Proofs/Yaml/Lines.lean

The lines that data are written as, each with its column.  An entry is one line, or two if its
name is long, with the lines of its dictionary two columns further right; behind a long name, the
first of these hangs on the line of the colon and gives up its own column (`hang`).

Main statements: the text of entries is that of their lines (`unlines_linesOf`), and the lines are
found in it again if all keys are names (`tidy_linesOf`, `Tidy.lines?_eq`, `Tidy.map_lineOf`).
-/
import HexDoc.Proofs.Yaml.Scalars
import HexDoc.Text.Lines
import HexDoc.Value.Names

namespace HexDoc.Yaml

/-- A line with its indentation. -/
def lineText (l : Line) : List Char :=
  indent l.1 ++ l.2

/-- Lines with the first of them behind a colon in a column. -/
def hang (column : Nat) : List Line → List Line
  | [] => []
  | (_, cs) :: ls => (column, ':' :: ' ' :: cs) :: ls

/-- The lines of an entry in a column whose data are on one line. -/
def inlineEntry (column : Nat) (n : Name) (data : List Char) : List Line :=
  if n.length ≤ longestSimpleKey then [(column, key n ++ ':' :: ' ' :: data)]
  else [(column, '?' :: ' ' :: key n), (column, ':' :: ' ' :: data)]

/-- The lines of an entry in a column whose data are on lines of their own. -/
def blockEntry (column : Nat) (n : Name) (ls : List Line) : List Line :=
  if n.length ≤ longestSimpleKey then (column, key n ++ [':']) :: ls
  else (column, '?' :: ' ' :: key n) :: hang column ls

mutual

/-- The lines of an entry in a column. -/
def entryLines (column : Nat) (n : Name) : Plain → List Line
  | .number m => inlineEntry column n (Nat.toDigits 10 m)
  | .dict [] => inlineEntry column n ['\x7b', '\x7d']
  | .dict (f :: fs) => blockEntry column n (linesOf (column + 2) (f :: fs))

/-- The lines of the entries in a column. -/
def linesOf (column : Nat) : List (Name × Plain) → List Line
  | [] => []
  | (n, d) :: fs => entryLines column n d ++ linesOf column fs

end

/-! ### The first line of an entry -/

theorem startsEntry_key {n : Name} (hn : IsName n) (cs : List Char) : StartsEntry (key n ++ cs) := by
  obtain ⟨c, hc, hcase⟩ := exists_head?_key hn cs
  exact ⟨c, hc, hcase.imp_right .inl⟩

theorem startsEntry_mark (cs : List Char) : StartsEntry ('?' :: cs) :=
  ⟨'?', rfl, .inr (.inr rfl)⟩

theorem exists_inlineEntry_eq_cons (column : Nat) (n : Name) (data : List Char) :
    ∃ cs ls, inlineEntry column n data = (column, cs) :: ls ∧ (IsName n → StartsEntry cs) := by
  unfold inlineEntry
  split
  · exact ⟨_, _, rfl, fun hn => startsEntry_key hn _⟩
  · exact ⟨_, _, rfl, fun _ => startsEntry_mark _⟩

theorem exists_blockEntry_eq_cons (column : Nat) (n : Name) (ls : List Line) :
    ∃ cs ls', blockEntry column n ls = (column, cs) :: ls' ∧ (IsName n → StartsEntry cs) := by
  unfold blockEntry
  split
  · exact ⟨_, _, rfl, fun hn => startsEntry_key hn _⟩
  · exact ⟨_, _, rfl, fun _ => startsEntry_mark _⟩

/-- The first line of an entry is in its column, and it tells that it is one. -/
theorem exists_entryLines_eq_cons (column : Nat) (n : Name) (d : Plain) :
    ∃ cs ls, entryLines column n d = (column, cs) :: ls ∧ (IsName n → StartsEntry cs) := by
  match d with
  | .number m =>
    rw [entryLines]
    exact exists_inlineEntry_eq_cons column n _
  | .dict [] =>
    rw [entryLines]
    exact exists_inlineEntry_eq_cons column n _
  | .dict (f :: fs) =>
    rw [entryLines]
    exact exists_blockEntry_eq_cons column n _

theorem exists_linesOf_eq_cons (column : Nat) (f : Name × Plain) (fs : List (Name × Plain)) :
    ∃ cs ls, linesOf column (f :: fs) = (column, cs) :: ls ∧ (IsName f.1 → StartsEntry cs) := by
  obtain ⟨cs, ls, hentry, hstart⟩ := exists_entryLines_eq_cons column f.1 f.2
  exact ⟨cs, ls ++ linesOf column fs, by rw [linesOf, hentry, List.cons_append], hstart⟩

/-! ### The text of lines -/

/-- The entries of a dictionary are those of its column, without the first indentation. -/
theorem indent_append_content (column : Nat) (f : Name × Plain) (fs : List (Name × Plain)) :
    indent column ++ content column (.dict (f :: fs)) = following column (f :: fs) := by
  rw [following, content]
  simp only [List.append_assoc]

/-- The text of an entry whose data are on one line. -/
theorem unlines_inlineEntry (column : Nat) (n : Name) (data : List Char) :
    unlines ((inlineEntry column n data).map lineText) =
      indent column ++ entryHead column n false ++ (data ++ ['\n']) := by
  unfold inlineEntry entryHead
  split <;> simp [lineText]

/-- The text of an entry whose data are on lines of their own. -/
theorem unlines_blockEntry (column : Nat) (n : Name) (cs : List Char) (ls : List Line) :
    unlines ((blockEntry column n ((column + 2, cs) :: ls)).map lineText) =
      indent column ++ entryHead column n true ++ (cs ++ '\n' :: unlines (ls.map lineText)) := by
  unfold blockEntry entryHead
  split <;> simp [lineText, hang]

mutual

theorem unlines_entryLines (column : Nat) (n : Name) (d : Plain) :
    unlines ((entryLines column n d).map lineText) =
      indent column ++ entryHead column n (isBlock d) ++ content (column + 2) d := by
  match d with
  | .number m =>
    rw [entryLines, unlines_inlineEntry, content]
    rfl
  | .dict [] =>
    rw [entryLines, unlines_inlineEntry, content]
    rfl
  | .dict (f :: fs) =>
    have hlines := unlines_linesOf (column + 2) (f :: fs)
    obtain ⟨cs, ls, hcons, -⟩ := exists_linesOf_eq_cons (column + 2) f fs
    rw [← indent_append_content, hcons, List.map_cons, unlines_cons, lineText, List.append_assoc]
      at hlines
    rw [entryLines, hcons, unlines_blockEntry, List.append_cancel_left hlines]
    rfl

/-- The text of entries is that of their lines. -/
theorem unlines_linesOf (column : Nat) (fs : List (Name × Plain)) :
    unlines ((linesOf column fs).map lineText) = following column fs := by
  match fs with
  | [] => rfl
  | (n, d) :: fs =>
    rw [linesOf, List.map_append, unlines_append, unlines_entryLines column n d,
      unlines_linesOf column fs, following]

end

/-! ### Finding the lines again -/

theorem lines?_append {l : List Char} (hl : '\n' ∉ l) (cs : List Char) :
    lines? (l ++ '\n' :: cs) = (lines? cs).map (l :: ·) := by
  induction l with
  | nil => rw [List.nil_append, lines?]; cases lines? cs <;> rfl
  | cons c l ih =>
    rw [List.mem_cons, not_or] at hl
    have hc : c ≠ '\n' := fun hc => hl.1 hc.symm
    rw [List.cons_append, lines?, ih hl.2]
    cases lines? cs <;> simp [hc]

/-- A text is cut into the lines that it was put together from. -/
theorem lines?_unlines {ls : List (List Char)} (h : ∀ l ∈ ls, '\n' ∉ l) :
    lines? (unlines ls) = some ls := by
  induction ls with
  | nil => rfl
  | cons l ls ih =>
    rw [List.forall_mem_cons] at h
    rw [unlines_cons, lines?_append h.1, ih h.2, Option.map_some]

/-- A line is told from its indentation. -/
theorem lineOf_lineText {l : Line} (h : l.2.head? ≠ some ' ') : lineOf (lineText l) = l := by
  have hindent : ∀ c ∈ indent l.1, decide (c = ' ') = true := by
    intro c hc
    simpa using List.eq_of_mem_replicate hc
  have hhead : ∀ c ∈ l.2.head?, decide (c = ' ') = false := by
    intro c hc
    rw [decide_eq_false_iff_not]
    rintro rfl
    exact h hc
  rw [lineOf, lineText, takeWhile_append_stop hindent hhead, dropWhile_append_stop hindent hhead,
    indent, List.length_replicate]

/-- Lines that can be told from their text. -/
def Tidy (ls : List Line) : Prop :=
  ∀ l ∈ ls, '\n' ∉ l.2 ∧ l.2.head? ≠ some ' '

theorem Tidy.lines?_eq {ls : List Line} (h : Tidy ls) :
    lines? (unlines (ls.map lineText)) = some (ls.map lineText) := by
  apply lines?_unlines
  rw [List.forall_mem_map]
  intro l hl
  simp [lineText, indent, (h l hl).1]

theorem Tidy.map_lineOf {ls : List Line} (h : Tidy ls) : (ls.map lineText).map lineOf = ls := by
  rw [List.map_map]
  calc ls.map (lineOf ∘ lineText)
      = ls.map id := List.map_congr_left fun l hl => lineOf_lineText (h l hl).2
    _ = ls := List.map_id ls

theorem tidy_hang {column : Nat} {ls : List Line} (h : Tidy ls) : Tidy (hang column ls) := by
  cases ls with
  | nil => exact h
  | cons l ls =>
    obtain ⟨hl, hls⟩ := List.forall_mem_cons.mp h
    exact List.forall_mem_cons.mpr ⟨⟨by simp [hl.1], by simp⟩, hls⟩

/-- The text of a name, with more behind it, is on one line and starts without a blank. -/
theorem tidy_key {n : Name} (hn : IsName n) {cs : List Char} (hcs : '\n' ∉ cs) :
    '\n' ∉ key n ++ cs ∧ (key n ++ cs).head? ≠ some ' ' := by
  have hkey : '\n' ∉ key n := notMem_key hn rfl (by decide)
  refine ⟨by simp [hkey, hcs], ?_⟩
  exact (startsEntry_key hn cs).head?_ne (by decide)

theorem tidy_inlineEntry {column : Nat} {n : Name} (hn : IsName n) {data : List Char}
    (hdata : '\n' ∉ data) : Tidy (inlineEntry column n data) := by
  have hkey := notMem_key hn (c := '\n') rfl (by decide)
  unfold inlineEntry
  split
  · exact List.forall_mem_singleton.mpr (tidy_key hn (by simp [hdata]))
  · exact List.forall_mem_cons.mpr ⟨⟨by simp [hkey], by simp⟩,
      List.forall_mem_singleton.mpr ⟨by simp [hdata], by simp⟩⟩

theorem tidy_blockEntry {column : Nat} {n : Name} (hn : IsName n) {ls : List Line}
    (h : Tidy ls) : Tidy (blockEntry column n ls) := by
  have hkey := notMem_key hn (c := '\n') rfl (by decide)
  unfold blockEntry
  split
  · exact List.forall_mem_cons.mpr ⟨tidy_key hn (by simp), h⟩
  · exact List.forall_mem_cons.mpr ⟨⟨by simp [hkey], by simp⟩, tidy_hang h⟩

mutual

theorem tidy_entryLines {column : Nat} {n : Name} {d : Plain} (hn : IsName n) (hd : d.HasNames) :
    Tidy (entryLines column n d) := by
  match d with
  | .number m =>
    have hdigits : '\n' ∉ Nat.toDigits 10 m := fun hmem => by
      cases isDigit_of_mem_toDigits _ hmem
    rw [entryLines]
    exact tidy_inlineEntry hn hdigits
  | .dict [] =>
    rw [entryLines]
    exact tidy_inlineEntry hn (by decide)
  | .dict (f :: fs) =>
    rw [entryLines]
    exact tidy_blockEntry hn (tidy_linesOf hd)

/-- The lines of entries can be told from their text. -/
theorem tidy_linesOf {column : Nat} {fs : List (Name × Plain)} (h : Plain.HaveNames fs) :
    Tidy (linesOf column fs) := by
  match fs with
  | [] =>
    rw [linesOf]
    simp [Tidy]
  | (n, d) :: fs =>
    obtain ⟨hn, hd, hfs⟩ := h
    rw [linesOf]
    exact List.forall_mem_append.mpr ⟨tidy_entryLines hn hd, tidy_linesOf hfs⟩

end

end HexDoc.Yaml
