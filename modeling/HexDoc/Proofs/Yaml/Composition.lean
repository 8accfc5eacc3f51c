/-
HexDoc/Proofs/Yaml/Composition.lean

The YAML of a document from that of its parts.  Entries are written one behind the other, so two
environments in a row are their texts in a row.

A dictionary is written as its fields would be on their own, further right.  Its text depends on
the column that it starts in, and on whether it hangs behind the colon of a long name, but its
lines do not: in a column further right they are the same lines, each further right
(`linesOf_add`).

Main statement: `write_compositional`.
-/
import HexDoc.Proofs.Value.Data
import HexDoc.Proofs.Yaml.Lines

namespace HexDoc.Yaml

/-- A text with every line of it indented by so many blanks more, if it is made of lines. -/
def indented? (k : Nat) (text : String) : Option String :=
  (lines? text.toList).map fun ls => String.ofList (unlines (ls.map (indent k ++ ·)))

/-! ### Entries in a row -/

theorem following_append (column : Nat) (fs gs : List (Name × Plain)) :
    following column (fs ++ gs) = following column fs ++ following column gs := by
  induction fs with
  | nil => rfl
  | cons f fs ih => rw [List.cons_append, following, following, ih, ← List.append_assoc]

/-- Data of fields in a row. -/
theorem plainFields_append {fs gs : List (Name × Value)} {bs cs : List (Name × Plain)}
    (hfs : Value.plainFields fs = .ok bs) (hgs : Value.plainFields gs = .ok cs) :
    Value.plainFields (fs ++ gs) = .ok (bs ++ cs) := by
  induction fs generalizing bs with
  | nil =>
    cases hfs
    exact hgs
  | cons f fs ih =>
    obtain ⟨d, rest, hd, hrest, rfl⟩ := Value.plainFields_cons_eq_ok_iff.mp hfs
    exact Value.plainFields_cons_eq_ok_iff.mpr ⟨d, _, hd, ih hrest, rfl⟩

/-- There are as many data as fields. -/
theorem ne_nil_of_plainFields {fs : List (Name × Value)} {bs : List (Name × Plain)}
    (h : Value.plainFields fs = .ok bs) (hne : fs ≠ []) : bs ≠ [] := by
  obtain ⟨f, fs, rfl⟩ := List.exists_cons_of_ne_nil hne
  obtain ⟨d, rest, -, -, rfl⟩ := Value.plainFields_cons_eq_ok_iff.mp h
  exact List.cons_ne_nil _ _

/-- The first entry of a document is in the first column, as the others are. -/
theorem document_eq {bs : List (Name × Plain)} (h : bs ≠ []) :
    document bs = String.ofList (following 0 bs) := by
  obtain ⟨f, fs, rfl⟩ := List.exists_cons_of_ne_nil h
  rw [document, ← indent_append_content]
  rfl

/-! ### Lines further right -/

/-- A line further right. -/
def rightBy (k : Nat) (l : Line) : Line :=
  (l.1 + k, l.2)

theorem lineText_rightBy (k : Nat) (l : Line) : lineText (rightBy k l) = indent k ++ lineText l := by
  rw [lineText, lineText, rightBy, indent, Nat.add_comm, ← List.replicate_append_replicate,
    List.append_assoc]
  rfl

theorem hang_add (column k : Nat) (ls : List Line) :
    hang (column + k) (ls.map (rightBy k)) = (hang column ls).map (rightBy k) := by
  cases ls <;> rfl

theorem inlineEntry_add (column k : Nat) (n : Name) (data : List Char) :
    inlineEntry (column + k) n data = (inlineEntry column n data).map (rightBy k) := by
  unfold inlineEntry
  split <;> rfl

theorem blockEntry_add (column k : Nat) (n : Name) (ls : List Line) :
    blockEntry (column + k) n (ls.map (rightBy k)) = (blockEntry column n ls).map (rightBy k) := by
  unfold blockEntry
  split
  · rfl
  · rw [hang_add]
    rfl

mutual

theorem entryLines_add (column k : Nat) (n : Name) (d : Plain) :
    entryLines (column + k) n d = (entryLines column n d).map (rightBy k) := by
  match d with
  | .number m =>
    rw [entryLines, entryLines, inlineEntry_add]
  | .dict [] =>
    rw [entryLines, entryLines, inlineEntry_add]
  | .dict (f :: fs) =>
    rw [entryLines, entryLines, Nat.add_right_comm, linesOf_add (column + 2) k (f :: fs),
      blockEntry_add]

/-- In a column further right, entries have the same lines, each further right. -/
theorem linesOf_add (column k : Nat) (fs : List (Name × Plain)) :
    linesOf (column + k) fs = (linesOf column fs).map (rightBy k) := by
  match fs with
  | [] => rfl
  | (n, d) :: fs =>
    rw [linesOf, linesOf, List.map_append, entryLines_add column k n d, linesOf_add column k fs]

end

/-- The text of entries in a column further right is their text, with every line indented. -/
theorem indented?_following {column k : Nat} {bs : List (Name × Plain)} (h : Plain.HaveNames bs) :
    indented? k (String.ofList (following column bs)) =
      some (String.ofList (following (column + k) bs)) := by
  have hlines : lines? (following column bs) = some ((linesOf column bs).map lineText) := by
    rw [← unlines_linesOf]
    exact (tidy_linesOf h).lines?_eq
  have htext : ((linesOf column bs).map lineText).map (indent k ++ ·) =
      (linesOf (column + k) bs).map lineText := by
    rw [linesOf_add, List.map_map, List.map_map]
    exact List.map_congr_left fun l _ => (lineText_rightBy k l).symm
  rw [indented?, String.toList_ofList, hlines, Option.map_some, htext, unlines_linesOf]

/-! ### A dictionary under a name -/

/-- The text of a name, in quotes if it is reserved. -/
theorem ofList_key (n : Name) :
    String.ofList (key n) = if n ∈ reservedWords then "'" ++ n ++ "'" else n := by
  unfold key
  split
  · rw [← String.toList_inj, String.toList_ofList, String.toList_append, String.toList_append]
    rfl
  · exact String.ofList_toList

/-- No reserved word is long. -/
theorem ofList_key_of_lt {n : Name} (h : ¬ n.length ≤ longestSimpleKey) :
    String.ofList (key n) = n := by
  have hshort : reservedWords.all (·.length ≤ longestSimpleKey) = true := by decide
  rw [ofList_key, if_neg]
  intro hn
  exact h (of_decide_eq_true (List.all_eq_true.mp hshort n hn))

/-- The text of a dictionary in the third column, its first line indented as the others. -/
theorem ofList_following_two (f : Name × Plain) (fs : List (Name × Plain)) :
    String.ofList (following 2 (f :: fs)) = "  " ++ String.ofList (content 2 (.dict (f :: fs))) := by
  rw [← indent_append_content, String.ofList_append]
  rfl

/-- The document of a dictionary under a name. -/
theorem document_nested (n : Name) (f : Name × Plain) (fs : List (Name × Plain)) :
    document [(n, .dict (f :: fs))] =
      if n.length ≤ longestSimpleKey then
        String.ofList (key n) ++ ":\n" ++ String.ofList (following 2 (f :: fs))
      else "? " ++ String.ofList (key n) ++ "\n: " ++ String.ofList (content 2 (.dict (f :: fs))) := by
  rw [document, content, following, List.append_nil, isBlock, entryHead]
  split
  · rw [← indent_append_content, ← String.toList_inj]
    simp only [String.toList_ofList, String.toList_append, List.append_assoc]
    rfl
  · rw [← String.toList_inj]
    simp only [String.toList_ofList, String.toList_append, List.append_assoc]
    rfl

/-! ### Documents -/

theorem write_of_plain {env : Environment} {bs : List (Name × Plain)} (h : env.plain = .ok bs) :
    write env = .ok (document bs) := by
  rw [write, h]
  rfl

/-- Two environments in a row are written as their texts in a row. -/
theorem write_append {e₁ e₂ : Environment} (hne₁ : e₁ ≠ []) (hne₂ : e₂ ≠ [])
    (hres₁ : ∀ b ∈ e₁, b.2.IsResolved) (hres₂ : ∀ b ∈ e₂, b.2.IsResolved) :
    ∃ t₁ t₂, write e₁ = .ok t₁ ∧ write e₂ = .ok t₂ ∧ write (e₁ ++ e₂) = .ok (t₁ ++ t₂) := by
  obtain ⟨bs, hbs⟩ := Environment.exists_plain_iff.mpr hres₁
  obtain ⟨cs, hcs⟩ := Environment.exists_plain_iff.mpr hres₂
  have hbs_ne := ne_nil_of_plainFields hbs hne₁
  have hcs_ne := ne_nil_of_plainFields hcs hne₂
  refine ⟨_, _, write_of_plain hbs, write_of_plain hcs, ?_⟩
  rw [write_of_plain (plainFields_append hbs hcs), document_eq (by simp [hbs_ne]),
    document_eq hbs_ne, document_eq hcs_ne, following_append, String.ofList_append]

/-- A dictionary under a name is written as the name and the text of its fields, further right. -/
theorem write_nested (n : Name) {fs : Fields} (hne : fs ≠ []) (hres : ∀ f ∈ fs, f.2.IsResolved)
    (hnames : Value.HaveNames fs) :
    ∃ t rest, write fs = .ok t ∧ indented? 2 t = some ("  " ++ rest) ∧
      write [(n, .dict fs)] = .ok
        (if n.length ≤ longestSimpleKey then
          (if n ∈ reservedWords then "'" ++ n ++ "'" else n) ++ ":\n" ++ ("  " ++ rest)
        else "? " ++ n ++ "\n: " ++ rest) := by
  obtain ⟨bs, hbs⟩ := Environment.exists_plain_iff.mpr hres
  have hplain : Environment.plain [(n, .dict fs)] = .ok [(n, .dict bs)] :=
    Value.plainFields_cons_eq_ok_iff.mpr ⟨_, [], Outcome.map_eq_ok_iff.mpr ⟨bs, hbs, rfl⟩, rfl, rfl⟩
  obtain ⟨b, bs, rfl⟩ := List.exists_cons_of_ne_nil (ne_nil_of_plainFields hbs hne)
  refine ⟨_, String.ofList (content 2 (.dict (b :: bs))), write_of_plain hbs, ?_, ?_⟩
  · rw [document_eq (List.cons_ne_nil b bs),
      indented?_following (Value.haveNames_of_plainFields hnames hbs), ofList_following_two]
  · rw [write_of_plain hplain, document_nested, ofList_following_two]
    split
    · rw [ofList_key]
    · rename_i hlong
      rw [ofList_key_of_lt hlong]

/-- Two environments in a row are written as their texts in a row.  A dictionary under a name is
written as that name, in quotes if it is reserved, and the text of its fields on the lines below,
each indented by two blanks; behind a long name, the first of these lines follows a colon and is
not indented. -/
theorem write_compositional :
    (∀ e₁ e₂ : Environment, e₁ ≠ [] → e₂ ≠ [] →
      (∀ b ∈ e₁, b.2.IsResolved) → (∀ b ∈ e₂, b.2.IsResolved) →
      ∃ t₁ t₂, write e₁ = .ok t₁ ∧ write e₂ = .ok t₂ ∧ write (e₁ ++ e₂) = .ok (t₁ ++ t₂)) ∧
    ∀ (n : Name) (fs : Fields), fs ≠ [] → (∀ f ∈ fs, f.2.IsResolved) → Value.HaveNames fs →
      ∃ t rest, write fs = .ok t ∧ indented? 2 t = some ("  " ++ rest) ∧
        write [(n, .dict fs)] = .ok
          (if n.length ≤ 122 then
            (if n ∈ reservedWords then "'" ++ n ++ "'" else n) ++ ":\n" ++ ("  " ++ rest)
          else "? " ++ n ++ "\n: " ++ rest) :=
  ⟨fun _ _ => write_append, fun n _ => write_nested n⟩

/-- A dictionary under a long name, and its fields behind another binding. -/
theorem write_compositional_long :
    let long := String.ofList (List.replicate 123 'k')
    let fs : Fields := [("on", .number ⟨"0x1", 1⟩), ("d", .dict [("k", .dict [])])]
    write fs = .ok "'on': 1\nd:\n  k: \x7b\x7d\n" ∧
      write [(long, .dict fs)] =
        .ok ("? " ++ long ++ "\n: " ++ "'on': 1\n  d:\n    k: \x7b\x7d\n") ∧
      write ([("a", .number ⟨"0xA", 10⟩)] ++ fs) =
        .ok ("a: 10\n" ++ "'on': 1\nd:\n  k: \x7b\x7d\n") := by
  intro long fs
  obtain ⟨happend, hnested⟩ := write_compositional
  have hnames : Value.HaveNames fs :=
    ⟨⟨'o', _, rfl, rfl, by decide⟩, trivial, ⟨'d', _, rfl, rfl, by decide⟩,
      ⟨⟨'k', _, rfl, rfl, by decide⟩, trivial, trivial⟩, trivial⟩
  have hres : ∀ f ∈ fs, f.2.IsResolved :=
    List.forall_mem_cons.mpr ⟨⟨rfl, rfl⟩, List.forall_mem_singleton.mpr ⟨rfl, rfl⟩⟩
  have hwrite : write fs = .ok "'on': 1\nd:\n  k: \x7b\x7d\n" := by with_unfolding_all rfl
  have hfirst : write [("a", .number ⟨"0xA", 10⟩)] = .ok "a: 10\n" := by with_unfolding_all rfl
  have hindented : indented? 2 "'on': 1\nd:\n  k: \x7b\x7d\n" =
      some ("  " ++ "'on': 1\n  d:\n    k: \x7b\x7d\n") := by with_unfolding_all rfl
  refine ⟨hwrite, ?_, ?_⟩
  · obtain ⟨t, rest, ht, hrest, hlong⟩ := hnested long fs (List.cons_ne_nil _ _) hres hnames
    rw [← Except.ok.inj (hwrite.symm.trans ht), hindented, Option.some.injEq,
      String.append_right_inj] at hrest
    have hlength : ¬ long.length ≤ 122 := by
      rw [String.length_ofList, List.length_replicate]
      decide
    rw [hlong, if_neg hlength, hrest]
  · obtain ⟨t₁, t₂, ht₁, ht₂, hboth⟩ := happend [("a", .number ⟨"0xA", 10⟩)] fs
      (List.cons_ne_nil _ _) (List.cons_ne_nil _ _)
      (List.forall_mem_singleton.mpr ⟨rfl, rfl⟩) hres
    rw [hboth, ← Except.ok.inj (hfirst.symm.trans ht₁), ← Except.ok.inj (hwrite.symm.trans ht₂)]

end HexDoc.Yaml
