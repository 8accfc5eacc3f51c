/-
HexDoc/Proofs/Yaml/RoundTrip.lean

YAML documents and the data in them.  Entries are read back from their lines one by one, each with
whatever stands behind it; a dictionary ends at the first line further left
(`mapping?_linesOf`).

Main statement: an environment of resolved values, keyed by names at every level, is written as a
document that all its data are read back from, so that only environments with the same data have
the same document (`read?_write_of_hasNames`).
-/
import HexDoc.Proofs.Value.Data
import HexDoc.Proofs.Yaml.Lines

namespace HexDoc.Yaml

variable {column steps : Nat} {n : Name}

/-! ### Reading one entry -/

theorem mapping?_cons {cs : List Char} {ls rest : List Line} {e : Name × Plain}
    (h : entry? column steps cs ls = some (e, rest)) :
    mapping? column (steps + 1) ((column, cs) :: ls) =
      (mapping? column steps rest).map fun r => (e :: r.1, r.2) := by
  rw [mapping?, if_neg (by simp)]
  simp only [h]

theorem key_append_ne_mark (hn : IsName n) (cs ds : List Char) : key n ++ cs ≠ '?' :: ds := by
  obtain ⟨c, hc, hcase⟩ := exists_head?_key hn cs
  intro heq
  rw [heq] at hc
  cases hc
  rcases hcase with hstart | hquote
  · cases hstart
  · cases hquote

/-- An entry with a simple key is taken apart at its colon; its data are on the line. -/
theorem entry?_simple_inline (hn : IsName n) {data : List Char} {d : Plain}
    (hdata : inline? data = some d) (ls : List Line) :
    entry? column steps (key n ++ ':' :: ' ' :: data) ls = some ((n, d), ls) := by
  have hcolon : ':' ∉ key n := notMem_key hn rfl (by decide)
  rw [entry?_simple fun _ => key_append_ne_mark hn _ _]
  simp only [takeWhile_ne_append hcolon, dropWhile_ne_append hcolon, name?_key hn, hdata,
    Option.map_some]

/-- An entry with a simple key is taken apart at its colon; its data are on the lines behind. -/
theorem entry?_simple_block (hn : IsName n) (ls : List Line) :
    entry? column steps (key n ++ [':']) ls = nested? column steps n ls := by
  have hcolon : ':' ∉ key n := notMem_key hn rfl (by decide)
  rw [entry?_simple fun _ => key_append_ne_mark hn _ _]
  simp only [takeWhile_ne_append hcolon, dropWhile_ne_append hcolon, name?_key hn]

theorem nested?_of_mapping? {ls rest : List Line} {f : Name × Plain} {fs : List (Name × Plain)}
    (h : mapping? (column + 2) steps ls = some (f :: fs, rest)) :
    nested? column (steps + 1) n ls = some ((n, .dict (f :: fs)), rest) := by
  rw [nested?, h]

/-- With a complex key, the data stand behind the colon on the next line. -/
theorem entry?_complex_inline (hn : IsName n) {data : List Char} {d : Plain}
    (hdata : inline? data = some d) (ls : List Line) :
    entry? column steps ('?' :: ' ' :: key n) ((column, ':' :: ' ' :: data) :: ls) =
      some ((n, d), ls) := by
  rw [entry?_complex (name?_key hn), hdata]

/-- With a complex key, what starts an entry behind the colon starts a dictionary. -/
theorem entry?_complex_block (hn : IsName n) {cs : List Char} (hcs : StartsEntry cs)
    (ls : List Line) :
    entry? column steps ('?' :: ' ' :: key n) ((column, ':' :: ' ' :: cs) :: ls) =
      nested? column steps n ((column + 2, cs) :: ls) := by
  rw [entry?_complex (name?_key hn), inline?_of_startsEntry hcs]

/-- An entry whose data are on one line is read back. -/
theorem mapping?_inlineEntry (hn : IsName n) {data : List Char} {d : Plain}
    (hdata : inline? data = some d) (rest : List Line) :
    mapping? column (steps + 1) (inlineEntry column n data ++ rest) =
      (mapping? column steps rest).map fun r => ((n, d) :: r.1, r.2) := by
  unfold inlineEntry
  split <;> rw [List.cons_append]
  · exact mapping?_cons (entry?_simple_inline hn hdata rest)
  · exact mapping?_cons (entry?_complex_inline hn hdata rest)

/-- An entry whose data are on lines of their own is read back, if its dictionary is read back
two columns further right. -/
theorem mapping?_blockEntry (hn : IsName n) {cs : List Char} (hcs : StartsEntry cs)
    {ls rest : List Line} {f : Name × Plain} {fs : List (Name × Plain)}
    (h : mapping? (column + 2) steps ((column + 2, cs) :: ls ++ rest) = some (f :: fs, rest)) :
    mapping? column (steps + 2) (blockEntry column n ((column + 2, cs) :: ls) ++ rest) =
      (mapping? column (steps + 1) rest).map fun r => ((n, .dict (f :: fs)) :: r.1, r.2) := by
  have hnested := nested?_of_mapping? (n := n) h
  unfold blockEntry
  split <;> rw [List.cons_append]
  · exact mapping?_cons ((entry?_simple_block hn _).trans hnested)
  · exact mapping?_cons ((entry?_complex_block hn hcs _).trans hnested)

/-! ### Reading the entries of a column -/

theorem length_blockEntry (column : Nat) (n : Name) (cs : List Char) (ls : List Line) :
    (blockEntry column n ((column + 2, cs) :: ls)).length = ls.length + 2 := by
  unfold blockEntry
  split <;> simp [hang]

mutual

/-- An entry is read back, if no line further right comes behind it.  Reading a dictionary takes
two steps for each level, and each level has a line of its own. -/
theorem mapping?_entryLines {column steps : Nat} {n : Name} {d : Plain} (hn : IsName n)
    (hd : d.HasNames) {rest : List Line} (hrest : ∀ l ∈ rest.head?, l.1 ≤ column)
    (hsteps : 2 * (entryLines column n d).length ≤ steps) :
    mapping? column (steps + 1) (entryLines column n d ++ rest) =
      (mapping? column steps rest).map fun r => ((n, d) :: r.1, r.2) := by
  match d with
  | .number m =>
    rw [entryLines]
    exact mapping?_inlineEntry hn (inline?_digits m) rest
  | .dict [] =>
    rw [entryLines]
    exact mapping?_inlineEntry hn inline?_braces rest
  | .dict (f :: fs) =>
    obtain ⟨cs, ls, hcons, hstart⟩ := exists_linesOf_eq_cons (column + 2) f fs
    rw [entryLines, hcons, length_blockEntry] at hsteps
    obtain ⟨steps, rfl⟩ : ∃ k, steps = k + 1 := ⟨steps - 1, by omega⟩
    -- what stands behind the entry stands further left than its dictionary
    have hfurther : ∀ l ∈ rest.head?, l.1 < column + 2 := by
      intro l hl
      have := hrest l hl
      omega
    have hlength : (linesOf (column + 2) (f :: fs)).length = ls.length + 1 := by
      rw [hcons, List.length_cons]
    have hdict : mapping? (column + 2) steps (linesOf (column + 2) (f :: fs) ++ rest) =
        some (f :: fs, rest) :=
      mapping?_linesOf hd hfurther (by omega)
    rw [hcons] at hdict
    rw [entryLines, hcons]
    exact mapping?_blockEntry hn (hstart hd.1) hdict

/-- The entries in a column are read back, up to a line further left. -/
theorem mapping?_linesOf {column steps : Nat} {fs : List (Name × Plain)}
    (h : Plain.HaveNames fs) {rest : List Line}
    (hrest : ∀ l ∈ rest.head?, l.1 < column) (hsteps : 2 * (linesOf column fs).length < steps) :
    mapping? column steps (linesOf column fs ++ rest) = some (fs, rest) := by
  obtain ⟨steps, rfl⟩ : ∃ k, steps = k + 1 := ⟨steps - 1, by omega⟩
  match fs with
  | [] =>
    rw [linesOf, List.nil_append]
    cases rest with
    | nil => rw [mapping?]
    | cons l rest =>
      have hl := hrest l rfl
      rw [mapping?, if_pos (by omega)]
  | (n, d) :: fs =>
    obtain ⟨hn, hd, hfs⟩ := h
    obtain ⟨cs, ls, hcons, -⟩ := exists_entryLines_eq_cons column n d
    have hlength : 0 < (entryLines column n d).length := by simp [hcons]
    rw [linesOf, List.length_append] at hsteps
    -- behind the first entry comes the next in the same column, or what is further left
    have hbehind : ∀ l ∈ (linesOf column fs ++ rest).head?, l.1 ≤ column := by
      intro l hl
      cases fs with
      | nil => exact Nat.le_of_lt (hrest l hl)
      | cons f fs =>
        obtain ⟨cs', ls', hcons', -⟩ := exists_linesOf_eq_cons column f fs
        rw [hcons'] at hl
        cases hl
        exact Nat.le_refl column
    rw [linesOf, List.append_assoc, mapping?_entryLines hn hd hbehind (by omega),
      mapping?_linesOf hfs hrest (by omega), Option.map_some]

end

/-! ### Documents and data -/

theorem length_le_size (ls : List Line) : ls.length ≤ size ls := by
  induction ls with
  | nil => exact Nat.le_refl 0
  | cons l ls ih =>
    have hcons : size (l :: ls) = l.2.length + 1 + size ls := rfl
    rw [hcons, List.length_cons]
    omega

/-- The document of entries is made of their lines. -/
theorem toList_document (f : Name × Plain) (fs : List (Name × Plain)) :
    (document (f :: fs)).toList = unlines ((linesOf 0 (f :: fs)).map lineText) := by
  rw [document, String.toList_ofList, unlines_linesOf, ← indent_append_content]
  rfl

/-- The data of a document are read back from it. -/
theorem read?_document {fs : List (Name × Plain)} (h : Plain.HaveNames fs) :
    read? (document fs) = some fs := by
  cases fs with
  | nil => rfl
  | cons f fs =>
    have htidy : Tidy (linesOf 0 (f :: fs)) := tidy_linesOf h
    have hlength := length_le_size (linesOf 0 (f :: fs))
    have hmapping : mapping? 0 (2 * size (linesOf 0 (f :: fs)) + 2) (linesOf 0 (f :: fs) ++ []) =
        some (f :: fs, []) :=
      mapping?_linesOf h (by simp) (by omega)
    rw [List.append_nil] at hmapping
    -- the first line tells a document with entries from the empty one
    have hfirst : (linesOf 0 (f :: fs)).map lineText ≠ [['\x7b', '\x7d']] := by
      obtain ⟨cs, ls, hcons, hstart⟩ := exists_linesOf_eq_cons 0 f fs
      intro heq
      rw [hcons] at heq
      have hcs : cs = ['\x7b', '\x7d'] := (List.cons.inj heq).1
      exact (hstart h.1).head?_ne (d := '\x7b') (by decide) (by rw [hcs]; rfl)
    rw [read?, toList_document, htidy.lines?_eq]
    split
    · rename_i hnone
      cases hnone
    · rename_i hbraces
      exact absurd (Option.some.inj hbraces) hfirst
    · rename_i ls _ hls
      cases hls
      rw [htidy.map_lineOf, hmapping]

/-- An environment of resolved values whose keys are names, at every level, is written as a YAML
document, and all its data are read back from that document, names as words and in order; so an
environment with the same document has the same data. -/
theorem read?_write_of_hasNames {env : Environment}
    (henv : ∀ b ∈ env, IsName b.1 ∧ b.2.HasNames ∧ b.2.IsResolved) :
    ∃ text bs, write env = .ok text ∧ env.plain = .ok bs ∧ read? text = some bs ∧
      Entries.keys bs = env.keys ∧
      ∀ env' : Environment, (∀ b ∈ env', IsName b.1 ∧ b.2.HasNames) → write env' = .ok text →
        env'.plain = .ok bs := by
  obtain ⟨bs, hbs⟩ := Environment.exists_plain_iff.mpr fun b hb => (henv b hb).2.2
  have hnames : Plain.HaveNames bs :=
    Value.haveNames_of_plainFields
      (Value.haveNames_iff.mpr fun b hb => ⟨(henv b hb).1, (henv b hb).2.1⟩) hbs
  refine ⟨document bs, bs, ?_, hbs, read?_document hnames, Environment.keys_of_plain hbs, ?_⟩
  · rw [write, hbs]
    rfl
  · intro env' henv' hwrite
    rw [write, Outcome.map_eq_ok_iff] at hwrite
    obtain ⟨bs', hbs', hdoc⟩ := hwrite
    have hnames' := Value.haveNames_of_plainFields (Value.haveNames_iff.mpr henv') hbs'
    have hread := read?_document hnames'
    -- both are what the one document is read back as
    rw [hdoc, read?_document hnames] at hread
    cases hread
    exact hbs'

/-- Names that have to be quoted, a name that is too long for a simple key, and an empty mapping. -/
theorem read?_write_of_hasNames_long :
    let long := String.ofList (List.replicate 123 'k')
    let env : Environment :=
      [("yes", .dict [("null", .number ⟨"0x5", 5⟩),
        (long, .dict [("a", .dict []), ("b", .number ⟨"0x10", 16⟩)])]), ("x", .dict [])]
    ∃ text, write env = .ok text ∧
      text = "'yes':\n  'null': 5\n  ? " ++ long ++ "\n  : a: \x7b\x7d\n    b: 16\nx: \x7b\x7d\n" ∧
      read? text = some
        [("yes", .dict [("null", .number 5), (long, .dict [("a", .dict []), ("b", .number 16)])]),
          ("x", .dict [])] := by
  intro long env
  have hlong : IsName long := ⟨'k', List.replicate 122 'k', String.toList_ofList, rfl, by decide⟩
  have hyes : IsName "yes" := ⟨'y', _, rfl, rfl, by decide⟩
  have hnull : IsName "null" := ⟨'n', _, rfl, rfl, by decide⟩
  have ha : IsName "a" := ⟨'a', _, rfl, rfl, by decide⟩
  have hb : IsName "b" := ⟨'b', _, rfl, rfl, by decide⟩
  have hx : IsName "x" := ⟨'x', _, rfl, rfl, by decide⟩
  have henv : ∀ b ∈ env, IsName b.1 ∧ b.2.HasNames ∧ b.2.IsResolved :=
    List.forall_mem_cons.mpr
      ⟨⟨hyes, ⟨hnull, trivial, hlong, ⟨ha, trivial, hb, trivial, trivial⟩, trivial⟩, rfl, rfl⟩,
        List.forall_mem_singleton.mpr ⟨hx, trivial, rfl, rfl⟩⟩
  obtain ⟨text, bs, hwrite, hbs, hread, -⟩ := read?_write_of_hasNames henv
  have hplain : env.plain = .ok
      [("yes", .dict [("null", .number 5), (long, .dict [("a", .dict []), ("b", .number 16)])]),
        ("x", .dict [])] := by
    simp [env, Environment.plain, Value.plainFields, Value.plain, Except.map]
  refine ⟨text, hwrite, ?_, ?_⟩
  · rw [write, hplain, Except.map] at hwrite
    rw [← Except.ok.inj hwrite]
    simp only [long]
    decide +kernel
  · rw [hread, Except.ok.inj (hbs.symm.trans hplain)]

end HexDoc.Yaml
