/-
HexDoc/Proofs/Xml/RoundTrip.lean

XML documents and the data in them.  A document is cut into the pieces of its rows, the tags are
matched, and the element that comes of it stands for the data that it was made of.

Main statement: an environment of resolved values is written as one well nested element, and all
its data are read back from it, so that only environments with the same data have the same
document (`read?_write`).
-/
import HexDoc.Proofs.Value.Data
import HexDoc.Proofs.Xml.Rows

namespace HexDoc.Xml

/-! ### Matching the tags -/

/-- What comes of a complete element: it goes to the element around it, and if there is none, it
is the document. -/
def completed (e : Element) : List OpenElement → List Piece → Option Element
  | [], ps => if ps.isEmpty then some e else none
  | o :: os, ps => element? ({ o with children := e :: o.children } :: os) ps

theorem element?_endTag {o : OpenElement} {e : Element} (h : o.close? = some e)
    (os : List OpenElement) (ps : List Piece) :
    element? (o :: os) (.endTag o.tag :: ps) = completed e os ps := by
  cases os <;> simp [element?, h, completed]

namespace Element

mutual

/-- Matching the tags of its rows completes an element, whatever is open around it. -/
theorem element?_rows (depth : Nat) (e : Element) (os : List OpenElement) (ps : List Piece) :
    element? os ((e.rows depth).flatMap Row.pieces ++ ps) = completed e os ps := by
  match e with
  | .number n =>
    have hclose : (OpenElement.mk "number" none (some n) []).close? = some (.number n) := by
      simp [OpenElement.close?]
    simpa [rows, element?] using element?_endTag hclose os ps
  | .branch tag name? [] =>
    have hclose : (OpenElement.mk tag name? none []).close? = some (.branch tag name? []) := rfl
    simpa [rows, element?] using element?_endTag hclose os ps
  | .branch tag name? (e :: es) =>
    have hclose : (OpenElement.mk tag name? none ((e :: es).reverse ++ [])).close? =
        some (.branch tag name? (e :: es)) := by
      simp [OpenElement.close?]
    have hend := element?_endTag hclose os ps
    -- the children are collected in the open element, the latest first
    have hchildren := element?_rowsAll (depth + 1) (e :: es) ⟨tag, name?, none, []⟩ os
      (.endTag tag :: ps)
    rw [hend] at hchildren
    simpa [rows_branch_cons, element?] using hchildren

theorem element?_rowsAll (depth : Nat) (es : List Element) (o : OpenElement)
    (os : List OpenElement) (ps : List Piece) :
    element? (o :: os) ((rowsAll depth es).flatMap Row.pieces ++ ps) =
      element? ({ o with children := es.reverse ++ o.children } :: os) ps := by
  match es with
  | [] => rfl
  | e :: es =>
    have he := element?_rows depth e (o :: os) ((rowsAll depth es).flatMap Row.pieces ++ ps)
    -- completed inside `o`, the first child is there when the others are read
    rw [completed, element?_rowsAll depth es] at he
    simpa [rowsAll] using he

end

end Element

/-! ### Elements and data -/

open Element

mutual

/-- Data are read back from their element. -/
theorem dataOf?_ofPlain (d : Plain) : dataOf? (ofPlain d) = some d := by
  match d with
  | .number n => rw [ofPlain, dataOf?]
  | .dict fs => rw [ofPlain, dataOf?, if_pos ⟨rfl, rfl⟩, entriesOf?_entriesOf fs, Option.map_some]

theorem entriesOf?_entriesOf (fs : List (Name × Plain)) :
    entriesOf? (entriesOf fs) = some fs := by
  match fs with
  | [] => rw [entriesOf, entriesOf?]
  | (k, d) :: fs =>
    rw [entriesOf, entriesOf?, if_pos rfl, dataOf?_ofPlain d, entriesOf?_entriesOf fs]
    rfl

end

theorem bindingsOf?_bindingsOf (bs : List (Name × Plain)) :
    bindingsOf? (bindingsOf bs) = some bs := by
  induction bs with
  | nil => rfl
  | cons b bs ih =>
    rw [bindingsOf, bindingsOf?, dataOf?_ofPlain, ih]
    rfl

mutual

/-- Data are written with tags that are names, whatever their keys. -/
theorem hasNames_ofPlain (d : Plain) : (ofPlain d).HasNames := by
  match d with
  | .number n => trivial
  | .dict fs => exact ⟨isName_dict, haveNames_entriesOf fs⟩

theorem haveNames_entriesOf (fs : List (Name × Plain)) : HaveNames (entriesOf fs) := by
  match fs with
  | [] => trivial
  | (k, d) :: fs => exact ⟨⟨isName_entry, hasNames_ofPlain d, trivial⟩, haveNames_entriesOf fs⟩

end

theorem haveNames_bindingsOf {bs : List (Name × Plain)} (h : ∀ b ∈ bs, IsName b.1) :
    HaveNames (bindingsOf bs) := by
  induction bs with
  | nil => trivial
  | cons b bs ih =>
    rw [List.forall_mem_cons] at h
    exact ⟨⟨h.1, hasNames_ofPlain b.2, trivial⟩, ih h.2⟩

/-! ### Documents and data -/

section
variable {tag : Name} {bs : List (Name × Plain)}

/-- The lines of a document behind the declaration. -/
def documentLines (tag : Name) (bs : List (Name × Plain)) : List (List Char) :=
  ((root tag bs).rows 0).map Row.text

theorem document_eq (tag : Name) (bs : List (Name × Plain)) :
    document tag bs = declaration ++ String.ofList (unlines (documentLines tag bs)) := by
  rw [document, render_eq, documentLines]

theorem hasNames_root (htag : IsName tag) (hbs : ∀ b ∈ bs, IsName b.1) : (root tag bs).HasNames :=
  ⟨htag, haveNames_bindingsOf hbs⟩

/-- The lines of a document are well nested. -/
theorem nested_documentLines (htag : IsName tag) (hbs : ∀ b ∈ bs, IsName b.1) :
    Nested [] (documentLines tag bs) := by
  have hnested := nested_rows (hasNames_root htag hbs) (by simp) .done
  rwa [List.append_nil] at hnested

theorem notMem_documentLines (htag : IsName tag) (hbs : ∀ b ∈ bs, IsName b.1) :
    ∀ l ∈ documentLines tag bs, '\n' ∉ l := by
  rw [documentLines, List.forall_mem_map]
  intro r hr
  have hinside := (shape_of_mem_rows (hasNames_root htag hbs) r hr).notMem_newline
  rw [Row.text, List.mem_append, not_or]
  exact ⟨by simp [indent], hinside⟩

/-- The data of a document are read back from it. -/
theorem read?_document (htag : IsName tag) (hbs : ∀ b ∈ bs, IsName b.1) :
    read? (document tag bs) = some (tag, bs) := by
  have htext : (document tag bs).toList =
      declaration.toList ++ unlines (documentLines tag bs) := by
    rw [document_eq, String.toList_append, String.toList_ofList]
  have hprefix : declaration.toList.isPrefixOf (document tag bs).toList = true := by
    rw [htext]
    exact List.isPrefixOf_iff_prefix.mpr (List.prefix_append _ _)
  have hdrop : (document tag bs).toList.drop declaration.length =
      unlines (documentLines tag bs) := by
    rw [htext, ← String.length_toList, List.drop_left]
  have hshape : ∀ r ∈ (root tag bs).rows 0, Shape r.pieces :=
    shape_of_mem_rows (hasNames_root htag hbs)
  have hmatch : element? [] (((root tag bs).rows 0).flatMap Row.pieces) = some (root tag bs) := by
    have hrows := element?_rows 0 (root tag bs) [] []
    rwa [List.append_nil] at hrows
  rw [read?, if_pos hprefix, hdrop, documentLines, pieces?_rows hshape, Option.bind_some, hmatch,
    root]
  simp only [bindingsOf?_bindingsOf, Option.map_some]

end

/-- An environment of resolved values, with names to write its bindings under, is written as the
declaration and the lines of one element.  These are well nested, and all the data are read back
from them, in order; so an environment with the same document has the same data. -/
theorem read?_write {env : Environment} {tag : Name}
    (henv : ∀ b ∈ env, IsName b.1 ∧ b.2.IsResolved) (htag : IsName tag) :
    ∃ text ls bs, write env tag = .ok text ∧ env.plain = .ok bs ∧
      text = declaration ++ String.ofList (unlines ls) ∧ (∀ l ∈ ls, '\n' ∉ l) ∧ Nested [] ls ∧
      read? text = some (tag, bs) ∧ Entries.keys bs = env.keys ∧
      ∀ env' : Environment, (∀ b ∈ env', IsName b.1) → write env' tag = .ok text →
        env'.plain = .ok bs := by
  obtain ⟨bs, hbs⟩ := Environment.exists_plain_iff.mpr fun b hb => (henv b hb).2
  have hnames := Environment.forall_name_of_plain hbs fun b hb => (henv b hb).1
  refine ⟨document tag bs, documentLines tag bs, bs, ?_, hbs, document_eq tag bs,
    notMem_documentLines htag hnames, nested_documentLines htag hnames,
    read?_document htag hnames, Environment.keys_of_plain hbs, ?_⟩
  · rw [write_eq, hbs]
    rfl
  · intro env' henv' hwrite
    rw [write_eq, Outcome.map_eq_ok_iff] at hwrite
    obtain ⟨bs', hbs', hdoc⟩ := hwrite
    have hread := read?_document htag (Environment.forall_name_of_plain hbs' henv')
    -- both are what the one document is read back as
    rw [hdoc, read?_document htag hnames] at hread
    cases hread
    exact hbs'

/-- A key made of markup, an empty key, and a binding with the name of a tag that the writer uses. -/
theorem read?_write_markup :
    let env : Environment :=
      [("a", .dict [("</a>&lt;\"\n", .number ⟨"0x1F", 31⟩), ("", .dict [])]),
        ("number", .number ⟨"0x0", 0⟩)]
    ∃ text, write env "config" = .ok text ∧
      text = declaration ++ "<config>\n  <a>\n    <dict>\n      " ++
        "<entry name=\"&lt;/a&gt;&amp;lt;&quot;&#10;\">\n        <number>31</number>\n      " ++
        "</entry>\n      <entry name=\"\">\n        <dict></dict>\n      </entry>\n    </dict>\n  " ++
        "</a>\n  <number>\n    <number>0</number>\n  </number>\n</config>\n" ∧
      read? text = some ("config",
        [("a", .dict [("</a>&lt;\"\n", .number 31), ("", .dict [])]), ("number", .number 0)]) := by
  intro env
  have hconfig : IsName "config" := ⟨'c', _, rfl, rfl, by decide⟩
  have henv : ∀ b ∈ env, IsName b.1 ∧ b.2.IsResolved :=
    List.forall_mem_cons.mpr ⟨⟨⟨'a', _, rfl, rfl, by decide⟩, rfl, rfl⟩,
      List.forall_mem_singleton.mpr ⟨isName_number, rfl, rfl⟩⟩
  obtain ⟨text, -, bs, hwrite, hbs, -, -, -, hread, -⟩ := read?_write henv hconfig
  refine ⟨text, hwrite, ?_, ?_⟩
  · cases hwrite
    decide +kernel
  · rw [hread]
    cases hbs
    rfl

end HexDoc.Xml
