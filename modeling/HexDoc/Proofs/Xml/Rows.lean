/-
HexDoc/Proofs/Xml/Rows.lean

The lines of elements, before they become text.  A row is the indentation of a line and the pieces
in it.  There are four shapes of them (`Shape`): a start tag, an end tag, both tags of an element
without children, and a number between its tags.

Text is dealt with row by row, and elements are dealt with on rows alone.  Main statements: the
text of an element is that of its rows (`Element.render_eq`), the pieces of rows are read back from
their text (`pieces?_rows`), and the rows of an element are well nested (`Element.nested_rows`).
-/
import HexDoc.Proofs.Xml.Pieces
import HexDoc.Xml.Nesting

namespace HexDoc.Xml

/-- The text of a piece. -/
def Piece.text : Piece → List Char
  | .startTag tag name? => Xml.startTag tag name?
  | .endTag tag => Xml.endTag tag
  | .number n => Nat.toDigits 10 n

/-- A line: the elements that it is indented for, and the pieces in it. -/
structure Row where
  depth : Nat
  pieces : List Piece

/-- The text of a row behind its indentation. -/
def Row.inside (r : Row) : List Char :=
  r.pieces.flatMap Piece.text

/-- The text of a row. -/
def Row.text (r : Row) : List Char :=
  indent r.depth ++ r.inside

namespace Element

mutual

/-- The rows of an element that stands inside `depth` others. -/
def rows (depth : Nat) : Element → List Row
  | .number n => [⟨depth, [.startTag "number" none, .number n, .endTag "number"]⟩]
  | .branch tag name? [] => [⟨depth, [.startTag tag name?, .endTag tag]⟩]
  | .branch tag name? (e :: es) =>
    ⟨depth, [.startTag tag name?]⟩ :: (rows (depth + 1) e ++ rowsAll (depth + 1) es) ++
      [⟨depth, [.endTag tag]⟩]

/-- The rows of elements that stand side by side inside `depth` others. -/
def rowsAll (depth : Nat) : List Element → List Row
  | [] => []
  | e :: es => rows depth e ++ rowsAll depth es

end

mutual

/-- An element is written row by row. -/
theorem render_eq (depth : Nat) (e : Element) :
    e.render depth = unlines ((e.rows depth).map Row.text) := by
  match e with
  | .number n => simp [render, rows, Row.text, Row.inside, Piece.text]
  | .branch tag name? [] => simp [render, rows, Row.text, Row.inside, Piece.text]
  | .branch tag name? (e :: es) =>
    simp [render, rows, Row.text, Row.inside, Piece.text, render_eq (depth + 1) e,
      renderAll_eq (depth + 1) es]

theorem renderAll_eq (depth : Nat) (es : List Element) :
    renderAll depth es = unlines ((rowsAll depth es).map Row.text) := by
  match es with
  | [] => rfl
  | e :: es =>
    rw [renderAll, rowsAll, render_eq depth e, renderAll_eq depth es, List.map_append,
      unlines_append]

end

mutual

/-- All tags in an element are names. -/
def HasNames : Element → Prop
  | .number _ => True
  | .branch tag _ es => IsName tag ∧ HaveNames es

/-- All tags in elements are names. -/
def HaveNames : List Element → Prop
  | [] => True
  | e :: es => e.HasNames ∧ HaveNames es

end

end Element

/-! ### The text of a row -/

/-- What a row can be. -/
inductive Shape : List Piece → Prop
  | opening {tag : String} {name? : Option String} : IsName tag → Shape [.startTag tag name?]
  | closing {tag : String} : IsName tag → Shape [.endTag tag]
  | childless {tag : String} {name? : Option String} :
      IsName tag → Shape [.startTag tag name?, .endTag tag]
  | number {n : Nat} : Shape [.startTag "number" none, .number n, .endTag "number"]

theorem isName_number : IsName "number" :=
  ⟨'n', _, rfl, rfl, by decide⟩

theorem isName_dict : IsName "dict" :=
  ⟨'d', _, rfl, rfl, by decide⟩

theorem isName_entry : IsName "entry" :=
  ⟨'e', _, rfl, rfl, by decide⟩

namespace Shape

variable {ps : List Piece}

/-- What is in a row is read back, whatever comes after it. -/
theorem pieces?_append (h : Shape ps) (cs : List Char) :
    pieces? (ps.flatMap Piece.text ++ cs) = (pieces? cs).map (ps ++ ·) := by
  cases h with
  | opening htag => simp [Piece.text, pieces?_startTag htag]
  | closing htag => simp [Piece.text, pieces?_endTag htag]
  | childless htag =>
    simp [Piece.text, pieces?_startTag htag, pieces?_endTag htag, Function.comp_def]
  | @number n =>
    -- the digits end at the bracket of the end tag
    have hend : ∀ c ∈ (endTag "number" ++ cs).head?, c.isDigit = false := by simp [endTag]
    simp [Piece.text, pieces?_startTag isName_number, pieces?_number n hend,
      pieces?_endTag isName_number, Function.comp_def]

/-- A row starts with a tag. -/
theorem head? (h : Shape ps) : (ps.flatMap Piece.text).head? = some '<' := by
  cases h <;> simp [Piece.text, startTag_eq, endTag]

/-- No row has a newline in it. -/
theorem notMem_newline (h : Shape ps) : '\n' ∉ ps.flatMap Piece.text := by
  have hstart {tag : String} (htag : IsName tag) (name? : Option String) :
      '\n' ∉ startTag tag name? := by
    have hin := notMem_inStartTag htag name? (c := '\n') (by simp)
    simp [startTag_eq, hin]
  have hend {tag : String} (htag : IsName tag) : '\n' ∉ endTag tag := by
    have hin := notMem_name htag (c := '\n') rfl
    simp [endTag, hin]
  cases h with
  | opening htag => simp [Piece.text, hstart htag]
  | closing htag => simp [Piece.text, hend htag]
  | childless htag => simp [Piece.text, hstart htag, hend htag]
  | @number n =>
    have hdigits : '\n' ∉ Nat.toDigits 10 n := by
      intro hmem
      have hdigit := isDigit_of_mem_toDigits _ hmem
      cases hdigit
    simp [Piece.text, hstart isName_number, hend isName_number, hdigits]

end Shape

/-- Rows are read back from their text. -/
theorem pieces?_rows {rs : List Row} (h : ∀ r ∈ rs, Shape r.pieces) :
    pieces? (unlines (rs.map Row.text)) = some (rs.flatMap Row.pieces) := by
  induction rs with
  | nil => exact pieces?_nil
  | cons r rs ih =>
    rw [List.forall_mem_cons] at h
    have htext : unlines ((r :: rs).map Row.text) =
        indent r.depth ++ (r.inside ++ '\n' :: unlines (rs.map Row.text)) := by
      simp [Row.text]
    calc pieces? (unlines ((r :: rs).map Row.text))
        = pieces? (r.inside ++ '\n' :: unlines (rs.map Row.text)) := by
          rw [htext, pieces?_indent]
      _ = (pieces? ('\n' :: unlines (rs.map Row.text))).map (r.pieces ++ ·) :=
          h.1.pieces?_append _
      _ = some ((r :: rs).flatMap Row.pieces) := by
          rw [pieces?_blank (.inr rfl), ih h.2, Option.map_some, List.flatMap_cons]

/-! ### The rows of an element -/

namespace Element

theorem rows_branch_cons (depth : Nat) (tag : String) (name? : Option String) (e : Element)
    (es : List Element) :
    (branch tag name? (e :: es)).rows depth =
      ⟨depth, [.startTag tag name?]⟩ :: rowsAll (depth + 1) (e :: es) ++
        [⟨depth, [.endTag tag]⟩] := by
  rw [rows, rowsAll]

mutual

/-- The rows of an element whose tags are names have their shapes. -/
theorem shape_of_mem_rows {depth : Nat} {e : Element} (h : e.HasNames) :
    ∀ r ∈ e.rows depth, Shape r.pieces := by
  match e with
  | .number n => exact List.forall_mem_singleton.mpr .number
  | .branch tag name? [] => exact List.forall_mem_singleton.mpr (.childless h.1)
  | .branch tag name? (e :: es) =>
    obtain ⟨htag, hes⟩ := h
    have hchildren : ∀ r ∈ rowsAll (depth + 1) (e :: es), Shape r.pieces :=
      shape_of_mem_rowsAll hes
    rw [rows_branch_cons, List.forall_mem_append, List.forall_mem_cons]
    exact ⟨⟨.opening htag, hchildren⟩, List.forall_mem_singleton.mpr (.closing htag)⟩

theorem shape_of_mem_rowsAll {depth : Nat} {es : List Element} (h : HaveNames es) :
    ∀ r ∈ rowsAll depth es, Shape r.pieces := by
  match es with
  | [] => simp [rowsAll]
  | e :: es =>
    rw [rowsAll, List.forall_mem_append]
    exact ⟨shape_of_mem_rows h.1, shape_of_mem_rowsAll h.2⟩

end

end Element

/-! ### Nesting -/

/-- A row is one line of well nested lines, if it is indented for the tags that stay open. -/
theorem Shape.nested {ps : List Piece} (h : Shape ps) {depth : Nat} {tags tags' : List String}
    {ls : List (List Char)} (hopen : openAfter? tags ps = some tags')
    (hdepth : depth = min tags.length tags'.length) (hlast : tags' = [] → ls = [])
    (hls : Nested tags' ls) : Nested tags (Row.text ⟨depth, ps⟩ :: ls) := by
  have hpieces : pieces? (Row.inside ⟨depth, ps⟩) = some ps := by
    have happend := h.pieces?_append []
    rwa [List.append_nil, pieces?_nil, Option.map_some, List.append_nil] at happend
  rw [Row.text, hdepth]
  exact .line h.head? hpieces hopen hlast hls

namespace Element

mutual

/-- The rows of an element are well nested, inside open elements or alone.  Behind them the same
tags are open as before, so the lines `ls` that were well nested there still are. -/
theorem nested_rows {e : Element} (h : e.HasNames) {tags : List String} {ls : List (List Char)}
    (hlast : tags = [] → ls = []) (hls : Nested tags ls) :
    Nested tags ((e.rows tags.length).map Row.text ++ ls) := by
  match e with
  | .number n =>
    exact Shape.number.nested (by simp [openAfter?]) (by simp) hlast hls
  | .branch tag name? [] =>
    exact (Shape.childless h.1).nested (by simp [openAfter?]) (by simp) hlast hls
  | .branch tag name? (e :: es) =>
    obtain ⟨htag, hes⟩ := h
    -- from the end: the end tag closes what the start tag opens, with the children in between
    have hclose : Nested (tag :: tags) (Row.text ⟨tags.length, [.endTag tag]⟩ :: ls) :=
      (Shape.closing htag).nested (by simp [openAfter?]) (by simp) hlast hls
    have hopen : Nested tags (Row.text ⟨tags.length, [.startTag tag name?]⟩ ::
        ((rowsAll (tags.length + 1) (e :: es)).map Row.text ++
          Row.text ⟨tags.length, [.endTag tag]⟩ :: ls)) :=
      (Shape.opening htag).nested rfl (by simp) (by simp) (nested_rowsAll hes hclose)
    simpa [rows_branch_cons] using hopen

theorem nested_rowsAll {es : List Element} (h : HaveNames es) {tag : String} {tags : List String}
    {ls : List (List Char)} (hls : Nested (tag :: tags) ls) :
    Nested (tag :: tags) ((rowsAll (tags.length + 1) es).map Row.text ++ ls) := by
  match es with
  | [] => exact hls
  | e :: es =>
    have hrest := nested_rowsAll h.2 hls
    have he := nested_rows h.1 (by simp) hrest
    simpa [rowsAll] using he

end

end Element

end HexDoc.Xml
