/-
HexDoc/Xml/Reader.lean

Reading documents of the element language back: the text is cut into tags and numbers, the tags
are matched, and the elements are taken for what they stand for.  Blanks between tags are layout
and carry nothing.

`read?` gives the tag around the bindings and the data of each binding.
-/
import HexDoc.Value.Plain
import HexDoc.Xml.Writer

namespace HexDoc.Xml

/-- The entities, each with the character it stands for. -/
def entities : List (List Char × Char) :=
  [("&amp;".toList, '&'), ("&lt;".toList, '<'), ("&gt;".toList, '>'), ("&quot;".toList, '\"'),
    ("&#13;".toList, '\r'), ("&#10;".toList, '\n'), ("&#09;".toList, '\t')]

/-- The entity that a text begins with, as the character it stands for and its length. -/
def entity? (cs : List Char) : Option (Char × Nat) :=
  (entities.find? fun e => e.1.isPrefixOf cs).map fun e => (e.2, e.1.length)

theorem entity?_pos {cs : List Char} {c : Char} {n : Nat} (h : entity? cs = some (c, n)) :
    0 < n := by
  obtain ⟨e, he, h⟩ := Option.map_eq_some_iff.mp h
  have hall : ∀ e ∈ entities, 0 < e.1.length := by decide
  have := hall e (List.mem_of_find?_eq_some he)
  simp only [Prod.mk.injEq] at h
  omega

/-- The text that an attribute stands for.  An ampersand is the start of an entity. -/
def unescape? (cs : List Char) : Option (List Char) :=
  match cs with
  | [] => some []
  | c :: cs =>
    if c = '&' then
      match _h : entity? (c :: cs) with
      | none => none
      | some (d, n) => (unescape? ((c :: cs).drop n)).map (d :: ·)
    else (unescape? cs).map (c :: ·)
termination_by cs.length
decreasing_by
  · have := entity?_pos _h
    simp; omega
  · simp

/-- A piece of a document. -/
inductive Piece
  | startTag (tag : String) (name? : Option String)
  | endTag (tag : String)
  | number (n : Nat)
deriving DecidableEq, Repr

/-- What stands before the first character of a kind, and what after it. -/
def splitAt? (c : Char) (cs : List Char) : Option (List Char × List Char) :=
  match cs.dropWhile (· ≠ c) with
  | [] => none
  | _ :: rest => some (cs.takeWhile (· ≠ c), rest)

theorem length_splitAt? {c : Char} {cs start rest : List Char}
    (h : splitAt? c cs = some (start, rest)) : rest.length < cs.length := by
  unfold splitAt? at h
  split at h
  · cases h
  · rename_i d ds hd
    cases h
    have := (List.dropWhile_suffix (p := (· ≠ c)) (l := cs)).length_le
    rw [hd] at this
    simp at this
    omega

/-- The start tag whose text between its brackets this is. -/
def startTagOf? (cs : List Char) : Option Piece :=
  match splitAt? ' ' cs with
  | none => some (.startTag (String.ofList cs) none)
  | some (tag, rest) =>
    if "name=\"".toList.isPrefixOf rest && rest.getLast? == some '\"' then
      (unescape? (rest.drop 6).dropLast).map fun name =>
        .startTag (String.ofList tag) (some (String.ofList name))
    else none

/-- The pieces of a document. -/
def pieces? (cs : List Char) : Option (List Piece) :=
  match cs with
  | [] => some []
  | '<' :: '/' :: cs =>
    match _h : splitAt? '>' cs with
    | none => none
    | some (tag, rest) => (pieces? rest).map (.endTag (String.ofList tag) :: ·)
  | '<' :: cs =>
    match _h : splitAt? '>' cs with
    | none => none
    | some (inner, rest) =>
      match startTagOf? inner with
      | none => none
      | some p => (pieces? rest).map (p :: ·)
  | c :: cs =>
    if c = ' ' ∨ c = '\n' then pieces? cs
    else if c.isDigit then
      (pieces? (cs.dropWhile Char.isDigit)).map
        (.number (Nat.ofDigitChars 10 (c :: cs.takeWhile Char.isDigit) 0) :: ·)
    else none
termination_by cs.length
decreasing_by
  · have := length_splitAt? _h
    simp; omega
  · have := length_splitAt? _h
    simp; omega
  · simp
  · have := (List.dropWhile_suffix (p := Char.isDigit) (l := cs)).length_le
    simp; omega

theorem pieces?_nil : pieces? [] = some [] := by
  rw [pieces?]

/-- A bracket without a slash behind it opens a start tag. -/
theorem pieces?_bracket {cs : List Char} (h : ∀ ds, cs ≠ '/' :: ds) :
    pieces? ('<' :: cs) =
      match splitAt? '>' cs with
      | none => none
      | some (inner, rest) =>
        match startTagOf? inner with
        | none => none
        | some p => (pieces? rest).map (p :: ·) := by
  rw [pieces?]
  · split <;> simp only [*]
  · exact h

/-- What is no bracket is a blank or starts a number. -/
theorem pieces?_cons {c : Char} (h : c ≠ '<') (cs : List Char) :
    pieces? (c :: cs) =
      if c = ' ' ∨ c = '\n' then pieces? cs
      else if c.isDigit then
        (pieces? (cs.dropWhile Char.isDigit)).map
          (.number (Nat.ofDigitChars 10 (c :: cs.takeWhile Char.isDigit) 0) :: ·)
      else none := by
  rw [pieces?]
  · exact fun _ hc _ => h hc
  · exact h

/-- An element whose end tag is still to come, and what stands in it so far. -/
structure OpenElement where
  tag : String
  name? : Option String
  /-- The number in it, if it holds one. -/
  number? : Option Nat
  /-- The elements in it, the latest first. -/
  children : List Element

/-- The element that an end tag completes. -/
def OpenElement.close? (o : OpenElement) : Option Element :=
  match o.number? with
  | none => some (.branch o.tag o.name? o.children.reverse)
  | some n =>
    if o.tag = "number" ∧ o.name? = none ∧ o.children.isEmpty then some (.number n) else none

/-- Matches tags, from inside the open elements on; a document is one element and nothing more. -/
def element? : List OpenElement → List Piece → Option Element
  | os, .startTag tag name? :: ps => element? (⟨tag, name?, none, []⟩ :: os) ps
  | o :: os, .number n :: ps =>
    if o.number?.isNone then element? ({ o with number? := some n } :: os) ps else none
  | o :: os, .endTag tag :: ps =>
    if tag = o.tag then
      match o.close?, os with
      | none, _ => none
      | some e, [] => if ps.isEmpty then some e else none
      | some e, o' :: os => element? ({ o' with children := e :: o'.children } :: os) ps
    else none
  | _, _ => none

mutual

/-- The data that an element stands for. -/
def dataOf? : Element → Option Plain
  | .number n => some (.number n)
  | .branch tag name? es =>
    if tag = "dict" ∧ name? = none then (entriesOf? es).map .dict else none

/-- The fields that the entries of a dictionary stand for. -/
def entriesOf? : List Element → Option (List (Name × Plain))
  | [] => some []
  | .branch tag (some key) [e] :: es =>
    if tag = "entry" then
      match dataOf? e with
      | none => none
      | some d => (entriesOf? es).map ((key, d) :: ·)
    else none
  | _ :: _ => none

end

/-- The bindings that elements stand for. -/
def bindingsOf? : List Element → Option (List (Name × Plain))
  | [] => some []
  | .branch name none [e] :: es =>
    match dataOf? e with
    | none => none
    | some d => (bindingsOf? es).map ((name, d) :: ·)
  | _ :: _ => none

/-- The tag around the bindings of a document, and the data of each binding. -/
def read? (document : String) : Option (Name × List (Name × Plain)) :=
  if declaration.toList.isPrefixOf document.toList then
    match (pieces? (document.toList.drop declaration.length)).bind (element? []) with
    | some (.branch root none es) => (bindingsOf? es).map fun bs => (root, bs)
    | _ => none
  else none

end HexDoc.Xml
