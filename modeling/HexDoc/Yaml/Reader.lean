/-
HexDoc/Yaml/Reader.lean

Reading YAML documents in block style back.  The document is cut into lines, each with the
column in which it starts.  The lines in one column are the entries of one mapping; an entry is
`name: value`, or `name:` with the lines of a mapping two columns further right, or `? name`
and `: value` on two lines, where a mapping may start right after the colon.

A word in single quotes is that word.  Without quotes, digits are a number, a reserved word is
a truth value or null and so no name, and any other word is itself.
-/
import HexDoc.Yaml.Writer

namespace HexDoc.Yaml

/-- A line: the column in which it starts, and its text from there on. -/
abbrev Line := Nat × List Char

/-- Cuts a text at its newlines; the last line has to end like the others. -/
def lines? : List Char → Option (List (List Char))
  | [] => some []
  | c :: cs =>
    match lines? cs with
    | none => none
    | some ls =>
      if c = '\n' then some ([] :: ls)
      else
        match ls with
        | [] => none
        | l :: ls => some ((c :: l) :: ls)

/-- A line without its indentation. -/
def lineOf (cs : List Char) : Line :=
  ((cs.takeWhile (· = ' ')).length, cs.dropWhile (· = ' '))

/-- A scalar. -/
inductive Scalar
  | word (s : String)
  | number (n : Nat)
  /-- A truth value or null. -/
  | reserved (s : String)
deriving DecidableEq, Repr

/-- What a scalar is read as. -/
def scalar? (cs : List Char) : Option Scalar :=
  match cs with
  | [] => none
  | '\'' :: q =>
    if q.getLast? = some '\'' ∧ '\'' ∉ q.dropLast then some (.word (String.ofList q.dropLast))
    else none
  | c :: cs =>
    if (c :: cs).all Char.isDigit then some (.number (Nat.ofDigitChars 10 (c :: cs) 0))
    else if isNameStart c && cs.all isNameChar then
      if String.ofList (c :: cs) ∈ reservedWords then some (.reserved (String.ofList (c :: cs)))
      else some (.word (String.ofList (c :: cs)))
    else none

/-- Text that does not start with a quotation mark is told by its characters. -/
theorem scalar?_cons {c : Char} (h : c ≠ '\'') (cs : List Char) :
    scalar? (c :: cs) =
      if (c :: cs).all Char.isDigit then some (.number (Nat.ofDigitChars 10 (c :: cs) 0))
      else if isNameStart c && cs.all isNameChar then
        if String.ofList (c :: cs) ∈ reservedWords then some (.reserved (String.ofList (c :: cs)))
        else some (.word (String.ofList (c :: cs)))
      else none := by
  unfold scalar?
  split
  · rename_i heq
    cases heq
  · rename_i heq
    exact absurd (List.cons.inj heq).1 h
  · rename_i heq
    cases heq
    rfl

/-- A name, which has to be a word. -/
def name? (cs : List Char) : Option Name :=
  match scalar? cs with
  | some (.word s) => some s
  | _ => none

/-- Data on one line: a number or an empty mapping. -/
def inline? (cs : List Char) : Option Plain :=
  if cs = ['\x7b', '\x7d'] then some (.dict [])
  else
    match scalar? cs with
    | some (.number n) => some (.number n)
    | _ => none

/-- A number of steps that suffices for lines. -/
def size (ls : List Line) : Nat :=
  ls.foldr (fun l n => l.2.length + 1 + n) 0

mutual

/-- The entries of the mapping in a column, and the lines after it. -/
def mapping? (column : Nat) : Nat → List Line → Option (List (Name × Plain) × List Line)
  | 0, _ => none
  | _ + 1, [] => some ([], [])
  | steps + 1, (c, cs) :: ls =>
    if c ≠ column then some ([], (c, cs) :: ls)
    else
      match entry? column steps cs ls with
      | none => none
      | some (e, ls) => (mapping? column steps ls).map fun (es, ls) => (e :: es, ls)

/-- The entry that starts with a line in a column, and the lines after it. -/
def entry? (column : Nat) (steps : Nat) (cs : List Char) (ls : List Line) :
    Option ((Name × Plain) × List Line) :=
  match cs with
  | '?' :: ' ' :: key =>
    match name? key, ls with
    | some name, (c, ':' :: ' ' :: cs) :: ls =>
      if c ≠ column then none
      else
        match inline? cs with
        | some d => some ((name, d), ls)
        | none => nested? column steps name ((column + 2, cs) :: ls)
    | _, _ => none
  | cs =>
    match name? (cs.takeWhile (· ≠ ':')), cs.dropWhile (· ≠ ':') with
    | some name, [':'] => nested? column steps name ls
    | some name, ':' :: ' ' :: cs => (inline? cs).map fun d => ((name, d), ls)
    | _, _ => none

/-- The entry of a name whose mapping starts with these lines, and the lines after it. -/
def nested? (column : Nat) (steps : Nat) (name : Name) (ls : List Line) :
    Option ((Name × Plain) × List Line) :=
  match steps with
  | 0 => none
  | steps + 1 =>
    match mapping? (column + 2) steps ls with
    | some (e :: es, ls) => some ((name, .dict (e :: es)), ls)
    | _ => none

end

/-- An entry with a complex key has its data behind the colon on the next line. -/
theorem entry?_complex {column steps : Nat} {key : List Char} {name : Name}
    (h : name? key = some name) (cs : List Char) (ls : List Line) :
    entry? column steps ('?' :: ' ' :: key) ((column, ':' :: ' ' :: cs) :: ls) =
      match inline? cs with
      | some d => some ((name, d), ls)
      | none => nested? column steps name ((column + 2, cs) :: ls) := by
  unfold entry?
  simp only [h, ne_eq, not_true_eq_false, if_false]

/-- An entry with a simple key is taken apart at its first colon. -/
theorem entry?_simple {column steps : Nat} {cs : List Char} (h : ∀ key, cs ≠ '?' :: ' ' :: key)
    (ls : List Line) :
    entry? column steps cs ls =
      match name? (cs.takeWhile (· ≠ ':')), cs.dropWhile (· ≠ ':') with
      | some name, [':'] => nested? column steps name ls
      | some name, ':' :: ' ' :: cs => (inline? cs).map fun d => ((name, d), ls)
      | _, _ => none := by
  unfold entry?
  split
  · exact absurd rfl (h _)
  · rfl

/-- The entries of a document. -/
def read? (document : String) : Option (List (Name × Plain)) :=
  match lines? document.toList with
  | none => none
  | some [['\x7b', '\x7d']] => some []
  | some ls =>
    match mapping? 0 (2 * size (ls.map lineOf) + 2) (ls.map lineOf) with
    | some (e :: es, []) => some (e :: es)
    | _ => none

end HexDoc.Yaml
