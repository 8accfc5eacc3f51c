/-
HexDoc/Yaml/Writer.lean

Plain data as a YAML document in block style.  An entry is `name: value`, and the entries of a
dictionary follow on lines of their own, indented by two spaces more.  An empty dictionary is
`{}`.

Two rules on names: a word that YAML reads as a truth value or as null is put in single quotes,
and a name of more than 122 characters is written as a complex key, `? name` on one line and
`: value` on the next, where the entries of a dictionary start right after the colon.
-/
import HexDoc.Value.Plain

namespace HexDoc.Yaml

/-- The words that YAML reads as a truth value or as null. -/
def reservedWords : List String :=
  ["yes", "Yes", "YES", "no", "No", "NO", "on", "On", "ON", "off", "Off", "OFF",
    "true", "True", "TRUE", "false", "False", "FALSE", "null", "Null", "NULL"]

/-- The longest name that is written as a simple key. -/
def longestSimpleKey : Nat :=
  122

/-- The text of a name. -/
def key (name : Name) : List Char :=
  if name ∈ reservedWords then '\'' :: name.toList ++ ['\''] else name.toList

/-- The indentation of a column. -/
def indent (column : Nat) : List Char :=
  List.replicate column ' '

/-- Whether data are written as entries on lines of their own. -/
def isBlock : Plain → Bool
  | .dict (_ :: _) => true
  | _ => false

/-- The text of an entry in a column, up to its value. -/
def entryHead (column : Nat) (name : Name) (block : Bool) : List Char :=
  if name.length ≤ longestSimpleKey then
    key name ++ [':'] ++ if block then '\n' :: indent (column + 2) else [' ']
  else "? ".toList ++ key name ++ ['\n'] ++ indent column ++ ": ".toList

mutual

/-- The text of data that start in a column; only entries after the first are indented. -/
def content (column : Nat) : Plain → List Char
  | .number n => Nat.toDigits 10 n ++ ['\n']
  | .dict [] => "\x7b\x7d\n".toList
  | .dict ((k, d) :: fs) =>
    entryHead column k (isBlock d) ++ content (column + 2) d ++ following column fs

/-- The text of the entries after the first in a column. -/
def following (column : Nat) : List (Name × Plain) → List Char
  | [] => []
  | (k, d) :: fs =>
    indent column ++ entryHead column k (isBlock d) ++ content (column + 2) d ++
      following column fs

end

/-- The YAML document of plain data. -/
def document (fields : List (Name × Plain)) : String :=
  String.ofList (content 0 (.dict fields))

/-- The YAML document of an environment. -/
def write (env : Environment) : Except Unwritable String :=
  env.plain.map document

end HexDoc.Yaml
