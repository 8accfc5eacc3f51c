/-
HexDoc/Command/Run.lean

What the command does: it reads its input, converts it and writes the result.  Nothing is
written unless the conversion succeeds, and the input is read to its end before the output is
opened, so both may be one file.

The first trouble ends the run, in the order of these steps.  An option that was left blank is
trouble only when its value is needed: the format once the input has been read, the output once
the document is there.

`run` is the command on a tree of files; `convertInput` is the part between reading and
writing.

Two texts are left out.  Of the help text only the first line is printed, which says how the
command is used, and a wrong command line is answered with the word `usage` alone, without the
reason.
-/
import HexDoc.Command.FileTree
import HexDoc.Command.Options
import HexDoc.Text.Encoding

namespace HexDoc.Command

/-- Why the command ends without a result. -/
inductive Trouble
  /-- The command line is used wrongly. -/
  | usage
  /-- The document cannot be converted. -/
  | failure (f : Failure)
  /-- The input cannot be read, or the output cannot be written. -/
  | inputOutput
  /-- A path holds a null character. -/
  | nullInPath
  /-- The format was left blank. -/
  | blankFormat
  /-- The output was left blank. -/
  | blankOutput
deriving DecidableEq, Repr

namespace Trouble

/-- The exit code that tells of it. -/
def exitCode : Trouble → Nat
  | usage => 2
  | failure _ => 2
  | inputOutput => 3
  | nullInPath => 1
  | blankFormat => 1
  | blankOutput => 1

/-- The line that tells of it. -/
def render : Trouble → String
  | usage => "usage"
  | failure f => f.render
  | inputOutput => "I/O error"
  | nullInPath => "embedded null byte"
  | blankFormat => "unhashable type: 'list'"
  | blankOutput => "expected str, bytes or os.PathLike object, not list"

end Trouble

/-- How the command line is to be used. -/
def usageLine : String :=
  "usage: hexconf [-h] [-o OUTPUT] [-f \x7bxml,yaml\x7d] [-v] [input]"

/-- Converts the content of the input, which is missing if it could not be read. -/
def convertInput (o : Options) (content? : Option ByteArray) : Except Trouble Conversion :=
  match content?.bind textOfBytes? with
  | none => .error .inputOutput
  | some text =>
    match o.format with
    | none => .error .blankFormat
    | some f => .ok (Conversion.ofText text f)

/-- The path of a file that is to be opened. -/
def checkPath (path : String) : Except Trouble String :=
  if '\x00' ∈ path.toList then .error .nullInPath else .ok path

/-- What a run leaves behind. -/
structure Result (Tree : Type) where
  trouble? : Option Trouble
  stdout : String
  tree : Tree

namespace Result

/-- The exit code of a run. -/
def exitCode {Tree : Type} (r : Result Tree) : Nat :=
  match r.trouble? with
  | none => 0
  | some t => t.exitCode

end Result

/-- The path of a file that is to be read; `-` stands for standard input, as no path does. -/
def Options.inputPath? (o : Options) : Option String :=
  o.input.filter (· ≠ "-")

variable {Tree File : Type} [FileSystem Tree File]

/-- The content of the input, which is missing if it cannot be read. -/
def Options.content (o : Options) (stdin : ByteArray) (tree : Tree) :
    Except Trouble (Option ByteArray) :=
  match o.inputPath? with
  | none => .ok (some stdin)
  | some path => (checkPath path).map (FileSystem.read? tree)

/-- Puts a document where it is to go: on standard output or into the tree. -/
def Options.deliver (o : Options) (document : String) (tree : Tree) :
    Except Trouble (String × Tree) :=
  match o.output with
  | .standard => .ok (document, tree)
  | .blank => .error .blankOutput
  | .file path => do
    match FileSystem.write? tree (← checkPath path) document.toUTF8 with
    | none => .error .inputOutput
    | some tree => .ok ("", tree)

/-- What the command puts on standard output and makes of a tree of files. -/
def perform (o : Options) (stdin : ByteArray) (tree : Tree) :
    Except Trouble (String × Tree) := do
  let c ← convertInput o (← o.content stdin tree)
  o.deliver (← c.result.mapError .failure) tree

/-- Runs the command on what standard input holds and on a tree of files. -/
def convertTo (o : Options) (stdin : ByteArray) (tree : Tree) : Result Tree :=
  match perform o stdin tree with
  | .error t => ⟨some t, "", tree⟩
  | .ok (stdout, tree) => ⟨none, stdout, tree⟩

/-- Runs the command. -/
def run (args : List String) (stdin : ByteArray) (tree : Tree) : Result Tree :=
  match request? args with
  | none => ⟨some .usage, "", tree⟩
  | some .help => ⟨none, usageLine ++ "\n", tree⟩
  | some (.convert o) => convertTo o stdin tree

end HexDoc.Command
