/-
HexDoc/Proofs/Command/LineEnds.lean

Documents with line ends of two characters.  Reading a text from its bytes unifies the line ends,
and converting a text does not: a carriage return in it is a blank or part of a comment.  As long
as every carriage return has a newline behind it the two agree, because the tokens of the text are
the same without the carriage returns (`scan_dropPairedReturns`), and so is all that is made of
them.

Main statement: such a text converts to the same document as the text with newlines alone, or fails
alike, and a run of the command on the bytes of the text comes to what the text as it stands
converts to (`convert_with_paired_returns`).
-/
import HexDoc.Proofs.Command.Endings
import HexDoc.Proofs.Conversion.Failures
import HexDoc.Proofs.Token.LineEnds

namespace HexDoc

/-- Converting does not tell which line ends a text has. -/
theorem convert_dropPairedReturns {text : String} (h : ReturnsPaired text.toList) (f : Format) :
    convert (String.ofList (dropPairedReturns text.toList)) f = convert text f := by
  obtain ⟨htok, hfault⟩ := scan_dropPairedReturns h
  rw [convert, convert, Conversion.result_ofText_eq, Conversion.result_ofText_eq,
    parse_of_scan_eq htok hfault]

namespace Command

variable {Tree File : Type} [FileSystem Tree File]

/-- What a run leaves behind when this is what its input converts to. -/
def Options.conclude (o : Options) (outcome : Except Failure String) (tree : Tree) :
    Result Tree :=
  match outcome with
  | .error e => ⟨some (.failure e), "", tree⟩
  | .ok document =>
    match o.deliver document tree with
    | .error t => ⟨some t, "", tree⟩
    | .ok (stdout, tree') => ⟨none, stdout, tree'⟩

variable {o : Options} {stdin : ByteArray} {tree : Tree}

/-- A run comes to what the text that is read converts to. -/
theorem convertTo_of_content {content? : Option ByteArray} {text : String} {f : Format}
    (hc : o.content stdin tree = .ok content?) (ht : content?.bind textOfBytes? = some text)
    (hf : o.format = some f) : convertTo o stdin tree = o.conclude (convert text f) tree := by
  have hp := perform_of_content hc ht
  rw [hf] at hp
  rcases hd : convert text f with e | document
  · simp only [hd] at hp
    rw [convertTo_of_error hp]
    rfl
  · simp only [hd] at hp
    rw [Options.conclude]
    rcases hdeliver : o.deliver document tree with t | ⟨stdout, tree'⟩
    · rw [convertTo_of_error (hp.trans hdeliver)]
    · rw [convertTo_of_ok (hp.trans hdeliver)]

/-- The text that is read from the bytes of one with its carriage returns in pairs is the one with
newlines alone. -/
theorem textOfBytes?_toUTF8 {text : String} (h : ReturnsPaired text.toList) :
    textOfBytes? text.toUTF8 = some (String.ofList (dropPairedReturns text.toList)) := by
  rw [textOfBytes?_eq_some_iff]
  exact ⟨text, rfl, by rw [unifyLineEnds_eq_dropPairedReturns h]⟩

/-- A text in which every carriage return has a newline behind it converts, in either format, to
the same document as the text with each such pair replaced by the newline, or fails with the same
failure, at the same place and in the same words.  A run of the command whose input holds the bytes
of the text ends as the text itself converts. -/
theorem convert_with_paired_returns {text : String} (h : ReturnsPaired text.toList) :
    (∀ f, convert (String.ofList (dropPairedReturns text.toList)) f = convert text f) ∧
      ∀ {Tree File : Type} [FileSystem Tree File] {args : List String} {o : Options} {f : Format}
        {stdin : ByteArray} {tree : Tree},
        request? args = some (.convert o) → o.format = some f →
        o.content stdin tree = .ok (some text.toUTF8) →
        run args stdin tree = o.conclude (convert text f) tree := by
  refine ⟨convert_dropPairedReturns h, fun {_ _ _ args o f stdin tree} hargs hf hc => ?_⟩
  have hr : run args stdin tree = convertTo o stdin tree := by simp only [run, hargs]
  rw [hr, convertTo_of_content hc (textOfBytes?_toUTF8 h) hf, convert_dropPairedReturns h]

/-- A fault behind a comment that ends in a carriage return: converted with it and without it, and
read from standard input. -/
theorem convert_with_paired_returns_fault :
    let e : Failure := .read (.lexical ⟨⟨2, 5⟩, .unexpected '?'⟩)
    let tree : FileTree := ⟨[], []⟩
    ReturnsPaired "a = 0x1 # one\r\nb = ?\r\n".toList ∧
      convert "a = 0x1 # one\r\nb = ?\r\n" .xml = .error e ∧
      convert "a = 0x1 # one\nb = ?\n" .xml = .error e ∧
      run [] "a = 0x1 # one\r\nb = ?\r\n".toUTF8 tree = ⟨some (.failure e), "", tree⟩ := by
  intro e tree
  have h : ReturnsPaired "a = 0x1 # one\r\nb = ?\r\n".toList := by decide
  have hplain : String.ofList (dropPairedReturns "a = 0x1 # one\r\nb = ?\r\n".toList) =
      "a = 0x1 # one\nb = ?\n" := by
    rw [← String.toList_inj, String.toList_ofList]
    decide
  have hparse : parse "a = 0x1 # one\r\nb = ?\r\n" =
      .error (.lexical ⟨⟨2, 5⟩, .unexpected '?'⟩) := by with_unfolding_all rfl
  have hfault : convert "a = 0x1 # one\r\nb = ?\r\n" .xml = .error e := by
    rw [convert, Conversion.result_ofText_eq, hparse]
  have hargs : request? [] = some (.convert .default) := by simp [request?, arguments]
  obtain ⟨hconvert, hrun⟩ := convert_with_paired_returns h
  refine ⟨h, hfault, ?_, ?_⟩
  · rw [← hplain, hconvert, hfault]
  · rw [hrun hargs rfl rfl, hfault]
    rfl

end Command

end HexDoc
