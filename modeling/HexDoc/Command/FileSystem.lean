/-
HexDoc/Command/FileSystem.lean

What the command asks of files: where a path leads, what is in a file, whether the file may be
read or written, and to put content into it.

A path leads to a file, there or not, or it leads to none: to a folder, through something that is
no folder, or through a folder that may not be searched.  Different paths may lead to one file,
so the laws speak of files: content that is put into a file is there, no other file gets other
content or other permissions, and every path leads where it did.  A device or a pipe, which does
not keep what is put into it, is not a file here.

Main statement: a write fills the file that the path leads to, and does nothing else
(`FileSystem.fills_of_write?`).
-/
namespace HexDoc.Command

/-- Trees of files that can be read and written through paths. -/
class FileSystem (Tree : Type) (File : outParam Type) where
  /-- The file that a path leads to, there or not. -/
  locate? : Tree → String → Option File
  /-- What is in a file, if it is there. -/
  content? : Tree → File → Option ByteArray
  /-- Whether a file may be read. -/
  mayRead : Tree → File → Bool
  /-- Whether a file may be written, or made if it is not there. -/
  mayWrite : Tree → File → Bool
  /-- Puts content into a file, which is made if it is not there. -/
  put : Tree → File → ByteArray → Tree
  /-- Content that is put into a file is there. -/
  content?_put (t : Tree) (f : File) (c : ByteArray) : content? (put t f c) f = some c
  /-- No other file gets other content. -/
  content?_put_of_ne (t : Tree) {f g : File} (c : ByteArray) (h : g ≠ f) :
    content? (put t f c) g = content? t g
  /-- No other file gets other permissions. -/
  mayRead_put_of_ne (t : Tree) {f g : File} (c : ByteArray) (h : g ≠ f) :
    mayRead (put t f c) g = mayRead t g
  mayWrite_put_of_ne (t : Tree) {f g : File} (c : ByteArray) (h : g ≠ f) :
    mayWrite (put t f c) g = mayWrite t g
  /-- Every path leads where it did. -/
  locate?_put {t : Tree} {path : String} {f : File} (h : locate? t path = some f)
    (c : ByteArray) : locate? (put t f c) = locate? t

namespace FileSystem

variable {Tree File : Type} [FileSystem Tree File] {t t' : Tree} {f : File}
  {path : String} {content : ByteArray}

/-- What is read through a path. -/
def read? (t : Tree) (path : String) : Option ByteArray :=
  ((locate? t path).filter (mayRead t)).bind (content? t)

/-- The file that is opened for writing through a path. -/
def target? (t : Tree) (path : String) : Option File :=
  (locate? t path).filter (mayWrite t)

/-- Writes content through a path. -/
def write? (t : Tree) (path : String) (content : ByteArray) : Option Tree :=
  (target? t path).map fun f => put t f content

/-! ### What a write changes -/

/-- One file holds this content in the second tree, and all else is as in the first. -/
structure Fills (t : Tree) (f : File) (content : ByteArray) (t' : Tree) : Prop where
  content?_eq : content? t' f = some content
  content?_of_ne {g : File} (h : g ≠ f) : content? t' g = content? t g
  mayRead_of_ne {g : File} (h : g ≠ f) : mayRead t' g = mayRead t g
  mayWrite_of_ne {g : File} (h : g ≠ f) : mayWrite t' g = mayWrite t g
  locate?_eq : (locate? t' : String → Option File) = locate? t

theorem locate?_of_target? (h : target? t path = some f) : locate? t path = some f :=
  (Option.filter_eq_some_iff.mp h).1

/-- A path that does not lead to the file that was filled gives what it gave before. -/
theorem Fills.read?_eq (h : Fills t f content t') (hpath : locate? t path ≠ some f) :
    read? t' path = read? t path := by
  rw [read?, read?, h.locate?_eq]
  cases hg : locate? t path with
  | none => rfl
  | some g =>
    have hne : g ≠ f := fun he => hpath (hg.trans (congrArg some he))
    rw [Option.filter_some, Option.filter_some, h.mayRead_of_ne hne]
    split
    · exact h.content?_of_ne hne
    · rfl

end FileSystem

end HexDoc.Command
