/-
HexDoc/Command/FileTree.lean

Files and folders below one root, and who may do what with them.

A path starts at the root if it begins with a slash, and at the current folder otherwise.  It is
followed name by name.  Every folder in which a name is looked up has to allow the search, and every
name but the last has to be a folder; `.` stays where it is, and `..` goes back, except at the
root, where it stays as well.  A path that is empty or ends at a folder leads to no file, and
neither does one that is too long or has a name that is.

A path that leads to a file has led through folders only (`isFolder_of_follow`), so a file that is
made there makes no folder (`isFolder_put`) and every path leads where it did.  That is the one law
of a file system that takes an argument; `FileTree` has them all.
-/
import HexDoc.Command.FileSystem
import HexDoc.Entries

namespace HexDoc.Command

/-- The names on the way from the root to a file or a folder. -/
abbrev Path := List String

/-- Where the command runs, and what the files and folders allow it.  A file or a folder that is
not there has the permissions that it would get. -/
structure Access where
  current : Path
  maySearch : Path → Bool
  mayRead : Path → Bool
  mayWrite : Path → Bool

namespace Access

/-- Everything is allowed, and the root is the current folder. -/
def all : Access :=
  ⟨[], fun _ => true, fun _ => true, fun _ => true⟩

/-- The folder in which a path starts. -/
def start (a : Access) (path : String) : Path :=
  if path.toList.head? = some '/' then [] else a.current

end Access

/-- Files and folders.  Every folder on the way to one of them exists as well. -/
structure FileTree (access : Access := .all) where
  folders : List Path
  files : Entries Path ByteArray

namespace FileTree

variable {a : Access}

/-- Whether a folder is at a path. -/
def isFolder (t : FileTree a) (p : Path) : Bool :=
  p.isEmpty || t.folders.any (p.isPrefixOf ·) ||
    t.files.keys.any fun q => p.isPrefixOf q && p.length < q.length

/-- The most bytes that a name may have. -/
def longestName : Nat :=
  255

/-- The most bytes that a path may have. -/
def longestPath : Nat :=
  4095

/-- The names of a path, between its slashes. -/
def names (path : String) : List String :=
  (path.toList.splitOn '/').map String.ofList

/-- Follows names from a folder to what the last of them names, there or not. -/
def follow (t : FileTree a) (p : Path) : List String → Option Path
  | [] => some p
  | name :: rest =>
    if name = "" then t.follow p rest
    else if !a.maySearch p then none
    else if name = "." then t.follow p rest
    else if name = ".." then t.follow p.dropLast rest
    else if longestName < name.utf8ByteSize then none
    else if rest = [] then some (p ++ [name])
    else if t.isFolder (p ++ [name]) then t.follow (p ++ [name]) rest
    else none

/-- The file that a path leads to, there or not. -/
def locate? (t : FileTree a) (path : String) : Option Path :=
  if longestPath < path.utf8ByteSize then none
  else if t.isFolder (a.start path) then
    (t.follow (a.start path) (names path)).filter fun p => !t.isFolder p
  else none

/-- Whether a file may be written.  One that is not there is made, which its folder has to
allow. -/
def mayWrite (t : FileTree a) (p : Path) : Bool :=
  if p ∈ t.files.keys then a.mayWrite p else a.mayWrite p.dropLast

/-- Puts content into a file, which is made if it is not there. -/
def put (t : FileTree a) (p : Path) (content : ByteArray) : FileTree a :=
  { t with files := t.files.put p content }

variable {t t' : FileTree a} {p q : Path} {path : String}

/-! ### Folders -/

theorem isFolder_iff :
    t.isFolder p = true ↔
      p = [] ∨ (∃ q ∈ t.folders, p <+: q) ∨
        ∃ q ∈ t.files.keys, p <+: q ∧ p.length < q.length := by
  simp [isFolder, or_assoc]

/-- What is on the way to a folder is a folder. -/
theorem isFolder_of_isPrefix (hp : p <+: q) (hq : t.isFolder q = true) :
    t.isFolder p = true := by
  rw [isFolder_iff] at hq ⊢
  rcases hq with rfl | ⟨r, hr, hqr⟩ | ⟨r, hr, hqr, hlt⟩
  · exact .inl (List.prefix_nil.mp hp)
  · exact .inr (.inl ⟨r, hr, hp.trans hqr⟩)
  · exact .inr (.inr ⟨r, hr, hp.trans hqr, Nat.lt_of_le_of_lt hp.length_le hlt⟩)

/-- What is on the way to a name in a folder is a folder. -/
theorem isFolder_of_isPrefix_concat {name : String} (hp : t.isFolder p = true)
    (hq : q <+: p ++ [name]) (hlt : q.length < (p ++ [name]).length) : t.isFolder q = true := by
  rcases List.prefix_concat_iff.mp hq with rfl | hq
  · exact absurd hlt (Nat.lt_irrefl _)
  · exact isFolder_of_isPrefix hq hp

/-- Names that are followed from a folder lead through folders only. -/
theorem isFolder_of_follow {ns : List String} (hp : t.isFolder p = true)
    (h : t.follow p ns = some q) {r : Path} (hr : r <+: q) (hlt : r.length < q.length) :
    t.isFolder r = true := by
  induction ns generalizing p with
  | nil =>
    obtain rfl : p = q := by simpa [follow] using h
    exact isFolder_of_isPrefix hr hp
  | cons name ns ih =>
    rw [follow] at h
    split at h
    · exact ih hp h
    split at h
    · cases h
    split at h
    · exact ih hp h
    split at h
    · exact ih (isFolder_of_isPrefix (List.dropLast_prefix p) hp) h
    split at h
    · cases h
    split at h
    · obtain rfl : p ++ [name] = q := by simpa using h
      exact isFolder_of_isPrefix_concat hp hr hlt
    split at h
    · rename_i hf
      exact ih hf h
    · cases h

/-- A path that leads to a file leads through folders only. -/
theorem isFolder_of_locate? (h : t.locate? path = some q) {r : Path} (hr : r <+: q)
    (hlt : r.length < q.length) : t.isFolder r = true := by
  rw [locate?] at h
  split at h
  · cases h
  split at h
  · rename_i hstart
    exact isFolder_of_follow hstart (Option.filter_eq_some_iff.mp h).1 hr hlt
  · cases h

/-! ### Where paths lead -/

/-- Where names lead depends on the folders alone. -/
theorem follow_congr (h : t'.isFolder = t.isFolder) : t'.follow = t.follow := by
  funext p ns
  induction ns generalizing p with
  | nil => rfl
  | cons name ns ih => simp only [follow, ih, h]

/-- Where paths lead depends on the folders alone. -/
theorem locate?_congr (h : t'.isFolder = t.isFolder) : t'.locate? = t.locate? := by
  funext path
  simp only [locate?, follow_congr h, h]

/-! ### Putting content into a file -/

/-- A file that a path leads to makes no folder. -/
theorem isFolder_put (h : t.locate? path = some q) (content : ByteArray) :
    (t.put q content).isFolder = t.isFolder := by
  funext p
  rw [Bool.eq_iff_iff, isFolder_iff, isFolder_iff]
  simp only [put, Entries.keys_put]
  split
  · exact Iff.rfl
  · constructor
    · rintro (hp | hp | ⟨r, hr, hpr, hlt⟩)
      · exact .inl hp
      · exact .inr (.inl hp)
      · rcases List.mem_append.mp hr with hr | hr
        · exact .inr (.inr ⟨r, hr, hpr, hlt⟩)
        · -- a folder on the way to the new file was there to lead to it
          obtain rfl := List.mem_singleton.mp hr
          exact isFolder_iff.mp (isFolder_of_locate? h hpr hlt)
    · rintro (hp | hp | ⟨r, hr, hpr⟩)
      · exact .inl hp
      · exact .inr (.inl hp)
      · exact .inr (.inr ⟨r, List.mem_append_left _ hr, hpr⟩)

/-- Which permission counts for a file depends on whether it is there, and that changes for the
one file only. -/
theorem mayWrite_put_of_ne (t : FileTree a) (content : ByteArray) (h : q ≠ p) :
    (t.put p content).mayWrite q = t.mayWrite q := by
  have hkeys : q ∈ (t.put p content).files.keys ↔ q ∈ t.files.keys := by
    rw [put, Entries.keys_put]
    split
    · exact Iff.rfl
    · simp [h]
  simp only [mayWrite, hkeys]

instance : FileSystem (FileTree a) Path where
  locate? := locate?
  content? t := t.files.get?
  mayRead _ := a.mayRead
  mayWrite := mayWrite
  put := put
  content?_put t p content := by rw [put, Entries.get?_put, if_pos rfl]
  content?_put_of_ne t _ _ content h := by rw [put, Entries.get?_put, if_neg h.symm]
  mayRead_put_of_ne _ _ _ _ _ := rfl
  mayWrite_put_of_ne t _ _ content h := t.mayWrite_put_of_ne content h
  locate?_put h content := locate?_congr (isFolder_put h content)

end FileTree

end HexDoc.Command
