import Psp2Shell.CLib.Format

/-! Paths: the path functions of `psp2shell_m/source/utility.c` and `cmd.c`, the names that
`sceIoDread` returns, and what a file system makes of a path. -/

namespace Psp2Shell.File

open CLib

def maxPathLength : Nat := 256

def maxNameLength : Nat := 256

def slash : Byte := 47

def colon : Byte := 58

/-- `p2s_hasEndSlash`, of a path that is not empty. -/
def p2sHasEndSlash (path : List Byte) : Bool := path.getLast? = some slash

/-- `p2s_removeEndSlash`, of a path that is not empty. -/
def p2sRemoveEndSlash (path : List Byte) : List Byte :=
  if p2sHasEndSlash path then path.dropLast else path

/-- `toAbsolutePath`: the client's directory is `cwd`. -/
def toAbsolutePath (cwd path : List Byte) : List Byte :=
  let path := p2sRemoveEndSlash path
  if colon ∈ path then path
  else snprintf maxPathLength (format (ascii "%s/%s") [.str cwd, .str path])

/-- A `d_name`. -/
structure Name where
  text : List Byte
  nonempty : text ≠ []
  plain : ∀ b ∈ text, b ≠ 0 ∧ b ≠ slash ∧ b ≠ colon
  short : text.length < maxNameLength

/-- The entries `.` and `..`. -/
def Name.isDot (name : Name) : Bool := name.text = ascii "." || name.text = ascii ".."

/-- The path of an entry of the directory `path`. -/
def join (path : List Byte) (name : Name) : List Byte :=
  format (ascii "%s%s%s") [.str path, .str (if p2sHasEndSlash path then [] else [slash]),
    .str name.text]

/-- The path that the tree walkers compose with `snprintf(..., MAX_PATH_LENGTH, ...)`. -/
def entryPath (path : List Byte) (name : Name) : List Byte :=
  snprintf maxPathLength (join path name)

theorem join_eq (path : List Byte) (name : Name) :
    join path name = path ++ (if p2sHasEndSlash path then [] else [slash]) ++ name.text := by
  simp [join, format, ascii]

/-- The composed path is that of the entry exactly when it and its NUL fit. -/
theorem entryPath_eq_iff {path : List Byte} {name : Name} :
    entryPath path name = join path name ↔ (join path name).length < maxPathLength := by
  refine ⟨fun h => ?_, snprintf_of_lt⟩
  have hlen := congrArg List.length h
  rw [entryPath, snprintf, List.length_take, maxPathLength] at hlen
  rw [maxPathLength]
  omega

/-- What a file system makes of a path: the location that it names.  An entry of a directory is at
the directory's location and the key of its name. -/
structure Naming (κ : Type) where
  locate : List Byte → List κ
  key : Name → κ
  locate_join : ∀ path name, name.isDot = false →
    locate (join path name) = locate path ++ [key name]

theorem Naming.locate_entryPath {κ : Type} {naming : Naming κ} {path : List Byte}
    {name : Name} {s q : List κ} (hname : name.isDot = false)
    (hfits : (join path name).length < maxPathLength)
    (h : naming.locate path = s ++ q) :
    naming.locate (entryPath path name) = s ++ (q ++ [naming.key name]) := by
  rw [entryPath_eq_iff.mpr hfits, naming.locate_join path name hname, h, List.append_assoc]

/-! ### Paths without case -/

def lower (b : Byte) : Byte := if 65 ≤ b ∧ b ≤ 90 then b + 32 else b

def isSeparator (b : Byte) : Bool := b = slash || b = colon

/-- The components of a path between its colons and slashes, in lower case. -/
def components (path : List Byte) : List (List Byte) :=
  ((path.splitOnP isSeparator).filter (· ≠ [])).map (List.map lower)

theorem components_append (xs : List Byte) {b : Byte} (hb : isSeparator b = true)
    (ys : List Byte) : components (xs ++ b :: ys) = components xs ++ components ys := by
  rw [components, List.splitOnP_append_cons _ _ hb, List.filter_append,
    List.map_append, ← components, ← components]

theorem components_name (name : Name) : components name.text = [name.text.map lower] := by
  have hplain : ∀ b ∈ name.text, isSeparator b = false := by
    intro b hb
    obtain ⟨-, hslash, hcolon⟩ := name.plain b hb
    simp [isSeparator, hslash, hcolon]
  rw [components, List.splitOnP_eq_singleton hplain]
  simp [name.nonempty]

theorem components_join (path : List Byte) (name : Name) :
    components (join path name) = components path ++ [name.text.map lower] := by
  have hsep : isSeparator slash = true := rfl
  rw [join_eq]
  by_cases hend : p2sHasEndSlash path
  · obtain ⟨start, rfl⟩ : ∃ start, path = start ++ [slash] :=
      List.getLast?_eq_some_iff.mp (by simpa [p2sHasEndSlash] using hend)
    have hstart : components (start ++ [slash]) = components start := by
      rw [components_append start hsep]
      simp [components]
    rw [if_pos hend, List.append_nil, List.append_assoc, List.singleton_append,
      components_append start hsep, hstart, components_name]
  · rw [if_neg hend, List.append_assoc, List.singleton_append, components_append path hsep,
      components_name]

/-- A file system that takes names in either case for the same. -/
def Naming.caseless : Naming (List Byte) where
  locate := components
  key name := name.text.map lower
  locate_join path name _ := components_join path name

end Psp2Shell.File
