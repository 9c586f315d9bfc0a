import Psp2Shell.CLib.Links
import Psp2Shell.Client.Model

/-! The directory list of `psp2shell_m/source/file.c`: entries that are blocks of memory, linked
both ways, and the functions that add them, list a directory or the mount points, and free them. -/

namespace Psp2Shell.Listing

open CLib File

abbrev Addr := Nat

def dirUp : List Byte := ascii ".."

/-- What an `s_FileListEntry` holds besides its links. -/
structure Entry where
  name : List Byte
  isFolder : Int
  nonempty : name ≠ []
  plain : 0 ∉ name
  short : name.length < maxNameLength
deriving DecidableEq

/-- `name_length`, as every caller sets it. -/
def Entry.nameLength (e : Entry) : Nat := e.name.length

abbrev Memory := LinkMemory Addr Entry

/-- `s_FileList`.  Of the counts, a block is at least a page of a 32-bit address space,
so an `int` holds them. -/
structure SFileList where
  head : Option Addr
  tail : Option Addr
  length : Int
  files : Int
  folders : Int
deriving DecidableEq

def SFileList.cleared : SFileList := ⟨none, none, 0, 0, 0⟩

/-- Why a call does not return: `p2s_malloc` has returned NULL and the block is written
to, a pointer is followed to where no block is, a loop goes round, or a store goes past
the end of its object. -/
inductive Fault
  | outOfMemory
  | dangling
  | endless
  | overrun
deriving DecidableEq

def found {β : Type} : Option β → Except Fault β
  | some b => .ok b
  | none => .error .dangling

inductive FileSortFlags
  | sortNone
  | sortByNameAndFolder
deriving DecidableEq

/-- The string functions that `libmodule.h` redefines: whether `strcasecmp` returns 0, and
`strncasecmp`. -/
structure Build where
  strcasecmpEq : List Byte → List Byte → Bool
  strncasecmp : List Byte → List Byte → Nat → Int

def strncmp : List Byte → List Byte → Nat → Int
  | _, _, 0 => 0
  | [], [], _ + 1 => 0
  | [], b :: _, _ + 1 => -b.toNat
  | a :: _, [], _ + 1 => a.toNat
  | a :: s, b :: t, n + 1 => if a = b then strncmp s t n else (a.toNat : Int) - b.toNat

/-- The module, where `strcasecmp` is `strcmp` and `strncasecmp` is `strncmp`. -/
def Build.module : Build := ⟨fun s t => s = t, strncmp⟩

/-! ### The list -/

/-- Whether the scan for the place of `entry` stops at `p`. -/
def stopsAt (build : Build) (entry p : Entry) : Bool :=
  if entry.isFolder > p.isFolder then true
  else if entry.name = dirUp then true
  else if p.name ≠ dirUp then
    let len := min entry.nameLength p.nameLength
    let len :=
      if entry.name[len - 1]? = some slash ∨ p.name[len - 1]? = some slash then len - 1 else len
    if entry.isFolder = p.isFolder then
      let diff := build.strncasecmp entry.name p.name len
      diff < 0 || (diff = 0 && entry.nameLength < p.nameLength)
    else false
  else false

/-- The loop of `s_fileListAddEntry`: `previous` and `p` where it stops.  Of a memory that does not
change, a loop that visits more nodes than there are goes round. -/
def scan (build : Build) (m : Memory) (entry : Entry) :
    Nat → Option Addr → Option Addr → Except Fault (Option Addr × Option Addr)
  | _, previous, none => .ok (previous, none)
  | 0, _, some _ => .error .endless
  | bound + 1, previous, some p => do
    let node ← found (m.lookup p)
    if stopsAt build entry node.value then return (previous, some p)
    else scan build m entry bound (some p) node.next

/-- Where `s_fileListAddEntry` puts an entry of a list that is not empty. -/
def insertSorted (build : Build) (m : Memory) (list : SFileList) (entry head : Addr) :
    Except Fault (Memory × SFileList) := do
  let node ← found (m.lookup entry)
  let (previous, p) ← scan build m node.value m.keys.card none (some head)
  match previous with
  | none =>
    let p ← found p
    let m ← found (link m entry p)
    return (m, { list with head := some entry })
  | some previous =>
    let node ← found (m.lookup previous)
    if node.next = none then
      let tail ← found list.tail
      let m ← found (link m tail entry)
      return (m, { list with tail := some entry })
    else
      let m ← found (link m previous entry)
      let p ← found p
      let m ← found (link m entry p)
      return (m, list)

def insertLast (m : Memory) (list : SFileList) (entry : Addr) :
    Except Fault (Memory × SFileList) := do
  let tail ← found list.tail
  let m ← found (link m tail entry)
  return (m, { list with tail := some entry })

def sFileListAddEntry (build : Build) (m : Memory) (list : SFileList) (entry : Addr)
    (sort : FileSortFlags) : Except Fault (Memory × SFileList) := do
  let m ← found (setNext m entry none)
  let m ← found (setPrevious m entry none)
  let (m, list) ← match list.head with
    | none => .ok (m, { list with head := some entry, tail := some entry })
    | some head =>
      if sort ≠ .sortNone then insertSorted build m list entry head else insertLast m list entry
  return (m, { list with length := list.length + 1 })

/-- The loop of `s_fileListEmpty`, and the blocks that it frees. -/
def freeLoop : Nat → Memory → Option Addr → Except Fault (Memory × List Addr)
  | _, m, none => .ok (m, [])
  | 0, _, some _ => .error .endless
  | bound + 1, m, some entry => do
    let node ← found (m.lookup entry)
    let (m, freed) ← freeLoop bound (m.erase entry) node.next
    return (m, entry :: freed)

def sFileListEmpty (m : Memory) (list : SFileList) :
    Except Fault (Memory × SFileList × List Addr) := do
  let (m, freed) ← freeLoop m.keys.card m list.head
  return (m, .cleared, freed)

/-! ### Listing -/

/-- `p2s_malloc`: the block that it returns, NULL when there is none, and what its links hold before
anything is stored. -/
structure Allocator where
  block : Memory → Option Addr
  residue : Memory → Option Addr × Option Addr
  fresh : ∀ m p, block m = some p → p ∉ m

/-- A memory that never runs out: each block lies behind all others. -/
def Allocator.behind : Allocator where
  block m := some (m.keys.sup id + 1)
  residue _ := (none, none)
  fresh m p h hp := by
    have hle : p ≤ m.keys.sup id := Finset.le_sup (f := id) (Finmap.mem_keys.mpr hp)
    exact Nat.ne_of_gt (Nat.lt_succ_of_le hle) (Option.some.inj h)

/-- There are memories in which no block is left. -/
def Allocator.Fails (allocator : Allocator) : Prop := ∃ m, allocator.block m = none

/-- What `sceIoDread` returns. -/
structure Dirent where
  name : List Byte
  isDir : Bool
  nonempty : name ≠ []
  plain : 0 ∉ name
  short : name.length < maxNameLength
deriving DecidableEq

/-- The answers of the file system: which mount points `sceIoGetstat` finds, and the entries of a
directory, or the negative number that `sceIoDopen` returns. -/
structure Disk where
  mounted : List Byte → Bool
  directory : List Byte → Except Int (List Dirent)

/-- A memory and a list in it, and the entries that have been added since
the list was last empty. -/
structure World where
  memory : Memory
  list : SFileList
  added : List (Addr × Entry)

/-- A new entry, filled in and added to the list. -/
def addNew (build : Build) (allocator : Allocator) (sort : FileSortFlags) (w : World)
    (entry : Entry) : Except Fault World := do
  match allocator.block w.memory with
  | none => .error .outOfMemory
  | some p =>
    let (next, previous) := allocator.residue w.memory
    let (m, list) ←
      sFileListAddEntry build (w.memory.insert p ⟨next, previous, entry⟩) w.list p sort
    return ⟨m, list, w.added ++ [(p, entry)]⟩

def World.countFolder (w : World) : World :=
  { w with list := { w.list with folders := w.list.folders + 1 } }

def World.countFile (w : World) : World :=
  { w with list := { w.list with files := w.list.files + 1 } }

def mountPoints : List (List Byte) :=
  ["app0:", "gro0:", "grw0:", "os0:", "pd0:", "sa0:", "savedata0:", "tm0:", "ud0:", "ur0:", "ux0:",
    "vd0:", "vs0:", "host0:"].map ascii

theorem mountPoints_valid {name : List Byte} (h : name ∈ mountPoints) :
    name ≠ [] ∧ 0 ∉ name ∧ name.length < maxNameLength := by
  revert name
  decide +kernel

def mountPointEntry (name : { name // name ∈ mountPoints }) : Entry where
  name := name.1
  isFolder := 1
  nonempty := (mountPoints_valid name.2).1
  plain := (mountPoints_valid name.2).2.1
  short := (mountPoints_valid name.2).2.2

def addMountPoint (build : Build) (allocator : Allocator) (w : World)
    (name : { name // name ∈ mountPoints }) : Except Fault World := do
  let w ← addNew build allocator .sortByNameAndFolder w (mountPointEntry name)
  return w.countFolder

def sFileListGetMountPointEntries (build : Build) (allocator : Allocator)
    (disk : Disk) (w : World) :
    Except Fault (World × Int) := do
  let w ← (mountPoints.attach.filter fun name => disk.mounted name.1).foldlM
    (addMountPoint build allocator) w
  return (w, 0)

def dirUpEntry : Entry where
  name := dirUp
  isFolder := 1
  nonempty := by decide
  plain := by decide
  short := by decide

/-- `p2s_addEndSlash`, of a name that is not empty. -/
def p2sAddEndSlash (path : List Byte) : List Byte :=
  if path.length < maxPathLength - 2 ∧ ¬p2sHasEndSlash path then path ++ [slash] else path

theorem p2sAddEndSlash_ne_nil {path : List Byte} (h : path ≠ []) : p2sAddEndSlash path ≠ [] := by
  unfold p2sAddEndSlash
  split
  · simp
  · exact h

theorem nul_not_mem_p2sAddEndSlash {path : List Byte} (h : 0 ∉ path) : 0 ∉ p2sAddEndSlash path := by
  unfold p2sAddEndSlash
  split
  · simpa [slash] using h
  · exact h

theorem p2sAddEndSlash_length {path : List Byte} (h : path.length < maxNameLength) :
    (p2sAddEndSlash path).length < maxNameLength := by
  unfold p2sAddEndSlash
  split
  · next hslash =>
    rw [List.length_append, List.length_singleton]
    simp only [maxPathLength, maxNameLength] at *
    omega
  · exact h

/-- The entry of the list for an entry of the directory. -/
def Dirent.entry (d : Dirent) : Entry where
  name := if d.isDir then p2sAddEndSlash d.name else d.name
  isFolder := if d.isDir then 1 else 0
  nonempty := by
    split
    · exact p2sAddEndSlash_ne_nil d.nonempty
    · exact d.nonempty
  plain := by
    split
    · exact nul_not_mem_p2sAddEndSlash d.plain
    · exact d.plain
  short := by
    split
    · exact p2sAddEndSlash_length d.short
    · exact d.short

/-- The entries `.` and `..`. -/
def Dirent.isDot (d : Dirent) : Bool := d.name = ascii "." || d.name = dirUp

def addDirent (build : Build) (allocator : Allocator) (w : World) (d : Dirent) :
    Except Fault World :=
  if d.isDot then .ok w
  else
    let w := if d.isDir then w.countFolder else w.countFile
    addNew build allocator .sortByNameAndFolder w d.entry

def sFileListGetDirectoryEntries (build : Build) (allocator : Allocator) (disk : Disk) (w : World)
    (path : List Byte) : Except Fault (World × Int) :=
  match disk.directory path with
  | .error dfd => .ok (w, dfd)
  | .ok dirents => do
    let w ← addNew build allocator .sortByNameAndFolder w dirUpEntry
    let w ← dirents.foldlM (addDirent build allocator) w
    return (w, 0)

def sFileListGetEntries (build : Build) (allocator : Allocator) (disk : Disk) (w : World)
    (path : List Byte) : Except Fault (World × Int) :=
  if build.strcasecmpEq path Client.homePath then sFileListGetMountPointEntries build
    allocator disk w
  else sFileListGetDirectoryEntries build allocator disk w path

/-! ### Runs -/

/-- A call on a list. -/
inductive Event
  | addEntry (allocator : Allocator) (entry : Entry) (sort : FileSortFlags)
  | getEntries (allocator : Allocator) (disk : Disk) (path : List Byte)
  | empty

def step (build : Build) (w : World) : Event → Except Fault World
  | .addEntry allocator entry sort => addNew build allocator sort w entry
  | .getEntries allocator disk path => do
    let (w, _) ← sFileListGetEntries build allocator disk w path
    return w
  | .empty => do
    let (m, list, _) ← sFileListEmpty w.memory w.list
    return ⟨m, list, []⟩

/-- The calls one after the other, from a memory and an empty list. -/
def runFrom (build : Build) (m : Memory) (events : List Event) : Except Fault World :=
  events.foldlM (step build) ⟨m, .cleared, []⟩

end Psp2Shell.Listing
