import Psp2Shell.CLib.FileTree
import Psp2Shell.File.Path
import Psp2Shell.Msg.Model

/-! The file system calls and the moves: `s_movePath` of
`psp2shell_m/source/file.c` and `cmd_mv`. -/

namespace Psp2Shell.File

open CLib Msg

/-- A file system: its regular files hold bytes. -/
abbrev FileSystem (κ : Type) := FileTree κ (List Byte)

/-! ### Calls -/

/-- The `int` of an error code. -/
def sceError (code : Nat) : Int := code - 2 ^ 32

def sceErrorErrnoEnoent : Int := sceError 0x80010002

def sceErrorErrnoEexist : Int := sceError 0x80010011

def sceErrorErrnoEnotdir : Int := sceError 0x80010014

def sceErrorErrnoEisdir : Int := sceError 0x80010015

def sceErrorErrnoEinval : Int := sceError 0x80010016

def sceErrorErrnoEnotempty : Int := sceError 0x8001005A

/-- A failure of a call that leaves the file system as it was. -/
structure Failure where
  code : Int
  negative : code < 0

variable {κ : Type} [DecidableEq κ]

/-- `sceIoGetstat`: whether the path names a directory, or an error. -/
def sceIoGetstat (naming : Naming κ) (failure : Option Failure) (path : List Byte)
    (fs : FileSystem κ) : Except Int Bool :=
  match failure, fs.node (naming.locate path) with
  | some f, _ => .error f.code
  | none, none => .error sceErrorErrnoEnoent
  | none, some n => .ok n.isDir

/-- `sceIoRename`. -/
def sceIoRename (naming : Naming κ) (failure : Option Failure) (src dst : List Byte)
    (fs : FileSystem κ) : Int × FileSystem κ :=
  match failure, fs.rename (naming.locate src) (naming.locate dst) with
  | some f, _ => (f.code, fs)
  | none, .error .taken => (sceErrorErrnoEexist, fs)
  | none, .error .missing => (sceErrorErrnoEnoent, fs)
  | none, .error .inside => (sceErrorErrnoEinval, fs)
  | none, .ok fs => (0, fs)

/-- `sceIoRemove`. -/
def sceIoRemove (naming : Naming κ) (failure : Option Failure) (path : List Byte)
    (fs : FileSystem κ) : Int × FileSystem κ :=
  match failure, fs.node (naming.locate path) with
  | some f, _ => (f.code, fs)
  | none, none => (sceErrorErrnoEnoent, fs)
  | none, some .dir => (sceErrorErrnoEisdir, fs)
  | none, some (.file _) => (0, fs.remove (naming.locate path))

/-- `sceIoRmdir`. -/
def sceIoRmdir (naming : Naming κ) (failure : Option Failure) (path : List Byte)
    (fs : FileSystem κ) : Int × FileSystem κ :=
  match failure, fs.node (naming.locate path) with
  | some f, _ => (f.code, fs)
  | none, none => (sceErrorErrnoEnoent, fs)
  | none, some (.file _) => (sceErrorErrnoEnotdir, fs)
  | none, some .dir =>
    let fs := fs.rmdir (naming.locate path)
    (if fs.node (naming.locate path) = none then 0 else sceErrorErrnoEnotempty, fs)

/-- `sceIoDopen`, whose descriptors are all written as 0. -/
def sceIoDopen (naming : Naming κ) (failure : Option Failure) (path : List Byte)
    (fs : FileSystem κ) : Int :=
  match failure, fs.node (naming.locate path) with
  | some f, _ => f.code
  | none, none => sceErrorErrnoEnoent
  | none, some (.file _) => sceErrorErrnoEnotdir
  | none, some .dir => 0

/-! ### Moves -/

/-- `MOVE_INTEGRATE`: integrate directories. -/
def moveIntegrate : BitVec 32 := 1

/-- `MOVE_REPLACE`: replace files. -/
def moveReplace : BitVec 32 := 2

/-- The failures of the calls of one `s_movePath`; a call with none does what it is for. -/
structure Calls where
  rename : Option Failure
  srcStat : Option Failure
  dstStat : Option Failure
  remove : Option Failure
  renameAgain : Option Failure
  dopen : Option Failure
  rmdir : Option Failure

mutual

/-- What the calls of one `s_movePath` come to, with those of the moves of the
entries that it reads. -/
inductive Outcomes
  | mk (calls : Calls) (reads : Reads)

/-- What `sceIoDread` returns: an entry, which is moved with outcomes of its
own, or 0 or an error. -/
inductive Reads
  | stop
  | entry (name : Name) (moved : Outcomes) (rest : Reads)

end

/-- The test for a destination that is a subfolder of the source, on the text of the two paths. -/
def isSubfolder (src dst : List Byte) : Bool :=
  src.isPrefixOf dst && (dst[src.length]? = some slash ||
    (0 < src.length && dst[src.length - 1]? = some slash))

/-- The parts of `s_movePath` that are not about the entries of a directory: what they return and
leave, or `none` when the directory is to be integrated, with what the renaming leaves. -/
def moveOne (naming : Naming κ) (flags : BitVec 32) (calls : Calls) (src dst : List Byte)
    (fs : FileSystem κ) : Option Int × FileSystem κ :=
  if src = dst then (some (-1), fs)
  else if isSubfolder src dst then (some (-2), fs)
  else
    let (res, fs) := sceIoRename naming calls.rename src dst fs
    if res = sceErrorErrnoEexist ∧ flags &&& (moveIntegrate ||| moveReplace) ≠ 0 then
      match sceIoGetstat naming calls.srcStat src fs with
      | .error res => (some res, fs)
      | .ok srcIsDir =>
        match sceIoGetstat naming calls.dstStat dst fs with
        | .error res => (some res, fs)
        | .ok dstIsDir =>
          if srcIsDir ≠ dstIsDir then (some (-3), fs)
          else if !srcIsDir && !dstIsDir && flags &&& moveReplace ≠ 0 then
            let (_, fs) := sceIoRemove naming calls.remove dst fs
            let (res, fs) := sceIoRename naming calls.renameAgain src dst fs
            (some (if res < 0 then res else 1), fs)
          else if srcIsDir && dstIsDir && flags &&& moveIntegrate ≠ 0 then
            let dfd := sceIoDopen naming calls.dopen src fs
            if dfd < 0 then (some dfd, fs) else (none, fs)
          else (some 1, fs)
    else (some 1, fs)

mutual

/-- `s_movePath`: what it returns and the file system that it leaves. -/
def sMovePath (naming : Naming κ) (flags : BitVec 32) :
    Outcomes → List Byte → List Byte → FileSystem κ → Int × FileSystem κ
  | .mk calls reads, src, dst, fs =>
    match moveOne naming flags calls src dst fs with
    | (some res, fs) => (res, fs)
    | (none, fs) =>
      match moveEntries naming flags reads src dst fs with
      | (some ret, fs) => (ret, fs)
      | (none, fs) => (1, (sceIoRmdir naming calls.rmdir src fs).2)

/-- The loop over the entries of `src`, which ends with the move of an entry
that returns 0 or less. -/
def moveEntries (naming : Naming κ) (flags : BitVec 32) :
    Reads → List Byte → List Byte → FileSystem κ → Option Int × FileSystem κ
  | .stop, _, _, fs => (none, fs)
  | .entry name moved rest, src, dst, fs =>
    if name.isDot then moveEntries naming flags rest src dst fs
    else
      match sMovePath naming flags moved (entryPath src name) (entryPath dst name) fs with
      | (ret, fs) => if ret ≤ 0 then (some ret, fs) else moveEntries naming flags rest src dst fs

end

/-- `cmd_mv`: the message that it prints and the file system that it leaves; `none` when an argument
does not fit in its buffer with a NUL. -/
def cmdMv (naming : Naming κ) (cwd src dst : List Byte) (outcomes : Outcomes) (fs : FileSystem κ) :
    Option (Color × List Byte × FileSystem κ) :=
  if src.length < maxPathLength ∧ dst.length < maxPathLength then
    let src := toAbsolutePath cwd src
    let dst := toAbsolutePath cwd dst
    let (res, fs) := sMovePath naming (moveIntegrate ||| moveReplace) outcomes src dst fs
    some (if res ≠ 1 then (.red, format (ascii "\nerror: %i\n\n") [.int res], fs)
      else (.green, format (ascii "\nmoved `%s` to `%s`\n\n") [.str src, .str dst], fs))
  else none

end Psp2Shell.File
