import Psp2Shell.CLib.Strings
import Psp2Shell.File.Path

/-! The handlers of `psp2shell_m/source/cmd.c` that work on paths, on the buffers that they
have for them: what they make of an argument and of the client's directory, up to the calls
on the file system. Every function is `none` where it stores past the end of a buffer, or
reads one without a NUL. -/

namespace Psp2Shell.Client

open CLib File

abbrev PathBuffer := Buffer maxPathLength

def homePath : List Byte := ascii "root"

/-- What a handler finds: the bytes that its stack holds before it stores to it, and the answers of
the file system.  `directory` is what a listing of a directory adds to a file list, `none` when
`sceIoDopen` fails, and `mounts` what a listing of the mount points adds. -/
structure Environment where
  stack : PathBuffer
  isDir : List Byte → Bool
  exist : List Byte → Bool
  directory : List Byte → Option (List (List Byte))
  mounts : List (List Byte)

/-- `s_FileList`: the path, and the names of the entries. -/
structure SFileList where
  path : PathBuffer
  entries : List (List Byte)

/-- `s_fileListGetEntries`: what it adds to a list, and `none` when it returns a negative number. -/
def sFileListGetEntries (env : Environment) (path : List Byte) : Option (List (List Byte)) :=
  if path = homePath then some env.mounts else env.directory path

/-- A call on the file system with a path. -/
inductive Act
  | openFile (path : List Byte)
  | list (path : List Byte)
  | move (src dst : List Byte)
  | remove (path : List Byte)
deriving DecidableEq

/-- What a handler has done: its calls, and the indices at which `p2s_removeEndSlash` has read, from
the start of its buffer on. -/
structure Done where
  acts : List Act
  reads : List Int
  fileList : SFileList

/-! ### Paths -/

/-- `p2s_removeEndSlash`, and the index of the byte that it reads.  Of an empty path that byte lies
before the buffer, and the buffer stays as it is. -/
def p2sRemoveEndSlash {n : Nat} (path : Buffer n) : Option (Buffer n × Int) := do
  let s ← path.str
  let path ← if p2sHasEndSlash s then path.setByte (s.length - 1) 0 else some path
  return (path, (s.length : Int) - 1)

/-- `toAbsolutePath`. -/
def toAbsolutePath (env : Environment) (dir path : PathBuffer) : Option (PathBuffer × Int) := do
  let (path, read) ← p2sRemoveEndSlash path
  let s ← path.str
  match strrchr s colon with
  | some _ => return (path, read)
  | none =>
    let np ← env.stack.strncpy s maxPathLength
    let t ← np.str
    let d ← dir.str
    let path ← path.snprintf maxPathLength (format (ascii "%s/%s") [.str d, .str t])
    return (path, read)

/-- `strncpy(new_path, arg, MAX_PATH_LENGTH)`, and then `toAbsolutePath`. -/
def newPath (env : Environment) (fileList : SFileList) (arg : List Byte) :
    Option (PathBuffer × Int) := do
  let path ← env.stack.strncpy arg maxPathLength
  toAbsolutePath env fileList.path path

/-! ### Handlers -/

/-- What `cmd_put` copies into its path: the client's directory for a destination that starts with
`0`. -/
def putSource (d dst : List Byte) : List Byte := if dst.take 1 = ascii "0" then d else dst

/-- `cmd_put`, up to `s_open`. -/
def cmdPut (env : Environment) (fileList : SFileList) (name dst : List Byte) : Option Done := do
  let d ← fileList.path.str
  let (path, read) ← newPath env fileList (putSource d dst)
  let p ← path.str
  let path ← if env.isDir p then (path.strcat (ascii "/")).bind (·.strcat name) else some path
  let p ← path.str
  return ⟨[.openFile p], [read], fileList⟩

/-- `cmd_load`, up to `s_open`. -/
def cmdLoad (env : Environment) (fileList : SFileList) (tid : List Byte) : Option Done := do
  let path ← env.stack.strcpy 0 (format (ascii "ux0:/app/%s/eboot.bin") [.str tid])
  let p ← path.str
  return ⟨[.openFile p], [], fileList⟩

/-- The branches of `cmd_cd` that change the client's path `cur`, which holds `d`. -/
def cdPath (env : Environment) (cur : PathBuffer) (d path : List Byte) : Option PathBuffer :=
  if path = ascii ".." then
    match strrchr d slash with
    | some i => cur.setByte (i + 1) 0
    | none =>
      match strrchr d colon with
      | some i => if d.length - (i + 1) > 0 then cur.setByte (i + 1) 0 else cur.strcpy 0 homePath
      | none => cur.strcpy 0 homePath
  else if env.exist path then cur.strcpy 0 path
  else do
    let tmp ← env.stack.snprintf maxPathLength (format (ascii "%s/%s") [.str d, .str path])
    let t ← tmp.str
    if env.exist t then cur.strncpy t maxPathLength else some cur

/-- `cmd_cd`.  The argument lies in a slot of its own, in which `p2s_removeEndSlash` cuts it. -/
def cmdCd (env : Environment) (fileList : SFileList) (path : List Byte) : Option Done := do
  let oldPath ← (Buffer.zero 1024).strncpy path 1024
  let (cur, read) ← p2sRemoveEndSlash fileList.path
  let d ← cur.str
  let cur ← cdPath env cur d (File.p2sRemoveEndSlash path)
  let target ← cur.str
  let reads := [(path.length : Int) - 1, read]
  match sFileListGetEntries env target with
  | some entries => return ⟨[.list target], reads, ⟨cur, entries⟩⟩
  | none =>
    let old ← oldPath.str
    let cur ← cur.strncpy old maxPathLength
    return ⟨[.list target, .list old], reads, ⟨cur, (sFileListGetEntries env old).getD []⟩⟩

/-- `cmd_ls`, up to the listing. -/
def cmdLs (env : Environment) (fileList : SFileList) (path : List Byte) : Option Done := do
  let d ← fileList.path.str
  if path = homePath then
    let new ← env.stack.strncpy d maxPathLength
    let p ← new.str
    return ⟨[.list p], [], fileList⟩
  else if d = homePath then
    let new ← env.stack.strncpy path maxPathLength
    let p ← new.str
    return ⟨[.list p], [], fileList⟩
  else
    let (new, read) ← newPath env fileList path
    let s ← new.str
    let new ← env.stack.strncpy s maxPathLength
    let p ← new.str
    return ⟨[.list p], [read], fileList⟩

/-- `cmd_mv`, up to `s_movePath`. -/
def cmdMv (env : Environment) (fileList : SFileList) (src dst : List Byte) : Option Done := do
  let (newSrc, readSrc) ← newPath env fileList src
  let (newDst, readDst) ← newPath env fileList dst
  let s ← newSrc.str
  let d ← newDst.str
  return ⟨[.move s d], [readSrc, readDst], fileList⟩

/-- `cmd_rm`. -/
def cmdRm (env : Environment) (fileList : SFileList) (file : List Byte) : Option Done := do
  let (new, read) ← newPath env fileList file
  let p ← new.str
  return ⟨if !env.isDir p then [.remove p] else [], [read], fileList⟩

/-- `cmd_rmdir`. -/
def cmdRmdir (env : Environment) (fileList : SFileList) (path : List Byte) : Option Done := do
  let (new, read) ← newPath env fileList path
  let p ← new.str
  return ⟨[.remove p], [read], fileList⟩

end Psp2Shell.Client
