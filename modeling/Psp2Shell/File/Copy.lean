import Psp2Shell.CLib.Overlay
import Psp2Shell.File.Remove
import Psp2Shell.Upload.Model

/-! Recursive copies: `s_copyFile` and `s_copyPath` of `psp2shell_m/source/file.c`. -/

namespace Psp2Shell.File

open CLib Upload

/-! ### Calls -/

section Calls

variable {κ : Type} [DecidableEq κ]

/-- `sceIoOpen` with `SCE_O_RDONLY`, whose descriptors are all written as 0. -/
def sceIoOpenRead (naming : Naming κ) (failure : Option Failure) (path : List Byte)
    (fs : FileSystem κ) : Int :=
  match failure, fs.node (naming.locate path) with
  | some f, _ => f.code
  | none, none => sceErrorErrnoEnoent
  | none, some .dir => sceErrorErrnoEisdir
  | none, some (.file _) => 0

/-- `sceIoOpen` with `SCE_O_WRONLY | SCE_O_CREAT | SCE_O_TRUNC`. -/
def sceIoOpenWrite (naming : Naming κ) (failure : Option Failure) (path : List Byte)
    (fs : FileSystem κ) : Int × FileSystem κ :=
  match failure, fs.node (naming.locate path) with
  | some f, _ => (f.code, fs)
  | none, some .dir => (sceErrorErrnoEisdir, fs)
  | none, _ =>
    if (fs.node (naming.locate path).dropLast).any Node.isDir then
      (0, fs.put (naming.locate path) (.file []))
    else (sceErrorErrnoEnoent, fs)

/-- `sceIoMkdir`. -/
def sceIoMkdir (naming : Naming κ) (failure : Option Failure) (path : List Byte)
    (fs : FileSystem κ) : Int × FileSystem κ :=
  match failure, fs.node (naming.locate path) with
  | some f, _ => (f.code, fs)
  | none, some _ => (sceErrorErrnoEexist, fs)
  | none, none =>
    if (fs.node (naming.locate path).dropLast).any Node.isDir then
      (0, fs.put (naming.locate path) .dir)
    else (sceErrorErrnoEnoent, fs)

/-- The bytes of a file. -/
def content (fs : FileSystem κ) (l : List κ) : List Byte :=
  match fs.node l with
  | some (.file c) => c
  | _ => []

end Calls

/-! ### Copies -/

/-- What the calls of a copy come to, by their numbers: the most that a `sceIoRead` gives after its
first byte and that a `sceIoWrite` takes, and whether `p2s_malloc` gives a buffer.  `EEXIST` is only
said of what is there. -/
structure CopyDevice (κ : Type) extends Device κ where
  gives : Nat → Nat
  takes : Nat → Nat
  malloc : Nat → Bool
  eexist : ∀ n f, failure n = some f → f.code ≠ sceErrorErrnoEexist

/-- The results of `sceIoRead`, `sceIoWrite` and `sceIoDread`. -/
inductive Transfer
  | read (res : Int)
  | write (asked : Nat) (res : Int)
  | dread (res : Int)

/-- The state of a copy: the file system, the number of calls on it and those that transfer
something, the descriptors that are open and the buffers that are allocated, `*value`, when there is
one, and what `SetProgress` has been called with. -/
structure Copying (κ : Type) where
  fs : FileSystem κ
  calls : Nat
  log : List Transfer
  descriptors : Nat
  buffers : Nat
  value : Option UInt64
  progress : List (UInt64 × UInt64)

variable {κ : Type} [DecidableEq κ]

namespace Copying

/-- A call that transfers nothing. -/
def advance (s : Copying κ) : Copying κ := { s with calls := s.calls + 1 }

def transfer (e : Transfer) (s : Copying κ) : Copying κ :=
  { s with calls := s.calls + 1, log := s.log ++ [e] }

def acquire (s : Copying κ) : Copying κ := { s with descriptors := s.descriptors + 1 }

/-- `sceIoClose` or `sceIoDclose`. -/
def close (s : Copying κ) : Copying κ := { s with descriptors := s.descriptors - 1 }

def allocate (s : Copying κ) : Copying κ := { s with buffers := s.buffers + 1 }

def free (s : Copying κ) : Copying κ := { s with buffers := s.buffers - 1 }

def dopen (device : CopyDevice κ) (path : List Byte) (s : Copying κ) : Int × Copying κ :=
  let dfd := sceIoDopen device.naming (device.failure s.calls) path s.fs
  (dfd, if 0 ≤ dfd then s.advance.acquire else s.advance)

def openRead (device : CopyDevice κ) (path : List Byte) (s : Copying κ) : Int × Copying κ :=
  let fd := sceIoOpenRead device.naming (device.failure s.calls) path s.fs
  (fd, if 0 ≤ fd then s.advance.acquire else s.advance)

def openWrite (device : CopyDevice κ) (path : List Byte) (s : Copying κ) : Int × Copying κ :=
  let (fd, fs) := sceIoOpenWrite device.naming (device.failure s.calls) path s.fs
  (fd, if 0 ≤ fd then { s.advance.acquire with fs } else { s.advance with fs })

def mkdir (device : CopyDevice κ) (path : List Byte) (s : Copying κ) : Int × Copying κ :=
  let (ret, fs) := sceIoMkdir device.naming (device.failure s.calls) path s.fs
  (ret, { s.advance with fs })

/-- `sceIoWrite` to the file that `path` names. -/
def write (device : CopyDevice κ) (path : List Byte) (data : List Byte) (s : Copying κ) :
    Int × Copying κ :=
  match device.failure s.calls with
  | some f => (f.code, s.transfer (.write data.length f.code))
  | none =>
    let l := device.naming.locate path
    let taken := data.take (device.takes s.calls)
    let fs := s.fs.put l (.file (content s.fs l ++ taken))
    (taken.length, { s.transfer (.write data.length taken.length) with fs })

/-- What follows a step that `*value` counts as `n`: the progress, and whether it is cancelled. -/
def report (param : Option SFileProcessParam) (n : Nat) (s : Copying κ) : Bool × Copying κ :=
  match param with
  | none => (false, s)
  | some p =>
    let value := s.value.map (· + UInt64.ofNat n)
    let progress := if p.setProgress then s.progress ++ [(value.getD 0, p.max)] else s.progress
    (p.cancelHandler.any (· s.calls), { s with value, progress })

/-- The end of `s_copyFile` once the buffer is allocated. -/
def release (s : Copying κ) : Copying κ := s.close.close.free

end Copying

/-- The loop of `s_copyFile` to `dst`, when `rest` is what the source has from the position of
`fdsrc` on.  An error of `sceIoRead` ends it like the end of the file. -/
def copyLoop (device : CopyDevice κ) (param : Option SFileProcessParam) (dst : List Byte)
    (rest : List Byte) (s : Copying κ) : Int × Copying κ :=
  match device.failure s.calls with
  | some f => (1, (s.transfer (.read f.code)).release)
  | none =>
    let data := rest.take (min p2sSizeData (device.gives s.calls + 1))
    let s := s.transfer (.read data.length)
    if data = [] then (1, s.release)
    else
      let (res, s) := s.write device dst data
      if res < 0 then (res, s.release)
      else
        let (cancelled, s) := s.report param data.length
        if cancelled then (0, s.release)
        else copyLoop device param dst (rest.drop data.length) s
termination_by rest.length
decreasing_by
  have hdata := List.length_pos_iff.mpr ‹¬_›
  rw [List.length_take] at hdata ⊢
  rw [List.length_drop]
  omega

/-- `s_copyFile`: what it returns and leaves. -/
def sCopyFile (device : CopyDevice κ) (param : Option SFileProcessParam) (src dst : List Byte)
    (s : Copying κ) : Int × Copying κ :=
  if src = dst then (-1, s)
  else if isSubfolder src dst then (-2, s)
  else
    let (fdsrc, s) := s.openRead device src
    if fdsrc < 0 then (fdsrc, s)
    else
      let (fddst, s) := s.openWrite device dst
      if fddst < 0 then (fddst, s.close)
      else if device.malloc s.calls then
        copyLoop device param dst (content s.fs (device.naming.locate src)) s.allocate
      else (-3, s)

/-- The loop over the entries of `src`, which ends with `none` when `sceIoDread` returns 0 or an
error. The directories among them go to `copyPath`. -/
def copyEntries (device : CopyDevice κ) (param : Option SFileProcessParam)
    (copyPath : List Byte → List Byte → Copying κ → Option (Int × Copying κ))
    (src dst : List Byte) :
    List Name → Copying κ → Option (Option Int × Copying κ)
  | [], s =>
    match device.failure s.calls with
    | some f => some (none, s.transfer (.dread f.code))
    | none => some (none, s.transfer (.dread 0))
  | name :: rest, s =>
    match device.failure s.calls with
    | some f => some (none, s.transfer (.dread f.code))
    | none =>
      let isDir := (s.fs.node (device.naming.locate src ++ [device.naming.key name])).any Node.isDir
      let s := s.transfer (.dread 1)
      if name.isDot then copyEntries device param copyPath src dst rest s
      else
        match (if isDir then copyPath (entryPath src name) (entryPath dst name) s
          else some (sCopyFile device param (entryPath src name) (entryPath dst name) s)) with
        | none => none
        | some (ret, s) =>
          if ret ≤ 0 then some (some ret, s)
          else copyEntries device param copyPath src dst rest s

/-- `s_copyPath`: what it returns and leaves, and `none` when the fuel does not reach the
depth of the directories. -/
def sCopyPath (device : CopyDevice κ) (param : Option SFileProcessParam) :
    Nat → List Byte → List Byte → Copying κ → Option (Int × Copying κ)
  | 0, _, _, _ => none
  | fuel + 1, src, dst, s =>
    if src = dst then some (-1, s)
    else if isSubfolder src dst then some (-2, s)
    else
      let names := device.listing s.calls src s.fs
      let (dfd, s) := s.dopen device src
      if 0 ≤ dfd then
        let (ret, s) := s.mkdir device dst
        if ret < 0 ∧ ret ≠ sceErrorErrnoEexist then some (ret, s.close)
        else
          let (cancelled, s) := s.report param 1
          if cancelled then some (0, s.close)
          else
            match copyEntries device param (sCopyPath device param fuel) src dst names s with
            | none => none
            | some (some ret, s) => some (ret, s.close)
            | some (none, s) => some (1, s.close)
      else some (sCopyFile device param src dst s)

end Psp2Shell.File
