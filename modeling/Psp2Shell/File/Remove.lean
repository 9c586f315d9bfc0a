import Psp2Shell.File.Model

/-! Recursive removal: `s_removePath` of `psp2shell_m/source/file.c`. -/

namespace Psp2Shell.File

open CLib

/-- `s_FileProcessParam`, but for `*value`.  What `cancelHandler` answers goes by the number of
calls on the file system before it. -/
structure SFileProcessParam where
  max : UInt64
  setProgress : Bool
  cancelHandler : Option (Nat → Bool)

/-- What the calls on the file system come to: what a path names, which of them fail, by their
numbers, and the names that `sceIoDread` goes through for a directory that is open. -/
structure Device (κ : Type) where
  naming : Naming κ
  failure : Nat → Option Failure
  listing : Nat → List Byte → FileSystem κ → List Name

/-- A call: the name that `sceIoDread` returns for an entry of a directory, and the results of the
others. -/
inductive Event
  | dread (path : List Byte) (name : Name)
  | remove (path : List Byte) (res : Int)
  | rmdir (path : List Byte) (res : Int)

/-- The state of a removal: the file system, the number of calls on it and those of interest,
`*value`, when there is one, and what `SetProgress` has been called with. -/
structure Removing (κ : Type) where
  fs : FileSystem κ
  calls : Nat
  log : List Event
  value : Option UInt64
  progress : List (UInt64 × UInt64)

variable {κ : Type} [DecidableEq κ]

namespace Removing

/-- A call that changes nothing. -/
def advance (s : Removing κ) : Removing κ := { s with calls := s.calls + 1 }

def read (s : Removing κ) (path : List Byte) (name : Name) : Removing κ :=
  { s with calls := s.calls + 1, log := s.log ++ [.dread path name] }

def remove (device : Device κ) (path : List Byte) (s : Removing κ) : Int × Removing κ :=
  let (res, fs) := sceIoRemove device.naming (device.failure s.calls) path s.fs
  (res, { s with fs, calls := s.calls + 1, log := s.log ++ [.remove path res] })

def rmdir (device : Device κ) (path : List Byte) (s : Removing κ) : Int × Removing κ :=
  let (res, fs) := sceIoRmdir device.naming (device.failure s.calls) path s.fs
  (res, { s with fs, calls := s.calls + 1, log := s.log ++ [.rmdir path res] })

/-- What follows a removal: the progress, and whether it is cancelled. -/
def report (param : Option SFileProcessParam) (s : Removing κ) : Bool × Removing κ :=
  match param with
  | none => (false, s)
  | some p =>
    let value := s.value.map (· + 1)
    let progress := if p.setProgress then s.progress ++ [(value.getD 0, p.max)] else s.progress
    (p.cancelHandler.any (· s.calls), { s with value, progress })

end Removing

/-- The end of `s_removePath` after `sceIoRmdir` or `sceIoRemove`. -/
def afterRemoval (param : Option SFileProcessParam) : Int × Removing κ → Int × Removing κ
  | (ret, s) =>
    if ret < 0 then (ret, s)
    else
      let (cancelled, s) := s.report param
      (if cancelled then 0 else 1, s)

/-- The loop over the entries of `path`, which ends with `none` when `sceIoDread` returns 0 or an
error. The directories among them go to `removePath`. -/
def removeEntries (device : Device κ) (param : Option SFileProcessParam)
    (removePath : List Byte → Removing κ → Option (Int × Removing κ)) (path : List Byte) :
    List Name → Removing κ → Option (Option Int × Removing κ)
  | [], s => some (none, s.advance)
  | name :: rest, s =>
    match device.failure s.calls with
    | some _ => some (none, s.advance)
    | none =>
      let isDir :=
        (s.fs.node (device.naming.locate path ++ [device.naming.key name])).any Node.isDir
      let s := s.read path name
      if name.isDot then removeEntries device param removePath path rest s
      else if isDir then
        match removePath (entryPath path name) s with
        | none => none
        | some (ret, s) =>
          if ret ≤ 0 then some (some ret, s)
          else removeEntries device param removePath path rest s
      else
        let (ret, s) := s.remove device (entryPath path name)
        if ret < 0 then some (some ret, s)
        else
          let (cancelled, s) := s.report param
          if cancelled then some (some 0, s)
          else removeEntries device param removePath path rest s

/-- `s_removePath`: what it returns and leaves, and `none` when the fuel does not reach the
depth of the directories. -/
def sRemovePath (device : Device κ) (param : Option SFileProcessParam) :
    Nat → List Byte → Removing κ → Option (Int × Removing κ)
  | 0, _, _ => none
  | fuel + 1, path, s =>
    let dfd := sceIoDopen device.naming (device.failure s.calls) path s.fs
    if 0 ≤ dfd then
      match removeEntries device param (sRemovePath device param fuel) path
          (device.listing s.calls path s.fs) s.advance with
      | none => none
      | some (some ret, s) => some (ret, s)
      | some (none, s) => some (afterRemoval param (s.rmdir device path))
    else some (afterRemoval param (s.advance.remove device path))

end Psp2Shell.File
