import Psp2Shell.File.Step
import Psp2Shell.File.Remove

/-! The entries that the tree walkers read: the visits of a run of `s_removePath` and of
`s_movePath`, each with the number of calls that it is below the first one. -/

namespace Psp2Shell.File

open CLib

variable {κ : Type} [DecidableEq κ]

/-! ### Moves -/

/-- The paths of `s_movePath` for a directory, an entry of it, and the file
system when it was opened. -/
structure MoveVisit (κ : Type) where
  depth : Nat
  src : List Byte
  dst : List Byte
  name : Name
  opened : FileSystem κ

/-- Both composed paths fit. -/
def MoveVisit.Fits (v : MoveVisit κ) : Prop :=
  (join v.src v.name).length < maxPathLength ∧ (join v.dst v.name).length < maxPathLength

/-- The visits of the loop over the entries of `src`, which was opened in `opened`. -/
inductive MoveReads (naming : Naming κ) (flags : BitVec 32) :
    Reads → List Byte → List Byte → FileSystem κ → FileSystem κ → MoveVisit κ → Prop
  | here {name moved rest src dst opened fs} (hname : name.isDot = false) :
    MoveReads naming flags (.entry name moved rest) src dst opened fs ⟨0, src, dst, name, opened⟩
  | inside {name calls reads rest src dst opened fs u v} (hname : name.isDot = false)
    (hone : moveOne naming flags calls (entryPath src name) (entryPath dst name) fs = (none, u))
    (h : MoveReads naming flags reads (entryPath src name) (entryPath dst name) u u v) :
    MoveReads naming flags (.entry name (.mk calls reads) rest) src dst opened fs
      { v with depth := v.depth + 1 }
  | dot {name moved rest src dst opened fs v} (hname : name.isDot = true)
    (h : MoveReads naming flags rest src dst opened fs v) :
    MoveReads naming flags (.entry name moved rest) src dst opened fs v
  | next {name moved rest src dst opened fs ret u v} (hname : name.isDot = false)
    (hmoved : sMovePath naming flags moved (entryPath src name) (entryPath dst name) fs = (ret, u))
    (hret : 0 < ret) (h : MoveReads naming flags rest src dst opened u v) :
    MoveReads naming flags (.entry name moved rest) src dst opened fs v

/-- The visits of `s_movePath`. -/
def MoveVisits (naming : Naming κ) (flags : BitVec 32) :
    Outcomes → List Byte → List Byte → FileSystem κ → MoveVisit κ → Prop
  | .mk calls reads, src, dst, fs, v => ∃ t, moveOne naming flags calls src dst fs = (none, t) ∧
    MoveReads naming flags reads src dst t t v

/-- The move of an entry has its visits one call further down. -/
theorem visits_inside {naming : Naming κ} {flags : BitVec 32} {name : Name}
    {moved : Outcomes} {rest : Reads} {src dst : List Byte} {opened fs : FileSystem κ}
    (hfits : ∀ v, MoveReads naming flags (.entry name moved rest) src dst opened fs v → v.Fits)
    (hname : name.isDot = false) (v : MoveVisit κ)
    (hv : MoveVisits naming flags moved (entryPath src name) (entryPath dst name) fs v) :
    v.Fits := by
  obtain ⟨calls, reads⟩ := moved
  obtain ⟨t, hone, hreads⟩ := hv
  exact hfits { v with depth := v.depth + 1 } (.inside hname hone hreads)

/-! ### Removals -/

/-- The path of `s_removePath` for a directory, and an entry of it. -/
structure RemoveVisit where
  depth : Nat
  path : List Byte
  name : Name

/-- The composed path fits. -/
def RemoveVisit.Fits (v : RemoveVisit) : Prop := (join v.path v.name).length < maxPathLength

/-- The visits of the loop over the entries of `path`. -/
inductive RemoveReads (device : Device κ) (param : Option SFileProcessParam) :
    List Byte → List Name → Removing κ → RemoveVisit → Prop
  | here {path name rest s} (hread : device.failure s.calls = none) (hname : name.isDot = false) :
    RemoveReads device param path (name :: rest) s ⟨0, path, name⟩
  | inside {path name rest s v} (hread : device.failure s.calls = none) (hname : name.isDot = false)
    (hdir : (s.fs.node (device.naming.locate path ++ [device.naming.key name])).any Node.isDir =
      true)
    (hopen : 0 ≤ sceIoDopen device.naming (device.failure (s.read path name).calls)
      (entryPath path name) (s.read path name).fs)
    (h : RemoveReads device param (entryPath path name)
      (device.listing (s.read path name).calls (entryPath path name) (s.read path name).fs)
      (s.read path name).advance v) :
    RemoveReads device param path (name :: rest) s { v with depth := v.depth + 1 }
  | dot {path name rest s v} (hread : device.failure s.calls = none) (hname : name.isDot = true)
    (h : RemoveReads device param path rest (s.read path name) v) :
    RemoveReads device param path (name :: rest) s v
  | directory {path name rest s fuel ret t v} (hread : device.failure s.calls = none)
    (hname : name.isDot = false)
    (hdir : (s.fs.node (device.naming.locate path ++ [device.naming.key name])).any Node.isDir =
      true)
    (hremoved : sRemovePath device param fuel (entryPath path name)
      (s.read path name) = some (ret, t))
    (hret : 0 < ret) (h : RemoveReads device param path rest t v) :
    RemoveReads device param path (name :: rest) s v
  | file {path name rest s res t v} (hread : device.failure s.calls = none)
    (hname : name.isDot = false)
    (hfile : (s.fs.node (device.naming.locate path ++ [device.naming.key name])).any Node.isDir =
      false)
    (hremoved : (s.read path name).remove device (entryPath path name) = (res, t)) (hres : 0 ≤ res)
    (hgoes : (t.report param).1 = false)
    (h : RemoveReads device param path rest (t.report param).2 v) :
    RemoveReads device param path (name :: rest) s v

/-- The visits of `s_removePath`. -/
def RemoveVisits (device : Device κ) (param : Option SFileProcessParam) (path : List Byte)
    (s : Removing κ) (v : RemoveVisit) : Prop :=
  0 ≤ sceIoDopen device.naming (device.failure s.calls) path s.fs ∧
    RemoveReads device param path (device.listing s.calls path s.fs) s.advance v

end Psp2Shell.File
