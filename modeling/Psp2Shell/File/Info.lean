import Psp2Shell.File.CopyPath

/-! The count of a tree: `s_getPathInfo` of `psp2shell_m/source/file.c`. -/

namespace Psp2Shell.File

open CLib FileTree

/-- The counters that `s_getPathInfo` is given. -/
structure PathInfo where
  size : Option UInt64
  folders : Option UInt32
  files : Option UInt32

/-- The counters after more bytes, folders and files. -/
def PathInfo.plus (info : PathInfo) (size folders files : Nat) : PathInfo where
  size := info.size.map (· + UInt64.ofNat size)
  folders := info.folders.map (· + UInt32.ofNat folders)
  files := info.files.map (· + UInt32.ofNat files)

theorem PathInfo.plus_zero (info : PathInfo) : info.plus 0 0 0 = info := by
  obtain ⟨size, folders, files⟩ := info
  cases size <;> cases folders <;> cases files <;> simp [plus]

theorem PathInfo.plus_plus (info : PathInfo) (a b c a' b' c' : Nat) :
    (info.plus a b c).plus a' b' c' = info.plus (a + a') (b + b') (c + c') := by
  obtain ⟨size, folders, files⟩ := info
  cases size <;> cases folders <;> cases files <;>
    simp [plus, UInt64.ofNat_add, UInt32.ofNat_add, add_assoc]

/-- The state of a count: the number of calls and the counters. -/
structure Counting where
  calls : Nat
  info : PathInfo

namespace Counting

def advance (s : Counting) : Counting := { s with calls := s.calls + 1 }

/-- `(*size) += st_size` and `(*files)++`. -/
def addFile (size : Nat) (s : Counting) : Counting := { s with info := s.info.plus size 0 1 }

/-- `(*folders)++`. -/
def addFolder (s : Counting) : Counting := { s with info := s.info.plus 0 1 0 }

end Counting

/-- The `st_size` of a node, which is 0 for a directory. -/
def stSize : Node (List Byte) → Nat
  | .dir => 0
  | .file c => c.length

variable {κ : Type} [DecidableEq κ]

/-- The loop over the entries of `path`, which ends with `none` when `sceIoDread` returns 0 or an
error. The directories among them go to `getPathInfo`. -/
def countEntries (device : Device κ) (fs : FileSystem κ)
    (getPathInfo : List Byte → Counting → Option (Int × Counting)) (path : List Byte) :
    List Name → Counting → Option (Option Int × Counting)
  | [], s => some (none, s.advance)
  | name :: rest, s =>
    match device.failure s.calls with
    | some _ => some (none, s.advance)
    | none =>
      let node := fs.node (device.naming.locate path ++ [device.naming.key name])
      let s := s.advance
      if name.isDot then countEntries device fs getPathInfo path rest s
      else if node.any Node.isDir then
        match getPathInfo (entryPath path name) s with
        | none => none
        | some (ret, s) =>
          if ret ≤ 0 then some (some ret, s)
          else countEntries device fs getPathInfo path rest s
      else countEntries device fs getPathInfo path rest (s.addFile (node.elim 0 stSize))

/-- `s_getPathInfo`: what it returns and leaves in the counters, and `none` when the fuel does not
reach the depth of the directories. -/
def sGetPathInfo (device : Device κ) (fs : FileSystem κ) :
    Nat → List Byte → Counting → Option (Int × Counting)
  | 0, _, _ => none
  | fuel + 1, path, s =>
    let dfd := sceIoDopen device.naming (device.failure s.calls) path fs
    let names := device.listing s.calls path fs
    let s := s.advance
    if 0 ≤ dfd then
      match countEntries device fs (sGetPathInfo device fs fuel) path names s with
      | none => none
      | some (some ret, s) => some (ret, s)
      | some (none, s) => some (1, s.addFolder)
    else if s.info.size.isSome then
      match sceIoGetstat device.naming (device.failure s.calls) path fs with
      | .error res => some (res, s.advance)
      | .ok _ => some (1, s.advance.addFile ((fs.node (device.naming.locate path)).elim 0 stSize))
    else some (1, s.addFile 0)

/-! ### What is counted -/

def folderCount : Node (List Byte) → Nat
  | .dir => 1
  | .file _ => 0

def fileCount : Node (List Byte) → Nat
  | .dir => 0
  | .file _ => 1

/-- The counters after what is at and below `l`. -/
def PathInfo.plusTree (info : PathInfo) (fs : FileSystem κ) (l : List κ) : PathInfo :=
  info.plus (fs.total stSize l) (fs.total folderCount l) (fs.total fileCount l)

/-- The counters after the trees at the entries `keys` of `l`. -/
def PathInfo.plusEntries (info : PathInfo) (fs : FileSystem κ) (l keys : List κ) : PathInfo :=
  keys.foldl (fun info k => info.plusTree fs (l ++ [k])) info

theorem PathInfo.plusEntries_eq (info : PathInfo) (fs : FileSystem κ) (l keys : List κ) :
    info.plusEntries fs l keys =
      info.plus (keys.map fun k => fs.total stSize (l ++ [k])).sum
        (keys.map fun k => fs.total folderCount (l ++ [k])).sum
        (keys.map fun k => fs.total fileCount (l ++ [k])).sum := by
  induction keys generalizing info with
  | nil => exact info.plus_zero.symm
  | cons k keys ih =>
    rw [plusEntries, List.foldl_cons, ← plusEntries, ih, plusTree, plus_plus]
    simp only [List.map_cons, List.sum_cons]

/-- The folder itself comes after its entries. -/
theorem PathInfo.plusTree_dir {info : PathInfo} {fs : FileSystem κ} {l keys : List κ}
    (hdir : fs.node l = some .dir) (honce : keys.Nodup)
    (hkeys : ∀ k, k ∈ keys ↔ fs.node (l ++ [k]) ≠ none) :
    (info.plusEntries fs l keys).plus 0 1 0 = info.plusTree fs l := by
  rw [plusEntries_eq, plus_plus, plusTree, total_dir hdir honce hkeys, total_dir hdir honce hkeys,
    total_dir hdir honce hkeys]
  simp [stSize, folderCount, fileCount, add_comm]

theorem PathInfo.plusTree_file {info : PathInfo} {fs : FileSystem κ} {l : List κ} {c : List Byte}
    (hfile : fs.node l = some (.file c)) : info.plusTree fs l = info.plus c.length 0 1 := by
  rw [plusTree, total_file hfile, total_file hfile, total_file hfile]
  rfl

/-! ### Whole counts -/

/-- `sceIoDread` goes once through the entries of every directory at or below `root`. -/
def Device.ListsBelow (device : Device κ) (root : List κ) (fs : FileSystem κ) : Prop :=
  ∀ n path, root <+: device.naming.locate path → fs.node (device.naming.locate path) = some .dir →
    Lists device.naming path (device.listing n path fs) fs

section

variable {device : Device κ} {root : List κ} {fs : FileSystem κ}

theorem countEntries_spec (hno : ∀ n, device.failure n = none) {fuel : Nat} {path : List Byte}
    {getPathInfo : List Byte → Counting → Option (Int × Counting)}
    (hrec : ∀ p s, root <+: device.naming.locate p → Short device.naming p fs →
      fs.node (device.naming.locate p) ≠ none →
      (∀ r, fs.node (device.naming.locate p ++ r) ≠ none → r.length < fuel) →
      ∃ t, getPathInfo p s = some (1, t) ∧ t.info = s.info.plusTree fs (device.naming.locate p))
    (hunder : root <+: device.naming.locate path) (hshort : Short device.naming path fs)
    (hdepth : ∀ r, fs.node (device.naming.locate path ++ r) ≠ none → r.length < fuel + 1)
    (names : List Name) : ∀ s : Counting,
      (∀ k ∈ entryKeys device.naming names, fs.node (device.naming.locate path ++ [k]) ≠ none) →
      ∃ t, countEntries device fs getPathInfo path names s = some (none, t) ∧
        t.info = s.info.plusEntries fs (device.naming.locate path)
          (entryKeys device.naming names) := by
  induction names with
  | nil => exact fun s _ => ⟨s.advance, rfl, rfl⟩
  | cons name rest ih =>
    intro s hpresent
    rw [countEntries, hno]
    dsimp only
    by_cases hdot : name.isDot = true
    · have hkeys : entryKeys device.naming (name :: rest) = entryKeys device.naming rest := by
        simp [entryKeys, hdot]
      rw [hkeys] at hpresent ⊢
      rw [if_pos hdot]
      exact ih s.advance hpresent
    have hname : name.isDot = false := by simpa using hdot
    rw [Lists.keys_cons hname] at hpresent ⊢
    have hhere := hpresent _ List.mem_cons_self
    have hrest := fun k hk => hpresent k (List.mem_cons_of_mem _ hk)
    have hlocate := device.naming.locate_join path name hname
    obtain ⟨n, hn⟩ := Option.ne_none_iff_exists'.mp hhere
    rw [if_neg hdot, hn, hshort.entryPath (.refl _ _) hname hhere]
    cases n with
    | dir =>
      obtain ⟨t, heq, ht⟩ := hrec (join path name) s.advance
        (by rw [hlocate]; exact hunder.trans (List.prefix_append _ _)) (hshort.join hname)
        (by rw [hlocate]; exact hhere) fun r hr => by
          rw [hlocate, List.append_assoc] at hr
          have := hdepth _ hr
          rw [List.length_append, List.length_singleton] at this
          omega
      rw [hlocate] at ht
      obtain ⟨u, heq', hu⟩ := ih t hrest
      refine ⟨u, ?_, by rw [hu, ht]; rfl⟩
      rw [heq]
      exact heq'
    | file c =>
      obtain ⟨u, heq', hu⟩ := ih (s.advance.addFile c.length) hrest
      refine ⟨u, heq', ?_⟩
      rw [hu]
      show _ = PathInfo.plusEntries (s.info.plusTree fs _) fs _ _
      rw [PathInfo.plusTree_file hn]
      rfl

theorem sGetPathInfo_spec (hno : ∀ n, device.failure n = none) (hlisted : device.ListsBelow root fs)
    (fuel : Nat) : ∀ path s, root <+: device.naming.locate path → Short device.naming path fs →
      fs.node (device.naming.locate path) ≠ none →
      (∀ r, fs.node (device.naming.locate path ++ r) ≠ none → r.length < fuel) →
      ∃ t, sGetPathInfo device fs fuel path s = some (1, t) ∧
        t.info = s.info.plusTree fs (device.naming.locate path) := by
  induction fuel with
  | zero =>
    intro path s _ _ hpresent hdepth
    exact absurd (hdepth [] (by rwa [List.append_nil])) (lt_irrefl 0)
  | succ fuel ih =>
    intro path s hunder hshort hpresent hdepth
    rw [sGetPathInfo, hno]
    obtain ⟨n, hn⟩ := Option.ne_none_iff_exists'.mp hpresent
    cases n with
    | dir =>
      have hlists := hlisted s.calls path hunder hn
      rw [sceIoDopen_dir hn, if_pos le_rfl]
      obtain ⟨t, heq, ht⟩ :=
        countEntries_spec hno ih hunder hshort hdepth (device.listing s.calls path fs)
        s.advance fun k hk => (hlists.every k).mp hk
      refine ⟨t.addFolder, by rw [heq], ?_⟩
      rw [← PathInfo.plusTree_dir hn hlists.once hlists.every]
      exact congrArg (fun info => PathInfo.plus info 0 1 0) ht
    | file c =>
      have hclosed : ¬0 ≤ sceIoDopen device.naming none path fs := by
        intro h
        have := sceIoDopen_nonneg h
        rw [hn] at this
        cases this
      rw [if_neg hclosed, PathInfo.plusTree_file hn]
      have hstat : sceIoGetstat device.naming none path fs = .ok false := by
        rw [sceIoGetstat.eq_def, hn]
        rfl
      by_cases hsize : s.advance.info.size.isSome = true
      · rw [if_pos hsize, hno, hstat, hn]
        exact ⟨_, rfl, rfl⟩
      · rw [if_neg hsize]
        refine ⟨_, rfl, ?_⟩
        have hnone : s.info.size = none := Option.not_isSome_iff_eq_none.mp hsize
        simp [Counting.addFile, Counting.advance, PathInfo.plus, hnone]

end

/-- When no call fails, `s_getPathInfo` returns 1 and counts every file and every folder at and
below the path once, and the bytes of the files. -/
theorem path_info_counts (device : Device κ) (path : List Byte) (fs : FileSystem κ)
    (info : PathInfo) (hno : ∀ n, device.failure n = none)
    (hlisted : device.ListsBelow (device.naming.locate path) fs)
    (hshort : Short device.naming path fs) (hexists : fs.node (device.naming.locate path) ≠ none) :
    ∃ n, ∀ fuel, n ≤ fuel → ∃ t, sGetPathInfo device fs fuel path ⟨0, info⟩ = some (1, t) ∧
      t.info = info.plusTree fs (device.naming.locate path) := by
  obtain ⟨n, hn⟩ := fs.exists_depth
  refine ⟨n, fun fuel hfuel => ?_⟩
  apply sGetPathInfo_spec hno hlisted fuel path ⟨0, info⟩ (List.prefix_refl _) hshort hexists
  intro r hr
  have := hn _ hr
  rw [List.length_append] at this
  omega

theorem ShortPair.source {naming : Naming κ} {src dst : List Byte} {fs : FileSystem κ}
    (h : ShortPair naming src dst fs) : Short naming src fs :=
  fun names hplain hnode => (h names hplain hnode).1

theorem CopyDevice.Listed.below {device : CopyDevice κ} {root : List κ} {fs : FileSystem κ}
    (h : device.Listed root fs) : device.toDevice.ListsBelow root fs :=
  fun n path hunder hdir => h n path fs (fun _ _ => rfl) hunder hdir

/-- A directory with a file of one byte. -/
theorem path_info_counts_directory :
    ∃ n, ∀ fuel, n ≤ fuel → ∃ t, sGetPathInfo (.knowing namesOfTwoDirectories) twoDirectories fuel
      (ascii "ux0:/a") ⟨0, ⟨some 0, some 0, none⟩⟩ = some (1, t) ∧
      t.info = ⟨some 1, some 1, none⟩ := by
  obtain ⟨-, hshort, hlisted⟩ := twoDirectories_copies
  obtain ⟨n, hn⟩ :=
    path_info_counts (.knowing namesOfTwoDirectories) (ascii "ux0:/a") twoDirectories
    ⟨some 0, some 0, none⟩ (fun _ => rfl) hlisted.below hshort.source (by decide +kernel)
  refine ⟨n, fun fuel hfuel => ?_⟩
  obtain ⟨t, heq, ht⟩ := hn fuel hfuel
  refine ⟨t, heq, ht.trans ?_⟩
  have hcounts : twoDirectories.total stSize (Naming.caseless.locate (ascii "ux0:/a")) = 1 ∧
      twoDirectories.total folderCount (Naming.caseless.locate (ascii "ux0:/a")) = 1 := by
        decide +kernel
  show PathInfo.mk _ _ _ = _
  rw [show (Device.knowing namesOfTwoDirectories).naming = Naming.caseless from rfl,
    hcounts.1, hcounts.2]
  rfl

end Psp2Shell.File
