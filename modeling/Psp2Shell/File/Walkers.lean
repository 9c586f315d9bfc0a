import Psp2Shell.File.Confined

/-! The tree walkers visit the entries that they read, and go no deeper than the tree, in the runs
in which each entry's full path fits. -/

namespace Psp2Shell.File

open CLib

variable {κ : Type} [DecidableEq κ]

/-! ### Moves -/

section Moves

variable {naming : Naming κ} {flags : BitVec 32} {outcomes : Outcomes} {reads : Reads}
  {src dst : List Byte} {opened fs : FileSystem κ} {v : MoveVisit κ}

/-- The directories of a visit are as many entries below `src` and `dst` as the visit is
deep.  The source is there when it is opened, and was there from the start when the move does
not reach into itself. -/
def MoveVisit.Along (naming : Naming κ) (src dst : List Byte) (fs : FileSystem κ)
    (v : MoveVisit κ) : Prop :=
  ∃ names : List Name, names.length = v.depth ∧ v.src = names.foldl join src ∧
    v.dst = names.foldl join dst ∧
    v.opened.node (naming.locate src ++ names.map naming.key) = some .dir ∧
    (Apart (naming.locate src) (naming.locate dst) fs →
      fs.node (naming.locate src ++ names.map naming.key) ≠ none)

theorem MoveReads.chain (h : MoveReads naming flags reads src dst opened fs v)
    (hfits : ∀ v, MoveReads naming flags reads src dst opened fs v → v.Fits)
    (hdir : opened.node (naming.locate src) = some .dir) :
    ∃ names : List Name, names.length = v.depth ∧ v.src = names.foldl join src ∧
      v.dst = names.foldl join dst ∧
      v.opened.node (naming.locate src ++ names.map naming.key) = some .dir := by
  induction h with
  | here hname => exact ⟨[], rfl, rfl, rfl, by rwa [List.map_nil, List.append_nil]⟩
  | @inside name calls reads rest src dst opened fs u v hname hone h ih =>
    obtain ⟨hsrc, hdst⟩ := hfits _ (.here hname)
    have hcases := moveOne_cases naming flags calls (entryPath src name) (entryPath dst name) fs
    rw [hone] at hcases
    have hopened : u.node (naming.locate (entryPath src name)) = some .dir := by
      cases hcases with
      | integrate dirs => exact dirs.1
    obtain ⟨names, hlen, hvsrc, hvdst, hnode⟩ :=
      ih (fun v hv => hfits { v with depth := v.depth + 1 } (.inside hname hone hv)) hopened
    rw [entryPath_eq_iff.mpr hsrc] at hvsrc hnode
    rw [entryPath_eq_iff.mpr hdst] at hvdst
    rw [naming.locate_join src name hname, List.append_assoc] at hnode
    exact ⟨name :: names, by rw [List.length_cons, hlen], hvsrc, hvdst, hnode⟩
  | dot hname h ih => exact ih (fun v hv => hfits v (.dot hname hv)) hdir
  | next hname hmoved hret h ih => exact ih (fun v hv => hfits v (.next hname hmoved hret hv)) hdir

/-- What every move of an entry keeps, and every removal of a directory, holds when
a directory is opened. -/
theorem MoveReads.invariant {s d q : List κ} (inv : FileSystem κ → Prop)
    (one : ∀ {q fs result}, MovedOne flags (s ++ q) (d ++ q) fs result → inv fs → inv result.2)
    (rmdir : ∀ {fs} (l), inv fs → inv (fs.rmdir l))
    (h : MoveReads naming flags reads src dst opened fs v)
    (hfits : ∀ v, MoveReads naming flags reads src dst opened fs v → v.Fits)
    (hsrc : naming.locate src = s ++ q) (hdst : naming.locate dst = d ++ q) (hopened : inv opened)
    (hfs : inv fs) : inv v.opened := by
  induction h generalizing q with
  | here hname => exact hopened
  | @inside name calls reads rest src dst opened fs u v hname hone h ih =>
    obtain ⟨hfitsrc, hfitdst⟩ := hfits _ (.here hname)
    have hentrysrc := Naming.locate_entryPath hname hfitsrc hsrc
    have hentrydst := Naming.locate_entryPath hname hfitdst hdst
    have hcases := moveOne_cases naming flags calls (entryPath src name) (entryPath dst name) fs
    rw [hone, hentrysrc, hentrydst] at hcases
    have hu : inv u := one hcases hfs
    exact ih (fun v hv => hfits { v with depth := v.depth + 1 } (.inside hname hone hv))
      hentrysrc hentrydst hu hu
  | dot hname h ih => exact ih (fun v hv => hfits v (.dot hname hv)) hsrc hdst hopened hfs
  | @next name moved rest src dst opened fs ret u v hname hmoved hret h ih =>
    obtain ⟨hfitsrc, hfitdst⟩ := hfits _ (.here hname)
    have hu := movePath_invariant inv one rmdir moved (visits_inside hfits hname)
      (Naming.locate_entryPath hname hfitsrc hsrc) (Naming.locate_entryPath hname hfitdst hdst) hfs
    rw [hmoved] at hu
    exact ih (fun v hv => hfits v (.next hname hmoved hret hv)) hsrc hdst hopened hu

/-- A run of `s_movePath` composes the paths of the entries that it reads, and
is as deep as the tree. -/
structure MoveExact (naming : Naming κ) (flags : BitVec 32) (outcomes : Outcomes)
    (src dst : List Byte) (fs : FileSystem κ) : Prop where
  composed : ∀ v, MoveVisits naming flags outcomes src dst fs v →
    entryPath v.src v.name = join v.src v.name ∧ entryPath v.dst v.name = join v.dst v.name
  along : ∀ v, MoveVisits naming flags outcomes src dst fs v → v.Along naming src dst fs

theorem moveExact_iff : MoveExact naming flags outcomes src dst fs ↔
    ∀ v, MoveVisits naming flags outcomes src dst fs v → v.Fits := by
  constructor
  · intro h v hv
    obtain ⟨hsrc, hdst⟩ := h.composed v hv
    exact ⟨entryPath_eq_iff.mp hsrc, entryPath_eq_iff.mp hdst⟩
  · intro h
    refine ⟨fun v hv => ⟨entryPath_eq_iff.mpr (h v hv).1, entryPath_eq_iff.mpr (h v hv).2⟩, ?_⟩
    obtain ⟨calls, reads⟩ := outcomes
    rintro v ⟨t, hone, hv⟩
    have hfits : ∀ v, MoveReads naming flags reads src dst t t v → v.Fits :=
      fun v hv => h v ⟨t, hone, hv⟩
    have hcases := moveOne_cases naming flags calls src dst fs
    rw [hone] at hcases
    cases hcases with
    | integrate dirs =>
      obtain ⟨names, hlen, hsrc, hdst, hnode⟩ := hv.chain hfits dirs.1
      refine ⟨names, hlen, hsrc, hdst, hnode, fun hapart => ?_⟩
      have hmoving := hv.invariant (Moving (naming.locate src) (naming.locate dst) fs) (q := [])
        (fun hone hm => hm.moveOne hapart hone) (fun l hm => hm.rmdir l) hfits
        (List.append_nil _).symm (List.append_nil _).symm (.start _ _ fs) (.start _ _ fs)
      exact hmoving.less _ (by simp [hnode])

end Moves

/-! ### Removals -/

section Removals

variable {device : Device κ} {param : Option SFileProcessParam} {path : List Byte}
  {names : List Name} {start : FileSystem κ} {s t : Removing κ} {v : RemoveVisit}

omit [DecidableEq κ] in
theorem afterRemoval_fs (param : Option SFileProcessParam) (r : Int × Removing κ) :
    (afterRemoval param r).2.fs = r.2.fs := by
  obtain ⟨ret, t, heq, hfs, -⟩ := afterRemoval_spec param r.1 r.2
  rw [heq, hfs]

theorem remove_shrinks (device : Device κ) (path : List Byte) (s : Removing κ) :
    FileTree.Shrinks [] s.fs (s.remove device path).2.fs := by
  obtain ⟨res, t, heq, -, hshrinks, -⟩ := remove_spec device path s
  rw [heq]
  exact hshrinks.mono List.nil_prefix

theorem rmdir_shrinks (device : Device κ) (path : List Byte) (s : Removing κ) :
    FileTree.Shrinks [] s.fs (s.rmdir device path).2.fs := by
  obtain ⟨res, t, heq, -, hshrinks, -⟩ := rmdir_spec device path s
  rw [heq]
  exact hshrinks.mono List.nil_prefix

/-- An entry that is a file goes, and what follows changes nothing. -/
theorem file_shrinks {name : Name} {res : Int}
    (hremoved : (s.read path name).remove device (entryPath path name) = (res, t)) :
    FileTree.Shrinks [] s.fs (t.report param).2.fs := by
  have ht := remove_shrinks device (entryPath path name) (s.read path name)
  rw [hremoved] at ht
  rw [report_fs]
  exact ht

theorem removeEntries_shrinks {removePath : List Byte → Removing κ → Option (Int × Removing κ)}
    (hrec : ∀ p s ret t, removePath p s = some (ret, t) → FileTree.Shrinks [] s.fs t.fs)
    (names : List Name) :
    ∀ s res t, removeEntries device param removePath path names s = some (res, t) →
      FileTree.Shrinks [] s.fs t.fs := by
  induction names with
  | nil =>
    rintro s res t ⟨⟩
    exact .refl _ _
  | cons name rest ih =>
    intro s res t h
    rw [removeEntries] at h
    split at h
    · cases h
      exact .refl _ _
    · dsimp only at h
      split at h
      · exact ih (s.read path name) _ _ h
      split at h
      · split at h
        · cases h
        · rename_i ret u hremoved
          have hu := hrec _ _ _ _ hremoved
          split at h
          · cases h
            exact hu
          · exact hu.trans (ih _ _ _ h)
      · split at h
        · cases h
          exact remove_shrinks device (entryPath path name) (s.read path name)
        · have hreported : FileTree.Shrinks [] s.fs (Removing.report param
              ((s.read path name).remove device (entryPath path name)).2).2.fs :=
            file_shrinks Prod.mk.eta.symm
          split at h
          · cases h
            exact hreported
          · exact hreported.trans (ih _ _ _ h)

/-- Whatever is composed, a removal adds nothing. -/
theorem sRemovePath_shrinks {fuel : Nat} : ∀ {path s ret t},
    sRemovePath device param fuel path s = some (ret, t) → FileTree.Shrinks [] s.fs t.fs := by
  induction fuel with
  | zero =>
    intro path s ret t h
    cases h
  | succ fuel ih =>
    intro path s ret t h
    rw [sRemovePath] at h
    split at h
    · split at h
      · cases h
      · rename_i heq
        cases h
        exact removeEntries_shrinks (fun _ _ _ _ => ih) _ s.advance _ _ heq
      · rename_i u heq
        have hu := removeEntries_shrinks (fun _ _ _ _ => ih) _ s.advance _ _ heq
        have hfs := afterRemoval_fs param (u.rmdir device path)
        rw [Option.some.inj h] at hfs
        rw [hfs]
        exact hu.trans (rmdir_shrinks device path u)
    · have hfs := afterRemoval_fs param (s.advance.remove device path)
      rw [Option.some.inj h] at hfs
      rw [hfs]
      exact remove_shrinks device path s.advance

/-- The directory of a visit is as many entries below `path` as the visit is deep, and was
there from the start. -/
def RemoveVisit.Along (naming : Naming κ) (path : List Byte) (start : FileSystem κ)
    (v : RemoveVisit) :
    Prop :=
  ∃ names : List Name, names.length = v.depth ∧ v.path = names.foldl join path ∧
    start.node (naming.locate path ++ names.map naming.key) ≠ none

theorem RemoveReads.along (h : RemoveReads device param path names s v)
    (hfits : ∀ v, RemoveReads device param path names s v → v.Fits)
    (hshrunk : FileTree.Shrinks [] start s.fs)
    (hthere : start.node (device.naming.locate path) ≠ none) :
    v.Along device.naming path start := by
  induction h with
  | here hread hname => exact ⟨[], rfl, rfl, by rwa [List.map_nil, List.append_nil]⟩
  | @inside path name rest s v hread hname hdir hopen h ih =>
    have hpath := entryPath_eq_iff.mpr (hfits _ (.here hread hname))
    have hopened : s.fs.node (device.naming.locate (entryPath path name)) = some .dir :=
      sceIoDopen_nonneg hopen
    have hentry : start.node (device.naming.locate (entryPath path name)) ≠ none :=
      hshrunk.ne_none (by simp [hopened])
    obtain ⟨names, hlen, hv, hnode⟩ := ih
      (fun v hv => hfits { v with depth := v.depth + 1 } (.inside hread hname hdir hopen hv))
      hshrunk hentry
    rw [hpath] at hv hnode
    rw [device.naming.locate_join path name hname, List.append_assoc] at hnode
    exact ⟨name :: names, by rw [List.length_cons, hlen], hv, hnode⟩
  | dot hread hname h ih => exact ih (fun v hv => hfits v (.dot hread hname hv)) hshrunk hthere
  | @directory path name rest s fuel ret t v hread hname hdir hremoved hret h ih =>
    exact ih (fun v hv => hfits v (.directory hread hname hdir hremoved hret hv))
      (hshrunk.trans (sRemovePath_shrinks (s := s.read path name) hremoved)) hthere
  | @file path name rest s res t v hread hname hfile hremoved hres hgoes h ih =>
    exact ih (fun v hv => hfits v (.file hread hname hfile hremoved hres hgoes hv))
      (hshrunk.trans (file_shrinks hremoved)) hthere

/-- The tree at and below a location is less deep than `d`. -/
def Shallow (l : List κ) (d : Nat) (fs : FileSystem κ) : Prop :=
  ∀ r, fs.node (l ++ r) ≠ none → r.length < d

theorem Shallow.shrinks {l : List κ} {d : Nat} {fs t : FileSystem κ} (h : Shallow l d fs)
    (hshrinks : FileTree.Shrinks [] fs t) : Shallow l d t :=
  fun r hr => h r (hshrinks.ne_none hr)

/-- One entry down, the tree is less deep. -/
theorem Shallow.entry {l : List κ} {d : Nat} {fs : FileSystem κ}
    (h : Shallow l (d + 1) fs) (k : κ) :
    Shallow (l ++ [k]) d fs := by
  intro r hr
  rw [List.append_assoc] at hr
  exact Nat.lt_of_succ_lt_succ (h ([k] ++ r) hr)

/-- The loop over the entries ends when the removals of the directories among them do. -/
theorem removeEntries_ends {fuel : Nat}
    (hrec : ∀ path (s : Removing κ), (∀ v, RemoveVisits device param path s v → v.Fits) →
      Shallow (device.naming.locate path) fuel s.fs → 0 < fuel →
        ∃ ret t, sRemovePath device param fuel path s = some (ret, t))
    (names : List Name) : ∀ s, (∀ v, RemoveReads device param path names s v → v.Fits) →
      Shallow (device.naming.locate path) (fuel + 1) s.fs →
        ∃ res t, removeEntries device param (sRemovePath device param fuel) path names s =
          some (res, t) := by
  induction names with
  | nil => exact fun s _ _ => ⟨_, _, rfl⟩
  | cons name rest ih =>
    intro s hfits hshallow
    rw [removeEntries]
    cases hread : device.failure s.calls with
    | some f => exact ⟨_, _, rfl⟩
    | none =>
      dsimp only
      by_cases hdot : name.isDot = true
      · rw [if_pos hdot]
        exact ih (s.read path name) (fun v hv => hfits v (.dot hread hdot hv)) hshallow
      have hname : name.isDot = false := by simpa using hdot
      have hpath := entryPath_eq_iff.mpr (hfits _ (.here hread hname))
      rw [if_neg hdot]
      split
      · rename_i hdir
        have hlocate : device.naming.locate (entryPath path name) =
            device.naming.locate path ++ [device.naming.key name] := by
          rw [hpath, device.naming.locate_join path name hname]
        have hentry := hshallow.entry (device.naming.key name)
        have hpos : 0 < fuel := hentry [] (by simp [FileTree.eq_dir_of_any hdir])
        obtain ⟨ret, t, hremoved⟩ := hrec (entryPath path name) (s.read path name)
          (fun v hv => hfits { v with depth := v.depth + 1 } (.inside hread hname hdir hv.1 hv.2))
          (hlocate ▸ hentry) hpos
        rw [hremoved]
        dsimp only
        split
        · exact ⟨_, _, rfl⟩
        · exact ih t (fun v hv => hfits v (.directory hread hname hdir hremoved (by omega) hv))
            (hshallow.shrinks (sRemovePath_shrinks (s := s.read path name) hremoved))
      · rename_i hfile
        split
        · exact ⟨_, _, rfl⟩
        · split
          · exact ⟨_, _, rfl⟩
          · rename_i hres hgoes
            refine ih _ (fun v hv => hfits v ?_) ?_
            · exact .file hread hname (by simpa using hfile) Prod.mk.eta.symm (not_lt.mp hres)
                (by simpa using hgoes) hv
            · exact hshallow.shrinks (file_shrinks Prod.mk.eta.symm)

/-- A removal whose visits fit needs no more nested calls than the tree is deep. -/
theorem sRemovePath_ends (fuel : Nat) : ∀ path (s : Removing κ),
    (∀ v, RemoveVisits device param path s v → v.Fits) →
    Shallow (device.naming.locate path) fuel s.fs →
      0 < fuel → ∃ ret t, sRemovePath device param fuel path s = some (ret, t) := by
  induction fuel with
  | zero =>
    intro path s hfits hshallow hpos
    omega
  | succ fuel ih =>
    intro path s hfits hshallow hpos
    rw [sRemovePath]
    split
    · rename_i hopen
      obtain ⟨res, t, heq⟩ :=
        removeEntries_ends ih _ s.advance (fun v hv => hfits v ⟨hopen, hv⟩) hshallow
      rw [heq]
      cases res with
      | some ret => exact ⟨_, _, rfl⟩
      | none => exact ⟨_, _, rfl⟩
    · exact ⟨_, _, rfl⟩

/-- A run of `s_removePath` composes the paths of the entries that it reads, and its nested calls,
each for a directory that was there, are no more than the tree is deep. -/
structure RemoveExact (device : Device κ) (param : Option SFileProcessParam) (path : List Byte)
    (s : Removing κ) : Prop where
  composed : ∀ v, RemoveVisits device param path s v → entryPath v.path v.name = join v.path v.name
  along : ∀ v, RemoveVisits device param path s v → v.Along device.naming path s.fs
  ends : ∀ d, 0 < d → Shallow (device.naming.locate path) d s.fs →
    ∃ ret t, sRemovePath device param d path s = some (ret, t)

theorem removeExact_iff : RemoveExact device param path s ↔
    ∀ v, RemoveVisits device param path s v → v.Fits := by
  constructor
  · exact fun h v hv => entryPath_eq_iff.mp (h.composed v hv)
  · intro h
    refine ⟨fun v hv => entryPath_eq_iff.mpr (h v hv), fun v hv => ?_, fun d hpos hshallow => ?_⟩
    · exact hv.2.along (fun v' hv' => h v' ⟨hv.1, hv'⟩) (.refl _ _)
        (by simp [sceIoDopen_nonneg hv.1])
    · exact sRemovePath_ends d path s h hshallow hpos

omit [DecidableEq κ] in
theorem mem_entryKeys {naming : Naming κ} {name : Name} (hmem : name ∈ names)
    (hdot : name.isDot = false) :
    naming.key name ∈ entryKeys naming names :=
  List.mem_map_of_mem (List.mem_filter.mpr ⟨hmem, by simp [hdot]⟩)

/-- Where every full path at and below `path` fits, so does every path that a removal composes. -/
theorem RemoveReads.fits_of_short (h : RemoveReads device param path names s v)
    (hlisted : device.Listed start) (hshort : Short device.naming path start)
    (hshrunk : FileTree.Shrinks [] start s.fs)
    (hnames : ∀ name ∈ names, name.isDot = false →
      start.node (device.naming.locate path ++ [device.naming.key name]) ≠ none) : v.Fits := by
  induction h with
  | @here path name rest s hread hname =>
    have hnode := hnames name List.mem_cons_self hname
    rw [← device.naming.locate_join path name hname] at hnode
    exact hshort [name] (by simp [hname]) hnode
  | @inside path name rest s v hread hname hdir hopen h ih =>
    have hopened : s.fs.node (device.naming.locate (entryPath path name)) = some .dir :=
      sceIoDopen_nonneg hopen
    rw [hshort.entryPath (.refl _ _) hname (hnames name List.mem_cons_self hname)] at ih hopened
    exact ih (hshort.join hname) hshrunk fun m hm hdot =>
      hshrunk.ne_none (((hlisted _ _ s.fs hshrunk hopened).every _).mp (mem_entryKeys hm hdot))
  | dot hread hname h ih => exact ih hshort hshrunk fun m hm => hnames m (List.mem_cons_of_mem _ hm)
  | @directory path name rest s fuel ret t v hread hname hdir hremoved hret h ih =>
    exact ih hshort (hshrunk.trans (sRemovePath_shrinks (s := s.read path name) hremoved))
      fun m hm =>
      hnames m (List.mem_cons_of_mem _ hm)
  | @file path name rest s res t v hread hname hfile hremoved hres hgoes h ih =>
    exact ih hshort (hshrunk.trans (file_shrinks hremoved)) fun m hm =>
      hnames m (List.mem_cons_of_mem _ hm)

theorem removeExact_of_short (hlisted : device.Listed s.fs)
    (hshort : Short device.naming path s.fs) :
    RemoveExact device param path s := by
  refine removeExact_iff.mpr fun v hv =>
    hv.2.fits_of_short hlisted hshort (.refl _ _) fun name hname hdot => ?_
  exact ((hlisted _ _ s.fs (.refl _ _) (sceIoDopen_nonneg hv.1)).every _).mp
    (mem_entryKeys hname hdot)

/-- A directory whose path is so long that the one composed for its first entry, a directory, is the
same is walked without end. -/
theorem sRemovePath_never {fs : FileSystem κ} {name : Name} {rest : List Name}
    (hpath : entryPath path name = path) (hname : name.isDot = false)
    (hno : ∀ n, device.failure n = none)
    (hlisting : ∀ n, device.listing n path fs = name :: rest)
    (hdir : fs.node (device.naming.locate path) = some .dir)
    (hentry : fs.node (device.naming.locate path ++ [device.naming.key name]) = some .dir)
    (fuel : Nat) :
    ∀ s : Removing κ, s.fs = fs → sRemovePath device param fuel path s = none := by
  induction fuel with
  | zero => exact fun _ _ => rfl
  | succ fuel ih =>
    rintro s rfl
    rw [sRemovePath, hno, sceIoDopen_dir hdir, if_pos le_rfl, hlisting, removeEntries, hno]
    have hrec := ih (s.advance.read path name) rfl
    have hisdir :
        (s.advance.fs.node (device.naming.locate path ++ [device.naming.key name])).any
          Node.isDir = true := by
      rw [show s.advance.fs = s.fs from rfl, hentry]
      rfl
    simp only [hname, hisdir, hpath, hrec, Bool.false_eq_true, if_false, if_true]

end Removals

/-- The walkers compose the paths of the entries that they read, and go no deeper than the tree, in
exactly the runs in which each entry that they read has a full path that fits. -/
theorem walkers_exact_iff :
    (∀ (device : Device κ) (param : Option SFileProcessParam) (path : List Byte) (s : Removing κ),
      RemoveExact device param path s ↔ ∀ v, RemoveVisits device param path s v →
        (join v.path v.name).length < maxPathLength) ∧
    ∀ (naming : Naming κ) (flags : BitVec 32) (outcomes : Outcomes) (src dst : List Byte)
      (fs : FileSystem κ), MoveExact naming flags outcomes src dst fs ↔
      ∀ v, MoveVisits naming flags outcomes src dst fs v →
        (join v.src v.name).length < maxPathLength ∧ (join v.dst v.name).length < maxPathLength :=
  ⟨fun _ _ _ _ => removeExact_iff, fun _ _ _ _ _ _ => moveExact_iff⟩

/-- A path of 255 bytes. -/
def longPath : List Byte := ascii "ux0:" ++ List.replicate 251 97

/-- A directory with such a path, with a directory `x` in it. -/
def longTree : FileSystem (List Byte) where
  entries := [([], .dir), ([ascii "ux0"], .dir), ([ascii "ux0", List.replicate 251 97], .dir),
    ([ascii "ux0", List.replicate 251 97, ascii "x"], .dir)]
  unique := by decide +kernel
  closed := by decide +kernel

theorem knowing_lists {name : Name} {path : List Byte} {fs : FileSystem (List Byte)}
    (h : fs.node (Naming.caseless.locate path ++ [Naming.caseless.key name]) = some .dir)
    (n : Nat) :
    (Device.knowing [name]).listing n path fs = [name] := by
  simp [Device.knowing, h]

/-- The removal composes the path of the directory itself for its entry, and
calls itself without end. -/
theorem walk_never_ends : longPath.length < maxPathLength ∧ entryPath longPath nameX = longPath ∧
    (∀ fuel, sRemovePath (.knowing [nameX]) none fuel longPath (.start longTree none) = none) ∧
    ¬RemoveExact (.knowing [nameX]) none longPath (.start longTree none) := by
  have hpath : entryPath longPath nameX = longPath := by decide +kernel
  have hdir : longTree.node (Naming.caseless.locate longPath) = some .dir := by decide +kernel
  have hentry : longTree.node (Naming.caseless.locate longPath ++ [Naming.caseless.key nameX]) =
      some .dir := by
    decide +kernel
  have hlisting := knowing_lists hentry
  refine ⟨by decide +kernel, hpath, fun fuel => ?_, fun h => ?_⟩
  · exact sRemovePath_never hpath (by decide +kernel) (fun _ => rfl) hlisting hdir hentry fuel _ rfl
  · have hvisit : RemoveVisits (.knowing [nameX]) none longPath (.start longTree none)
        ⟨0, longPath, nameX⟩ := by
      refine ⟨?_, ?_⟩
      · exact (sceIoDopen_dir hdir).ge
      · rw [show (Device.knowing [nameX]).listing (Removing.start longTree none).calls longPath
          (Removing.start longTree none).fs = [nameX] from hlisting 0]
        exact .here rfl (by decide +kernel)
    have hlen := congrArg List.length (h.composed _ hvisit)
    exact absurd hlen (by decide +kernel)

end Psp2Shell.File
