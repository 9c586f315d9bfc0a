import Psp2Shell.File.Walkers

/-! What the tree walkers leave alone, whatever their calls come to: the nodes that are not at or
below the paths that they are given, when each path that they compose fits. -/

namespace Psp2Shell.File

open CLib

variable {κ : Type} [DecidableEq κ] {m : List κ}

omit [DecidableEq κ] in
theorem ne_of_not_below {l : List κ} (h : ¬l <+: m) : m ≠ l := by
  rintro rfl
  exact h (List.prefix_refl m)

omit [DecidableEq κ] in
/-- What is not at or below a directory is not at or below an entry of it. -/
theorem not_below_entry {naming : Naming κ} {path : List Byte} {name : Name}
    (hname : name.isDot = false) (hfits : (join path name).length < maxPathLength)
    (hm : ¬naming.locate path <+: m) :
    ¬naming.locate (entryPath path name) <+: m := by
  rw [entryPath_eq_iff.mpr hfits, naming.locate_join path name hname]
  exact fun hpre => hm ((List.prefix_append _ _).trans hpre)

/-! ### Moves -/

theorem MovedOne.outside {flags : BitVec 32} {s d : List κ} {fs : FileSystem κ}
    {result : Option Int × FileSystem κ} (h : MovedOne flags s d fs result) (hs : ¬s <+: m)
    (hd : ¬d <+: m) :
    result.2.node m = fs.node m := by
  have hremoved : ∀ {t : FileSystem κ}, t = fs ∨ t = fs.remove d → t.node m = fs.node m := by
    rintro t (rfl | rfl)
    · rfl
    · exact FileTree.node_remove_of_ne fs (ne_of_not_below hd)
  cases h with
  | untouched res => rfl
  | renamed res hrename => exact FileTree.node_rename_other hrename hs hd
  | replaced res files ht => exact hremoved ht
  | replacedRenamed res files ht hrename =>
    exact (FileTree.node_rename_other hrename hs hd).trans (hremoved ht)
  | integrate dirs => rfl

section Moves

variable {naming : Naming κ} {flags : BitVec 32}

theorem sceIoRmdir_outside (failure : Option Failure) {path : List Byte} (fs : FileSystem κ)
    (hm : ¬naming.locate path <+: m) :
    (sceIoRmdir naming failure path fs).2.node m = fs.node m := by
  obtain ⟨res, t, heq, hshrinks, -⟩ := sceIoRmdir_spec naming failure path fs
  rw [heq]
  exact hshrinks.outside m hm

mutual

theorem movePath_outside : ∀ (outcomes : Outcomes) {src dst : List Byte} {fs : FileSystem κ},
    (∀ v, MoveVisits naming flags outcomes src dst fs v → v.Fits) → ¬naming.locate src <+: m →
    ¬naming.locate dst <+: m → (sMovePath naming flags outcomes src dst fs).2.node m = fs.node m
  | .mk calls reads, src, dst, fs, hfits, hsrc, hdst => by
    have hone := (moveOne_cases naming flags calls src dst fs).outside hsrc hdst
    rw [sMovePath]
    split
    · rename_i res t hres
      rw [hres] at hone
      exact hone
    · rename_i t hres
      rw [hres] at hone
      have hentries := moveEntries_outside reads
        (fun v (hv : MoveReads naming flags reads src dst t t v) => hfits v ⟨t, hres, hv⟩) hsrc hdst
      split
      · rename_i ret u hret
        rw [hret] at hentries
        exact hentries.trans hone
      · rename_i u hret
        rw [hret] at hentries
        exact (sceIoRmdir_outside calls.rmdir u hsrc).trans (hentries.trans hone)

theorem moveEntries_outside : ∀ (reads : Reads) {src dst : List Byte} {opened fs : FileSystem κ},
    (∀ v, MoveReads naming flags reads src dst opened fs v → v.Fits) → ¬naming.locate src <+: m →
    ¬naming.locate dst <+: m → (moveEntries naming flags reads src dst fs).2.node m = fs.node m
  | .stop, src, dst, opened, fs, _, _, _ => rfl
  | .entry name moved rest, src, dst, opened, fs, hfits, hsrc, hdst => by
    rw [moveEntries]
    split
    · rename_i hdot
      exact moveEntries_outside rest (fun v hv => hfits v (.dot hdot hv)) hsrc hdst
    · rename_i hdot
      have hname : name.isDot = false := by simpa using hdot
      obtain ⟨hfitsrc, hfitdst⟩ := hfits _ (.here hname)
      have hentry :=
        movePath_outside moved (visits_inside hfits hname) (not_below_entry hname hfitsrc hsrc)
        (not_below_entry hname hfitdst hdst)
      cases hres : sMovePath naming flags moved (entryPath src name) (entryPath dst name) fs with
      | mk ret t =>
        rw [hres] at hentry
        dsimp only
        split
        · exact hentry
        · have hrest := moveEntries_outside rest
            (fun v hv => hfits v (.next hname hres (by omega) hv)) hsrc hdst
          exact hrest.trans hentry

end

end Moves

/-! ### Removals -/

section Removals

variable {device : Device κ} {param : Option SFileProcessParam} {path : List Byte}

theorem remove_outside (s : Removing κ) (hm : ¬device.naming.locate path <+: m) :
    (s.remove device path).2.fs.node m = s.fs.node m := by
  obtain ⟨res, t, heq, -, hshrinks, -⟩ := remove_spec device path s
  rw [heq]
  exact hshrinks.outside m hm

theorem rmdir_outside (s : Removing κ) (hm : ¬device.naming.locate path <+: m) :
    (s.rmdir device path).2.fs.node m = s.fs.node m := by
  obtain ⟨res, t, heq, -, hshrinks, -⟩ := rmdir_spec device path s
  rw [heq]
  exact hshrinks.outside m hm

omit [DecidableEq κ] in
theorem afterRemoval_outside {r : Int × Removing κ} {ret : Int} {t : Removing κ}
    (h : afterRemoval param r = (ret, t)) : t.fs = r.2.fs := by
  rw [← afterRemoval_fs param r, h]

theorem removeEntries_outside {fuel : Nat}
    (hrec : ∀ {path s ret t}, (∀ v, RemoveVisits device param path s v → v.Fits) →
      ¬device.naming.locate path <+: m → sRemovePath device param fuel path s = some (ret, t) →
      t.fs.node m = s.fs.node m)
    (hm : ¬device.naming.locate path <+: m) (names : List Name) :
    ∀ {s res t}, (∀ v, RemoveReads device param path names s v → v.Fits) →
      removeEntries device param (sRemovePath device param fuel) path names s = some (res, t) →
      t.fs.node m = s.fs.node m := by
  induction names with
  | nil =>
    rintro s res t - ⟨⟩
    rfl
  | cons name rest ih =>
    intro s res t hfits h
    rw [removeEntries] at h
    split at h
    · cases h
      rfl
    · rename_i hread
      dsimp only at h
      split at h
      · rename_i hdot
        exact ih (s := s.read path name) (fun v hv => hfits v (.dot hread hdot hv)) h
      rename_i hdot
      have hname : name.isDot = false := by simpa using hdot
      have hentry := not_below_entry hname (hfits _ (.here hread hname)) hm
      split at h
      · rename_i hdir
        split at h
        · cases h
        · rename_i ret u hremoved
          have hu : u.fs.node m = s.fs.node m := hrec (s := s.read path name)
            (fun v hv => hfits { v with depth := v.depth + 1 } (.inside hread hname hdir hv.1 hv.2))
            hentry hremoved
          split at h
          · cases h
            exact hu
          · rename_i hret
            have hrest :=
              ih (fun v hv => hfits v (.directory hread hname hdir hremoved (by omega) hv)) h
            exact hrest.trans hu
      · rename_i hfile
        have hremove := remove_outside (s.read path name) hentry
        cases hremoved : (s.read path name).remove device (entryPath path name) with
        | mk ret u =>
          rw [hremoved] at h hremove
          have hu : (u.report param).2.fs.node m = s.fs.node m := by
            rw [report_fs]
            exact hremove
          split at h
          · cases h
            exact hremove
          · rename_i hret
            split at h
            · cases h
              exact hu
            · rename_i hgoes
              have hrest :=
                ih (fun v hv => hfits v (.file hread hname (by simpa using hfile) hremoved
                (by omega) (by simpa using hgoes) hv)) h
              exact hrest.trans hu

theorem removePath_outside (fuel : Nat) : ∀ {path s ret t},
    (∀ v, RemoveVisits device param path s v → v.Fits) → ¬device.naming.locate path <+: m →
    sRemovePath device param fuel path s = some (ret, t) → t.fs.node m = s.fs.node m := by
  induction fuel with
  | zero => exact fun _ _ h => by cases h
  | succ fuel ih =>
    intro path s ret t hfits hm h
    rw [sRemovePath] at h
    split at h
    · rename_i hopen
      have hreads := fun v hv => hfits v ⟨hopen, hv⟩
      split at h
      · cases h
      · rename_i hentries
        cases h
        exact removeEntries_outside (s := s.advance) ih hm _ hreads hentries
      · rename_i u hentries
        have hu : u.fs.node m = s.fs.node m :=
          removeEntries_outside (s := s.advance) ih hm _ hreads hentries
        rw [afterRemoval_outside (Option.some.inj h), rmdir_outside u hm, hu]
    · rw [afterRemoval_outside (Option.some.inj h), remove_outside s.advance hm]
      rfl

end Removals

end Psp2Shell.File
