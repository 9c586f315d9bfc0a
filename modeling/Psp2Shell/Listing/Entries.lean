import Psp2Shell.Listing.Chain

/-! What a listing puts into a list, as a list of entries, and that the linked
list holds just that. -/

namespace Psp2Shell.Listing

open CLib

/-- Entries added to a sorted list, one after the other. -/
def insertEach (build : Build) (es new : List Entry) : List Entry :=
  new.foldl (fun es e => es.orderedInsert (fun e p => stopsAt build e p) e) es

theorem insertEach_perm (build : Build) (es new : List Entry) :
    (insertEach build es new).Perm (es ++ new) := by
  induction new generalizing es with
  | nil => simp [insertEach]
  | cons e new ih =>
    refine (ih (es.orderedInsert (fun e p => stopsAt build e p) e)).trans ?_
    exact ((List.perm_orderedInsert _ e es).append_right new).trans List.perm_middle.symm

/-- The entries of a list after `s_fileListGetEntries`, or the negative number that it returns. -/
def listing (build : Build) (disk : Disk) (path : List Byte) : Except Int (List Entry) :=
  if build.strcasecmpEq path Client.homePath then .ok (insertEach build [] (mountedEntries disk))
  else
    match disk.directory path with
    | .error dfd => .error dfd
    | .ok dirents =>
      .ok (insertEach build [] (dirUpEntry :: (keptDirents dirents).map Dirent.entry))

/-- A directory is never listed as empty. -/
theorem listing_ne_nil (build : Build) (disk : Disk) (path : List Byte) {dirents : List Dirent}
    {es : List Entry} (hhome : build.strcasecmpEq path Client.homePath = false)
    (hopen : disk.directory path = .ok dirents) (h : listing build disk path = .ok es) :
    es ≠ [] := by
  rw [listing, if_neg (by simp [hhome]), hopen] at h
  rw [← Except.ok.inj h]
  intro hnil
  have hlength :=
    (insertEach_perm build [] (dirUpEntry :: (keptDirents dirents).map Dirent.entry)).length_eq
  rw [hnil] at hlength
  simp at hlength

/-- The list holds these entries, and its counts have grown by theirs from what they were at the
start. -/
structure Holds (start : SFileList) (w : World) (es : List Entry) (files folders : Nat) : Prop where
  nodes : ∃ nodes, Represents w.memory w.list nodes ∧ nodes.map Prod.snd = es ∧ nodes.Perm w.added
  length : w.list.length = start.length + es.length
  files : w.list.files = start.files + files
  folders : w.list.folders = start.folders + folders

variable {build : Build} {start : SFileList} {w : World} {es : List Entry} {files folders : Nat}

theorem holds_start (hhead : start.head = none) (m : Memory) : Holds start ⟨m, start, []⟩ [] 0 0 :=
  ⟨⟨[], represents_nil hhead m, rfl, .refl _⟩, by simp, by simp, by simp⟩

theorem Holds.countFile (h : Holds start w es files folders) :
    Holds start w.countFile es (files + 1) folders := by
  obtain ⟨⟨nodes, hrep, hentries, hadded⟩, hlength, hfiles, hfolders⟩ := h
  refine ⟨⟨nodes, hrep.counts rfl rfl, hentries, hadded⟩, hlength, ?_, hfolders⟩
  show w.list.files + 1 = _
  omega

theorem Holds.countFolder (h : Holds start w es files folders) :
    Holds start w.countFolder es files (folders + 1) := by
  obtain ⟨⟨nodes, hrep, hentries, hadded⟩, hlength, hfiles, hfolders⟩ := h
  refine ⟨⟨nodes, hrep.counts rfl rfl, hentries, hadded⟩, hlength, hfiles, ?_⟩
  show w.list.folders + 1 = _
  omega

theorem map_place (build : Build) (x : Addr × Entry) (nodes : List (Addr × Entry)) :
    (place build .sortByNameAndFolder x nodes).map Prod.snd =
      (nodes.map Prod.snd).orderedInsert (fun e p => stopsAt build e p) x.2 :=
  List.map_orderedInsert _ _ Prod.snd nodes x (fun _ _ => Iff.rfl) fun _ _ => Iff.rfl

theorem Holds.addNew (h : Holds start w es files folders) (build : Build) (allocator : Allocator)
    (e : Entry) :
    Safe allocator.Fails
      (fun w' => Holds start w' (es.orderedInsert (fun e p => stopsAt build e p) e) files folders)
      (addNew build allocator .sortByNameAndFolder w e) := by
  obtain ⟨⟨nodes, hrep, hentries, hadded⟩, hlength, hfiles, hfolders⟩ := h
  refine (addNew_represents hrep build allocator .sortByNameAndFolder e).imp fun w' hw' => ?_
  obtain ⟨p, hrep', hcounts, hadded'⟩ := hw'
  refine ⟨⟨_, hrep', ?_, ?_⟩, ?_, ?_, ?_⟩
  · rw [map_place, hentries]
  · rw [hadded']
    exact (place_perm _ _ _ nodes).trans (hadded.append_right _)
  · rw [hcounts.length, hlength, List.orderedInsert_length, Nat.cast_add,
      Nat.cast_one, Int.add_assoc]
  · rw [hcounts.files, hfiles]
  · rw [hcounts.folders, hfolders]

theorem Holds.addDirents (h : Holds start w es files folders) (build : Build)
    (allocator : Allocator) (dirents : List Dirent) :
    Safe allocator.Fails
      (fun w' => Holds start w' (insertEach build es ((keptDirents dirents).map Dirent.entry))
        (files + (keptDirents dirents).countP fun d => !d.isDir)
        (folders + (keptDirents dirents).countP Dirent.isDir))
      (dirents.foldlM (addDirent build allocator) w) := by
  induction dirents generalizing w es files folders with
  | nil => exact h
  | cons d dirents ih =>
    rw [List.foldlM_cons]
    cases hdot : d.isDot with
    | true =>
      have hskip : keptDirents (d :: dirents) = keptDirents dirents := by simp [keptDirents, hdot]
      have hkeep : addDirent build allocator w d = .ok w := by rw [addDirent, if_pos hdot]
      rw [hskip, hkeep]
      exact ih h
    | false =>
      have hkept : keptDirents (d :: dirents) = d :: keptDirents dirents := by
        simp [keptDirents, hdot]
      rw [hkept, addDirent, if_neg (by simp [hdot])]
      cases hdir : d.isDir with
      | true =>
        refine (h.countFolder.addNew build allocator d.entry).bind fun w' hw' => ?_
        simpa [insertEach, hdir, Nat.add_assoc, Nat.add_comm 1] using ih hw'
      | false =>
        refine (h.countFile.addNew build allocator d.entry).bind fun w' hw' => ?_
        simpa [insertEach, hdir, Nat.add_assoc, Nat.add_comm 1] using ih hw'

theorem Holds.addMountPoints (h : Holds start w es files folders) (build : Build)
    (allocator : Allocator) (names : List { name // name ∈ mountPoints }) :
    Safe allocator.Fails (fun w' =>
        Holds start w' (insertEach build es (names.map mountPointEntry)) files
          (folders + names.length))
      (names.foldlM (addMountPoint build allocator) w) := by
  induction names generalizing w es folders with
  | nil => exact h
  | cons name names ih =>
    rw [List.foldlM_cons]
    have hstep : Safe allocator.Fails (fun w' => Holds start w'
        (es.orderedInsert (fun e p => stopsAt build e p) (mountPointEntry name))
        files (folders + 1)) (addMountPoint build allocator w name) :=
      (h.addNew build allocator _).bind fun w' hw' => hw'.countFolder
    refine hstep.bind fun w' hw' => ?_
    simpa [insertEach, Nat.add_assoc, Nat.add_comm 1] using ih hw'

theorem getMountPointEntries_holds (hhead : start.head = none) (m : Memory) (build : Build)
    (allocator : Allocator) (disk : Disk) :
    Safe allocator.Fails (fun r => r.2 = 0 ∧ ∃ folders,
        Holds start r.1 (insertEach build [] (mountedEntries disk)) 0 folders)
      (sFileListGetMountPointEntries build allocator disk ⟨m, start, []⟩) := by
  refine ((holds_start hhead m).addMountPoints build allocator _).bind fun w hw => ?_
  exact ⟨rfl, _, hw⟩

theorem getDirectoryEntries_holds (hhead : start.head = none) (m : Memory) (build : Build)
    (allocator : Allocator) {disk : Disk} {path : List Byte} {dirents : List Dirent}
    (hopen : disk.directory path = .ok dirents) :
    Safe allocator.Fails (fun r => r.2 = 0 ∧
        Holds start r.1 (insertEach build [] (dirUpEntry :: (keptDirents dirents).map Dirent.entry))
          ((keptDirents dirents).countP fun d => !d.isDir)
          ((keptDirents dirents).countP Dirent.isDir))
      (sFileListGetDirectoryEntries build allocator disk ⟨m, start, []⟩ path) := by
  rw [sFileListGetDirectoryEntries, hopen]
  refine ((holds_start hhead m).addNew build allocator dirUpEntry).bind fun w hw => ?_
  refine (hw.addDirents build allocator dirents).bind fun w' hw' => ⟨rfl, ?_⟩
  simpa [insertEach] using hw'

/-- A list without a head holds the entries of the listing, if the directory can be listed. -/
theorem getEntries_holds (hhead : start.head = none) (m : Memory)
    (allocator : Allocator) {disk : Disk} {path : List Byte}
    (hlisting : listing build disk path = .ok es) :
    Safe allocator.Fails (fun r => r.2 = 0 ∧ ∃ files folders, Holds start r.1 es files folders)
      (sFileListGetEntries build allocator disk ⟨m, start, []⟩ path) := by
  unfold listing at hlisting
  unfold sFileListGetEntries
  split at hlisting
  · next hhome =>
    rw [if_pos hhome, ← Except.ok.inj hlisting]
    exact (getMountPointEntries_holds hhead m build allocator disk).imp
      fun r hr => ⟨hr.1, 0, hr.2⟩
  · next hhome =>
    rw [if_neg hhome]
    cases hopen : disk.directory path with
    | error dfd =>
      rw [hopen] at hlisting
      cases hlisting
    | ok dirents =>
      rw [hopen] at hlisting
      rw [← Except.ok.inj hlisting]
      exact (getDirectoryEntries_holds hhead m build allocator hopen).imp
        fun r hr => ⟨hr.1, _, _, hr.2⟩

/-! ### The listings of the handlers -/

/-- An environment of the handlers, with what this disk's listings add. -/
def Disk.environment (disk : Disk) (env : Client.Environment) : Client.Environment :=
  { env with
    directory := fun path => match disk.directory path with
      | .error _ => none
      | .ok dirents => some ((insertEach .module []
        (dirUpEntry :: (keptDirents dirents).map Dirent.entry)).map Entry.name)
    mounts := (insertEach .module [] (mountedEntries disk)).map Entry.name }

theorem environment_listing (disk : Disk) (env : Client.Environment) (path : List Byte) :
    Client.sFileListGetEntries (disk.environment env) path =
      match listing .module disk path with
      | .error _ => none
      | .ok es => some (es.map Entry.name) := by
  unfold Client.sFileListGetEntries listing
  by_cases hhome : path = Client.homePath
  · have heq : Build.module.strcasecmpEq path Client.homePath = true := by
      simp [Build.module, hhome]
    rw [if_pos hhome, if_pos heq]
    rfl
  · have hne : ¬Build.module.strcasecmpEq path Client.homePath = true := by
      simp [Build.module, hhome]
    rw [if_neg hhome, if_neg hne]
    simp only [Disk.environment]
    cases disk.directory path <;> rfl

end Psp2Shell.Listing
