import Psp2Shell.Listing.Entries

/-! The order of a listed directory: the test of the insertion is the order of a key, so the list is
sorted whatever the order in which the entries come. -/

namespace Psp2Shell.Listing

open CLib File

/-- `strncmp` up to the length of the shorter name, and then the lengths, decide the order of the
names. -/
theorem strncmp_lt_iff (s t u v : List Byte) :
    (strncmp (s ++ u) (t ++ v) (min s.length t.length) < 0 ∨
      strncmp (s ++ u) (t ++ v) (min s.length t.length) = 0 ∧ s.length < t.length) ↔ s < t := by
  induction s generalizing t with
  | nil =>
    cases t with
    | nil => simp [strncmp]
    | cons b t => simp [strncmp]
  | cons a s ih =>
    cases t with
    | nil => simp [strncmp]
    | cons b t =>
      have hmin : min (a :: s).length (b :: t).length = min s.length t.length + 1 := by
        simp only [List.length_cons]
        omega
      rw [hmin, List.cons_lt_cons_iff, ← ih t]
      simp only [List.cons_append, strncmp]
      by_cases hab : a = b
      · subst hab
        simp [UInt8.lt_irrefl]
      · rw [if_neg hab, UInt8.lt_iff_toNat_lt]
        have hne : a.toNat ≠ b.toNat := fun h => hab (UInt8.toNat_inj.mp h)
        simp only [hab, false_and, or_false]
        omega

/-! ### The key of an entry -/

/-- An entry that the listing keeps, with a name that has no slash and room for one. -/
structure Dirent.Regular (d : Dirent) : Prop where
  noSlash : slash ∉ d.name
  room : d.name.length < maxPathLength - 2
  notDot : d.isDot = false

/-- Folders before files, and by name among them. -/
def Dirent.key (d : Dirent) : List Byte := (if d.isDir then 1 else 2) :: d.name

variable {d d' : Dirent}

theorem Dirent.Regular.folderName (h : d.Regular) (hdir : d.isDir = true) :
    d.entry.name = d.name ++ [slash] := by
  have hend : p2sHasEndSlash d.name = false := by
    simp only [p2sHasEndSlash, decide_eq_false_iff_not]
    exact fun hlast => h.noSlash (List.mem_of_getLast? hlast)
  simp [Dirent.entry, hdir, p2sAddEndSlash, h.room, hend]

theorem Dirent.fileName (hfile : d.isDir = false) : d.entry.name = d.name := by
  simp [Dirent.entry, hfile]

theorem Dirent.Regular.name_ne_dirUp (h : d.Regular) : d.entry.name ≠ dirUp := by
  cases hdir : d.isDir with
  | true =>
    rw [h.folderName hdir]
    intro hname
    have hlast := congrArg List.getLast? hname
    rw [List.getLast?_concat] at hlast
    exact absurd hlast (by decide)
  | false =>
    rw [Dirent.fileName hdir]
    have hdot := h.notDot
    simp only [Dirent.isDot, Bool.or_eq_false_iff, decide_eq_false_iff_not] at hdot
    exact hdot.2

/-- What the test comes to when neither name is `..` and both are folders or both files. -/
theorem stopsAt_same_kind {e p : Entry} (he : e.name ≠ dirUp) (hp : p.name ≠ dirUp)
    (hkind : e.isFolder = p.isFolder) (len : Nat)
    (hlen : len = if e.name[min e.nameLength p.nameLength - 1]? = some slash ∨
        p.name[min e.nameLength p.nameLength - 1]? =
          some slash then min e.nameLength p.nameLength - 1
      else min e.nameLength p.nameLength) :
    stopsAt .module e p = true ↔ strncmp e.name p.name len < 0 ∨
      strncmp e.name p.name len = 0 ∧ e.nameLength < p.nameLength := by
  simp [stopsAt, hkind, he, hp, Build.module, ← hlen]

theorem stopsAt_files (h : d.Regular) (h' : d'.Regular) (hfile : d.isDir = false)
    (hfile' : d'.isDir = false) : stopsAt .module d.entry d'.entry = true ↔ d.name < d'.name := by
  have hname := Dirent.fileName hfile
  have hname' := Dirent.fileName hfile'
  have hat : ∀ {d : Dirent}, d.Regular → ∀ i, d.name[i]? ≠ some slash :=
    fun hd i hi => hd.noSlash (List.mem_of_getElem? hi)
  rw [stopsAt_same_kind h.name_ne_dirUp h'.name_ne_dirUp (by simp [Dirent.entry, hfile, hfile'])
    (min d.name.length d'.name.length)]
  · rw [Entry.nameLength, Entry.nameLength, hname, hname']
    simpa using strncmp_lt_iff d.name d'.name [] []
  · simp [Entry.nameLength, hname, hname', hat h, hat h']

theorem stopsAt_folders (h : d.Regular) (h' : d'.Regular) (hdir : d.isDir = true)
    (hdir' : d'.isDir = true) : stopsAt .module d.entry d'.entry = true ↔ d.name < d'.name := by
  have hname := h.folderName hdir
  have hname' := h'.folderName hdir'
  rw [stopsAt_same_kind h.name_ne_dirUp h'.name_ne_dirUp (by simp [Dirent.entry, hdir, hdir'])
    (min d.name.length d'.name.length)]
  · rw [Entry.nameLength, Entry.nameLength, hname, hname', List.length_append, List.length_append,
      Nat.add_lt_add_iff_right]
    exact strncmp_lt_iff d.name d'.name [slash] [slash]
  · have hmin : min d.entry.nameLength d'.entry.nameLength - 1 =
      min d.name.length d'.name.length := by
      simp only [Entry.nameLength, hname, hname', List.length_append, List.length_singleton]
      omega
    have hslash : d.entry.name[min d.name.length d'.name.length]? = some slash ∨
        d'.entry.name[min d.name.length d'.name.length]? = some slash := by
      rcases Nat.le_total d.name.length d'.name.length with hle | hle
      · left
        rw [hname, Nat.min_eq_left hle, List.getElem?_concat_length]
      · right
        rw [hname', Nat.min_eq_right hle, List.getElem?_concat_length]
    rw [hmin, if_pos hslash]

/-- A folder comes before a file. -/
theorem stopsAt_folder_file (hdir : d.isDir = true) (hfile : d'.isDir = false) :
    stopsAt .module d.entry d'.entry = true := by
  simp [stopsAt, Dirent.entry, hdir, hfile]

theorem stopsAt_file_folder (h : d.Regular) (hfile : d.isDir = false) (hdir : d'.isDir = true) :
    stopsAt .module d.entry d'.entry = false := by
  have hkind : d.entry.isFolder = 0 := by simp [Dirent.entry, hfile]
  have hkind' : d'.entry.isFolder = 1 := by simp [Dirent.entry, hdir]
  simp [stopsAt, hkind, hkind', h.name_ne_dirUp]

/-- The test of the insertion is the order of the keys. -/
theorem stopsAt_entry (h : d.Regular) (h' : d'.Regular) :
    stopsAt .module d.entry d'.entry = true ↔ d.key < d'.key := by
  rw [Dirent.key, Dirent.key, List.cons_lt_cons_iff]
  cases hdir : d.isDir <;> cases hdir' : d'.isDir
  · simpa using stopsAt_files h h' hdir hdir'
  · have hlt : ¬(2 : Byte) < 1 := by decide
    simp [stopsAt_file_folder h hdir hdir', hlt]
  · have hlt : (1 : Byte) < 2 := by decide
    simp [stopsAt_folder_file hdir hdir', hlt]
  · simpa using stopsAt_folders h h' hdir hdir'

theorem stopsAt_dirUp (h : d.Regular) : stopsAt .module d.entry dirUpEntry = false := by
  have hne := h.name_ne_dirUp
  have hfolder : ¬d.entry.isFolder > dirUpEntry.isFolder := by
    cases hdir : d.isDir <;> simp [Dirent.entry, dirUpEntry, hdir]
  rw [stopsAt, if_neg hfolder, if_neg hne]
  simp [dirUpEntry]

/-! ### Inserting the entries of a directory -/

def before (d d' : Dirent) : Prop := d.key ≤ d'.key

instance : DecidableRel before := fun d d' => inferInstanceAs (Decidable (d.key ≤ d'.key))

instance : Std.Total before := ⟨fun d d' => List.le_total d.key d'.key⟩

instance : IsTrans Dirent before := ⟨fun _ _ _ => List.le_trans⟩

theorem Dirent.name_eq_of_key (h : d.key = d'.key) : d.name = d'.name := (List.cons.inj h).2

/-- With distinct names, the test puts an entry where the order of the keys does. -/
theorem insert_entries {ds : List Dirent} (hd : d.Regular) (hds : ∀ d' ∈ ds, d'.Regular)
    (hnew : d.name ∉ ds.map Dirent.name) :
    (dirUpEntry :: ds.map Dirent.entry).orderedInsert (fun e p => stopsAt .module e p) d.entry =
      dirUpEntry :: (ds.orderedInsert before d).map Dirent.entry := by
  have hne : ∀ d' ∈ ds, d.key ≠ d'.key := by
    intro d' hd' hkey
    rw [Dirent.name_eq_of_key hkey] at hnew
    exact hnew (List.mem_map_of_mem hd')
  rw [List.orderedInsert_cons, if_neg (by simp [stopsAt_dirUp hd])]
  congr 1
  refine (List.map_orderedInsert before _ Dirent.entry ds d (fun d' hd' => ?_)
    fun d' hd' => ?_).symm
  · rw [stopsAt_entry (hds d' hd') hd]
    exact ⟨fun hle => Std.lt_of_le_of_ne hle (hne d' hd').symm, List.le_of_lt⟩
  · rw [stopsAt_entry hd (hds d' hd')]
    exact ⟨fun hle => Std.lt_of_le_of_ne hle (hne d' hd'), List.le_of_lt⟩

def insertAll (ds rest : List Dirent) : List Dirent :=
  rest.foldl (fun ds d => ds.orderedInsert before d) ds

/-- Entries added to `..` and others come where the order of their keys puts them. -/
theorem insertEach_entries (ds : List Dirent) {rest : List Dirent} (hds : ∀ d ∈ ds, d.Regular)
    (hrest : ∀ d ∈ rest, d.Regular) (hnames : ((ds ++ rest).map Dirent.name).Nodup) :
    insertEach .module (dirUpEntry :: ds.map Dirent.entry) (rest.map Dirent.entry) =
      dirUpEntry :: (insertAll ds rest).map Dirent.entry := by
  induction rest generalizing ds with
  | nil => rfl
  | cons d rest ih =>
    have hd := hrest d List.mem_cons_self
    have hperm : (ds.orderedInsert before d ++ rest).Perm (ds ++ d :: rest) :=
      ((List.perm_orderedInsert before d ds).append_right rest).trans List.perm_middle.symm
    have hnew : d.name ∉ ds.map Dirent.name := by
      rw [List.map_append, List.map_cons, List.nodup_middle] at hnames
      exact fun hmem => (List.nodup_cons.mp hnames).1 (List.mem_append_left _ hmem)
    have hds' : ∀ d' ∈ ds.orderedInsert before d, d'.Regular := by
      intro d' hd'
      rcases (List.mem_orderedInsert before).mp hd' with rfl | hd'
      · exact hd
      · exact hds d' hd'
    have hstep := ih _ hds' (fun d' hd' => hrest d' (List.mem_cons_of_mem d hd'))
      ((hperm.map _).nodup_iff.mpr hnames)
    rw [insertEach, List.map_cons, List.foldl_cons, insert_entries hd hds hnew]
    exact hstep

/-! ### The listing -/

/-- The entries that a listing keeps, sorted. -/
def sortedDirents (dirents : List Dirent) : List Dirent :=
  (keptDirents dirents).reverse.insertionSort before

theorem insertAll_eq (dirents : List Dirent) :
    insertAll [] (keptDirents dirents) = sortedDirents dirents := by
  rw [sortedDirents, List.insertionSort, List.foldr_reverse]
  rfl

theorem sortedDirents_perm (dirents : List Dirent) :
    (sortedDirents dirents).Perm (keptDirents dirents) :=
  (List.perm_insertionSort before _).trans (List.reverse_perm _)

theorem sortedDirents_sorted (dirents : List Dirent) : (sortedDirents dirents).Pairwise before :=
  List.pairwise_insertionSort before _

/-- The order in which the entries come does not matter. -/
theorem sortedDirents_eq {dirents order : List Dirent} (hdistinct : (dirents.map Dirent.name).Nodup)
    (h : order.Perm dirents) : sortedDirents order = sortedDirents dirents := by
  have hperm : (sortedDirents order).Perm (sortedDirents dirents) :=
    (sortedDirents_perm order).trans ((h.filter _).trans (sortedDirents_perm dirents).symm)
  have hmem : ∀ d ∈ sortedDirents dirents, d ∈ dirents := fun d hd =>
    List.mem_of_mem_filter ((sortedDirents_perm dirents).mem_iff.mp hd)
  refine List.Perm.eq_of_pairwise (fun d d' hd hd' hle hle' => ?_) (sortedDirents_sorted order)
    (sortedDirents_sorted dirents) hperm
  apply List.inj_on_of_nodup_map hdistinct (hmem d (hperm.mem_iff.mp hd)) (hmem d' hd')
  exact Dirent.name_eq_of_key (List.le_antisymm hle hle')

/-- Of sorted entries, the folders come before the files. -/
theorem folders_then_files {ds : List Dirent} (h : ds.Pairwise before) :
    ds = ds.filter Dirent.isDir ++ ds.filter fun d => !d.isDir := by
  induction ds with
  | nil => rfl
  | cons d ds ih =>
    obtain ⟨hd, hds⟩ := List.pairwise_cons.mp h
    cases hdir : d.isDir with
    | true =>
      simp only [List.filter_cons, hdir, if_true, Bool.not_true, Bool.false_eq_true, if_false,
        List.cons_append]
      rw [← ih hds]
    | false =>
      have hfiles : ∀ d' ∈ ds, d'.isDir = false := by
        intro d' hd'
        by_contra hdir'
        have hle : d.key ≤ d'.key := hd d' hd'
        rw [Dirent.key, Dirent.key, hdir, Bool.eq_true_of_not_eq_false hdir',
          List.cons_le_cons_iff] at hle
        rcases hle with hlt | ⟨heq, -⟩
        · exact absurd hlt (by decide)
        · exact absurd heq (by decide)
      have hnone : ds.filter Dirent.isDir = [] := List.filter_eq_nil_iff.mpr (by simpa using hfiles)
      have hall : (ds.filter fun d => !d.isDir) = ds :=
        List.filter_eq_self.mpr (by simpa using hfiles)
      simp [hdir, hnone, hall]

/-- The folders and the files of a directory, each in increasing order of the names, and each entry
but `.` and `..` once. -/
structure InOrder (dirents : List Dirent) (folders files : List (List Byte)) : Prop where
  foldersSorted : folders.Pairwise (· < ·)
  filesSorted : files.Pairwise (· < ·)
  folders : folders.Perm ((dirents.filter fun d => !d.isDot && d.isDir).map Dirent.name)
  files : files.Perm ((dirents.filter fun d => !d.isDot && !d.isDir).map Dirent.name)

/-- The list holds `..`, the folders with a slash each, and the files. -/
structure Lists (w : World) (folders files : List (List Byte)) : Prop where
  names : ∃ nodes, WellLinked w nodes ∧
    nodes.map (fun x => x.2.name) = dirUp :: (folders.map (fun name => name ++ [slash]) ++ files)
  files : w.list.files = files.length
  folders : w.list.folders = folders.length
  length : w.list.length = w.list.files + w.list.folders + 1

def folderNames (ds : List Dirent) : List (List Byte) := (ds.filter Dirent.isDir).map Dirent.name

def fileNames (ds : List Dirent) : List (List Byte) := (ds.filter fun d => !d.isDir).map Dirent.name

/-- Sorted names of one kind strictly increase. -/
theorem sorted_kind {ds : List Dirent} {kind : Bool} (h : ds.Pairwise before)
    (hnames : (ds.map Dirent.name).Nodup) (hkind : ∀ d ∈ ds, d.isDir = kind) :
    (ds.map Dirent.name).Pairwise (· < ·) := by
  rw [List.Nodup, List.pairwise_map] at hnames
  refine List.pairwise_map.mpr ((h.and hnames).imp_of_mem fun {d d'} hd hd' hrel => ?_)
  obtain ⟨hle, hne⟩ := hrel
  rw [before, Dirent.key, Dirent.key, hkind d hd, hkind d' hd', List.cons_le_cons_iff] at hle
  rcases hle with hlt | ⟨-, hle⟩
  · exact absurd hlt (UInt8.lt_irrefl _)
  · exact Std.lt_of_le_of_ne hle hne

/-- The names of one kind: sorted, and those of the entries of this kind that the listing keeps. -/
theorem sortedDirents_of_kind {dirents : List Dirent} (hdistinct : (dirents.map Dirent.name).Nodup)
    {kind : Bool} {p : Dirent → Bool} (hp : ∀ d, p d = true → d.isDir = kind) :
    (((sortedDirents dirents).filter p).map Dirent.name).Pairwise (· < ·) ∧
      (((sortedDirents dirents).filter p).map Dirent.name).Perm
        ((dirents.filter fun d => !d.isDot && p d).map Dirent.name) := by
  have hperm := sortedDirents_perm dirents
  have hnames : ((sortedDirents dirents).map Dirent.name).Nodup :=
    (hperm.map _).nodup_iff.mpr (hdistinct.sublist (List.filter_sublist.map _))
  constructor
  · exact sorted_kind ((sortedDirents_sorted dirents).filter _)
      (hnames.sublist (List.filter_sublist.map _)) fun d hd => hp d (List.mem_filter.mp hd).2
  · apply ((hperm.filter _).map _).trans
    rw [keptDirents, List.filter_filter, List.filter_congr fun d _ => Bool.and_comm _ _]

theorem sortedDirents_inOrder {dirents : List Dirent}
    (hdistinct : (dirents.map Dirent.name).Nodup) :
    InOrder dirents (folderNames (sortedDirents dirents)) (fileNames (sortedDirents dirents)) := by
  have hfolder : ∀ d : Dirent, d.isDir = true → d.isDir = true := fun _ h => h
  have hfile : ∀ d : Dirent, (!d.isDir) = true → d.isDir = false := by simp
  obtain ⟨hfolders, hfoldersPerm⟩ := sortedDirents_of_kind hdistinct hfolder
  obtain ⟨hfiles, hfilesPerm⟩ := sortedDirents_of_kind hdistinct hfile
  exact ⟨hfolders, hfiles, hfoldersPerm, hfilesPerm⟩

/-- The listing counts the names that it has of one kind. -/
theorem length_of_kind (dirents : List Dirent) (p : Dirent → Bool) :
    (((sortedDirents dirents).filter p).map Dirent.name).length =
    (keptDirents dirents).countP p := by
  rw [List.length_map, ← List.countP_eq_length_filter, (sortedDirents_perm dirents).countP_eq]

theorem entryNames_eq {ds : List Dirent} (hsorted : ds.Pairwise before) (h : ∀ d ∈ ds, d.Regular) :
    ds.map (fun d => d.entry.name) =
      (folderNames ds).map (fun name => name ++ [slash]) ++ fileNames ds := by
  conv_lhs => rw [folders_then_files hsorted]
  rw [List.map_append, folderNames, fileNames, List.map_map]
  congr 1
  · refine List.map_congr_left fun d hd => ?_
    obtain ⟨hmem, hdir⟩ := List.mem_filter.mp hd
    exact (h d hmem).folderName hdir
  · refine List.map_congr_left fun d hd => ?_
    exact Dirent.fileName (Bool.not_eq_true' _ ▸ (List.mem_filter.mp hd).2)

/-- What a listing of a directory puts into an empty list. -/
theorem insertEach_directory {dirents : List Dirent} (hdistinct : (dirents.map Dirent.name).Nodup)
    (hregular : ∀ d ∈ keptDirents dirents, d.Regular) :
    insertEach .module [] (dirUpEntry :: (keptDirents dirents).map Dirent.entry) =
      dirUpEntry :: (sortedDirents dirents).map Dirent.entry := by
  rw [← insertAll_eq]
  exact insertEach_entries [] (by simp) hregular
    (hdistinct.sublist (List.filter_sublist.map _))

theorem Holds.lists {w : World} {dirents : List Dirent}
    (h : Holds .cleared w (dirUpEntry :: (sortedDirents dirents).map Dirent.entry)
      ((keptDirents dirents).countP fun d => !d.isDir) ((keptDirents dirents).countP Dirent.isDir))
    (hregular : ∀ d ∈ keptDirents dirents, d.Regular) :
    Lists w (folderNames (sortedDirents dirents)) (fileNames (sortedDirents dirents)) := by
  obtain ⟨⟨nodes, hrep, hentries, hadded⟩, hlength, hfiles, hfolders⟩ := h
  have hperm := sortedDirents_perm dirents
  have hsorted : ∀ d ∈ sortedDirents dirents, d.Regular :=
    fun d hd => hregular d (hperm.mem_iff.mp hd)
  have hnodes : nodes.length = (sortedDirents dirents).length + 1 := by
    have hlen := congrArg List.length hentries
    simpa using hlen
  have hkept : KeptBy w nodes := by
    refine ⟨hrep, hadded, ?_, fun hnil => ?_⟩
    · simpa [SFileList.cleared, hnodes] using hlength
    · rw [hnil] at hentries
      cases hentries
  have hnames : nodes.map (fun x => x.2.name) =
      dirUp :: (sortedDirents dirents).map fun d => d.entry.name := by
    have hmap := congrArg (List.map Entry.name) hentries
    simpa [Function.comp_def, dirUpEntry] using hmap
  have hfiles' : w.list.files = (fileNames (sortedDirents dirents)).length := by
    rw [hfiles, fileNames, length_of_kind]
    exact Int.zero_add _
  have hfolders' : w.list.folders = (folderNames (sortedDirents dirents)).length := by
    rw [hfolders, folderNames, length_of_kind]
    exact Int.zero_add _
  refine ⟨⟨nodes, hkept.wellLinked, ?_⟩, hfiles', hfolders', ?_⟩
  · rw [hnames, entryNames_eq (sortedDirents_sorted dirents) hsorted]
  · have hcount : (sortedDirents dirents).length =
        (folderNames (sortedDirents dirents)).length +
        (fileNames (sortedDirents dirents)).length := by
      rw [folderNames, fileNames, List.length_map, List.length_map, ← List.length_append,
        ← folders_then_files (sortedDirents_sorted dirents)]
    rw [hkept.length, hnodes, hfiles', hfolders', hcount]
    omega

theorem getDirectoryEntries_lists {order : List Dirent} (hdistinct : (order.map Dirent.name).Nodup)
    (hregular : ∀ d ∈ keptDirents order, d.Regular) (m : Memory) (allocator : Allocator)
    {disk : Disk} {path : List Byte} (hopen : disk.directory path = .ok order) :
    Safe allocator.Fails (fun r => r.2 = 0 ∧
        Lists r.1 (folderNames (sortedDirents order)) (fileNames (sortedDirents order)))
      (sFileListGetDirectoryEntries .module allocator disk ⟨m, .cleared, []⟩ path) := by
  refine (getDirectoryEntries_holds rfl m .module allocator hopen).imp
    fun r hr => ⟨hr.1, Holds.lists ?_ hregular⟩
  rw [← insertEach_directory hdistinct hregular]
  exact hr.2

/-- A directory is listed in order, in whatever order its entries are read. -/
theorem directory_listed {dirents : List Dirent} (hdistinct : (dirents.map Dirent.name).Nodup)
    (hslash : ∀ d ∈ dirents, slash ∉ d.name) (hroom : ∀ d ∈ dirents, d.name.length < 254) :
    ∃ folders files, InOrder dirents folders files ∧
      ∀ order, order.Perm dirents → ∀ m allocator disk path, disk.directory path = .ok order →
        Safe allocator.Fails (fun r => r.2 = 0 ∧ Lists r.1 folders files)
          (sFileListGetDirectoryEntries .module allocator disk ⟨m, .cleared, []⟩ path) := by
  refine ⟨_, _, sortedDirents_inOrder hdistinct, fun order horder m allocator disk path hopen => ?_⟩
  rw [← sortedDirents_eq hdistinct horder]
  refine getDirectoryEntries_lists ((horder.map _).nodup_iff.mpr hdistinct) (fun d hd => ?_) m
    allocator hopen
  obtain ⟨hd, hdot⟩ := List.mem_filter.mp hd
  have hmem := horder.mem_iff.mp hd
  exact ⟨hslash d hmem, hroom d hmem, by simpa using hdot⟩

/-- A file and two folders, one of which is not listed. -/
theorem directory_listed_three :
    ∃ folders files, InOrder [⟨ascii "b", false, by decide, by decide, by decide⟩,
        ⟨ascii "..", true, by decide, by decide, by decide⟩,
        ⟨ascii "a", true, by decide, by decide, by decide⟩] folders files ∧
      ∀ order, order.Perm [⟨ascii "b", false, by decide, by decide, by decide⟩,
          ⟨ascii "..", true, by decide, by decide, by decide⟩,
          ⟨ascii "a", true, by decide, by decide, by decide⟩] →
        ∀ m allocator disk path, disk.directory path = .ok order →
          Safe allocator.Fails (fun r => r.2 = 0 ∧ Lists r.1 folders files)
            (sFileListGetDirectoryEntries .module allocator disk ⟨m, .cleared, []⟩ path) :=
  directory_listed (by decide) (by decide) (by decide)

end Psp2Shell.Listing
