import Psp2Shell.File.Visits

/-! What a move keeps: the regular files at or under the source, when the source and the destination
name places that are apart.  The tests of `s_movePath` compare the text of the two paths, and its
removals act on what the paths name. -/

namespace Psp2Shell.File

open CLib

variable {κ : Type} [DecidableEq κ]

/-- Each regular file at or under `s` is still there, or at the corresponding place under `d`. -/
def Kept (s d : List κ) (before after : FileSystem κ) : Prop :=
  ∀ r content, before.node (s ++ r) = some (.file content) →
    after.node (s ++ r) = some (.file content) ∨ after.node (d ++ r) = some (.file content)

/-- No entry at or under `s` has its corresponding place under `d` at or under `s`. -/
def Apart (s d : List κ) (fs : FileSystem κ) : Prop :=
  ∀ r, fs.node (s ++ r) ≠ none → ¬s <+: d ++ r

/-- There is no regular file to move, the text of the paths is refused, the places are apart,
nothing is replaced or integrated, or the paths name one place and files are not to be replaced. -/
def MoveSafe (naming : Naming κ) (flags : BitVec 32) (src dst : List Byte) (fs : FileSystem κ) :
    Prop :=
  (∀ r c, fs.node (naming.locate src ++ r) ≠ some (.file c)) ∨
  (src = dst ∨ isSubfolder src dst = true) ∨
  Apart (naming.locate src) (naming.locate dst) fs ∨
  (¬Replaces flags (naming.locate src) (naming.locate dst) fs ∧
    ¬Integrates flags (naming.locate src) (naming.locate dst) fs) ∨
  (naming.locate src = naming.locate dst ∧ flags &&& moveReplace = 0)

mutual

/-- No path that the move composes is cut. -/
def Fits : Outcomes → List Byte → List Byte → Prop
  | .mk _ reads, src, dst => FitsReads reads src dst

def FitsReads : Reads → List Byte → List Byte → Prop
  | .stop, _, _ => True
  | .entry name moved rest, src, dst =>
    ((join src name).length < maxPathLength ∧ (join dst name).length < maxPathLength ∧
      Fits moved (join src name) (join dst name)) ∧ FitsReads rest src dst

end

theorem MoveReads.fits {naming : Naming κ} {flags : BitVec 32} {reads : Reads} {src dst : List Byte}
    {opened fs : FileSystem κ} {v : MoveVisit κ}
    (h : MoveReads naming flags reads src dst opened fs v)
    (hfits : FitsReads reads src dst) : v.Fits := by
  induction h with
  | here hname => exact ⟨hfits.1.1, hfits.1.2.1⟩
  | inside hname hone h ih =>
    obtain ⟨⟨hsrc, hdst, hmoved⟩, -⟩ := hfits
    rw [entryPath_eq_iff.mpr hsrc, entryPath_eq_iff.mpr hdst] at ih
    exact ih hmoved
  | dot hname h ih => exact ih hfits.2
  | next hname hmoved hret h ih => exact ih hfits.2

theorem visits_fit {naming : Naming κ} {flags : BitVec 32} {outcomes : Outcomes}
    {src dst : List Byte} {fs : FileSystem κ} (h : Fits outcomes src dst) (v : MoveVisit κ)
    (hv : MoveVisits naming flags outcomes src dst fs v) : v.Fits := by
  obtain ⟨calls, reads⟩ := outcomes
  obtain ⟨t, -, hreads⟩ := hv
  exact hreads.fits h

/-! ### What one move can do -/

/-- What `moveOne` does to the file system, and when it is to integrate a directory. -/
inductive MovedOne (flags : BitVec 32) (s d : List κ) (fs : FileSystem κ) :
    Option Int × FileSystem κ → Prop
  | untouched (res : Int) : MovedOne flags s d fs (some res, fs)
  | renamed (res : Int) {t : FileSystem κ} (h : fs.rename s d = .ok t) :
    MovedOne flags s d fs (some res, t)
  | replaced (res : Int) {t : FileSystem κ} (files : Replaces flags s d fs)
    (h : t = fs ∨ t = fs.remove d) :
    MovedOne flags s d fs (some res, t)
  | replacedRenamed (res : Int) {t u : FileSystem κ} (files : Replaces flags s d fs)
    (h : t = fs ∨ t = fs.remove d) (hrename : t.rename s d = .ok u) :
    MovedOne flags s d fs (some res, u)
  | integrate (dirs : Integrates flags s d fs) : MovedOne flags s d fs (none, fs)

theorem moveOne_cases (naming : Naming κ) (flags : BitVec 32) (calls : Calls) (src dst : List Byte)
    (fs : FileSystem κ) : MovedOne flags (naming.locate src) (naming.locate dst) fs
      (moveOne naming flags calls src dst fs) := by
  have hone := moveOne_movedAs naming flags calls src dst fs
  generalize moveOne naming flags calls src dst fs = result at hone ⊢
  cases hone with
  | refused htext hres => exact .untouched _
  | renamed hcall hrename => exact .renamed _ hrename
  | ignored htext hrename htaken => exact .untouched _
  | stopped htaken hstops hres => exact .untouched _
  | replaced htaken files hres ht => exact .replaced _ files ht
  | replacedRenamed htaken files ht hu => exact .replacedRenamed _ files ht hu
  | left htext htaken hgo hfile hdir => exact .untouched _
  | integrate htext htaken hgo dirs => exact .integrate dirs

/-! ### A whole move -/

section Invariant

variable {naming : Naming κ} {flags : BitVec 32} {s d : List κ} (inv : FileSystem κ → Prop)

mutual

/-- What every move of an entry to its corresponding place keeps, and every removal of a directory,
is kept by the move of a whole directory. -/
theorem movePath_invariant
    (one : ∀ {q fs result}, MovedOne flags (s ++ q) (d ++ q) fs result → inv fs → inv result.2)
    (rmdir : ∀ {fs} (l), inv fs → inv (fs.rmdir l)) :
    ∀ (outcomes : Outcomes) {src dst : List Byte} {q : List κ} {fs : FileSystem κ},
      (∀ v, MoveVisits naming flags outcomes src dst fs v → v.Fits) → naming.locate src = s ++ q →
      naming.locate dst = d ++ q → inv fs → inv (sMovePath naming flags outcomes src dst fs).2
  | .mk calls reads, src, dst, q, fs, hfits, hsrc, hdst, h => by
    have hone := moveOne_cases naming flags calls src dst fs
    rw [hsrc, hdst] at hone
    have hmoved := one hone h
    rw [sMovePath]
    split
    · rename_i res t hres
      rw [hres] at hmoved
      exact hmoved
    · rename_i t hres
      rw [hres] at hmoved
      have hentries := moveEntries_invariant one rmdir reads
        (fun v (hv : MoveReads naming flags reads src dst t t v) => hfits v ⟨t, hres, hv⟩)
        hsrc hdst hmoved
      split
      · rename_i ret u hret
        rw [hret] at hentries
        exact hentries
      · rename_i u hret
        rw [hret] at hentries
        rcases sceIoRmdir_cases naming calls.rmdir src u with hrmdir | hrmdir
        · rw [hrmdir]
          exact hentries
        · rw [hrmdir]
          exact rmdir _ hentries

theorem moveEntries_invariant
    (one : ∀ {q fs result}, MovedOne flags (s ++ q) (d ++ q) fs result → inv fs → inv result.2)
    (rmdir : ∀ {fs} (l), inv fs → inv (fs.rmdir l)) :
    ∀ (reads : Reads) {src dst : List Byte} {q : List κ} {opened fs : FileSystem κ},
      (∀ v, MoveReads naming flags reads src dst opened fs v → v.Fits) →
      naming.locate src = s ++ q →
      naming.locate dst = d ++ q → inv fs → inv (moveEntries naming flags reads src dst fs).2
  | .stop, src, dst, q, opened, fs, _, _, _, h => h
  | .entry name moved rest, src, dst, q, opened, fs, hfits, hsrc, hdst, h => by
    rw [moveEntries]
    split
    · rename_i hdot
      exact moveEntries_invariant one rmdir rest (fun v hv => hfits v (.dot hdot hv)) hsrc hdst h
    · rename_i hdot
      have hname : name.isDot = false := by simpa using hdot
      obtain ⟨hfitsrc, hfitdst⟩ := hfits _ (.here hname)
      have hentry := movePath_invariant one rmdir moved (visits_inside hfits hname)
        (Naming.locate_entryPath hname hfitsrc hsrc) (Naming.locate_entryPath hname hfitdst hdst) h
      cases hres : sMovePath naming flags moved (entryPath src name) (entryPath dst name) fs with
      | mk ret t =>
        rw [hres] at hentry
        dsimp only
        split
        · exact hentry
        · exact moveEntries_invariant one rmdir rest
            (fun v hv => hfits v (.next hname hres (by omega) hv)) hsrc hdst hentry

end

end Invariant

/-! ### Places apart -/

/-- The state of a move: nothing has come to the source, and each of its files is where it was, or
at its corresponding place and no longer where it was. -/
structure Moving (s d : List κ) (before fs : FileSystem κ) : Prop where
  less : ∀ r, fs.node (s ++ r) ≠ none → before.node (s ++ r) ≠ none
  moved : ∀ r c, before.node (s ++ r) = some (.file c) → fs.node (s ++ r) = some (.file c) ∨
    (fs.node (d ++ r) = some (.file c) ∧ fs.node (s ++ r) = none)

namespace Moving

variable {s d q : List κ} {before fs t : FileSystem κ}

theorem start (s d : List κ) (fs : FileSystem κ) : Moving s d fs fs :=
  ⟨fun _ h => h, fun _ _ h => Or.inl h⟩

theorem kept (h : Moving s d before fs) : Kept s d before fs :=
  fun r c hfile => (h.moved r c hfile).imp_right And.left

/-- The new place of a renaming has nothing of the source below it. -/
theorem target_apart (ha : Apart s d before) (h : Moving s d before fs)
    (hrename : fs.rename (s ++ q) (d ++ q) = .ok t) (r : List κ) : ¬d ++ q <+: s ++ r := by
  obtain ⟨hd, hs, -, -⟩ := FileTree.rename_ok hrename
  intro hpre
  rcases List.prefix_or_prefix_of_prefix hpre (List.prefix_append s r) with hds | hsd
  · exact FileTree.node_isPrefix (hds.trans (List.prefix_append s q)) hs hd
  · exact ha q (h.less q hs) hsd

theorem rename (ha : Apart s d before) (h : Moving s d before fs)
    (hrename : fs.rename (s ++ q) (d ++ q) = .ok t) : Moving s d before t := by
  have htarget := h.target_apart ha hrename
  have hold : ∀ {r}, s ++ q <+: s ++ r → t.node (s ++ r) = none := by
    intro r hpre
    obtain ⟨x, hx⟩ := hpre
    rw [← hx]
    exact FileTree.node_rename_old hrename x
  have hstays : ∀ {r}, ¬s ++ q <+: s ++ r → t.node (s ++ r) = fs.node (s ++ r) := fun hpre =>
    FileTree.node_rename_other hrename hpre (htarget _)
  refine ⟨fun r hr => ?_, fun r c hfile => ?_⟩
  · by_cases hpre : s ++ q <+: s ++ r
    · exact absurd (hold hpre) hr
    · rw [hstays hpre] at hr
      exact h.less r hr
  · have hout : ¬s <+: d ++ r := ha r (by simp [hfile])
    rcases h.moved r c hfile with hsrc | ⟨hdst, hnone⟩
    · by_cases hpre : s ++ q <+: s ++ r
      · obtain ⟨x, hx⟩ := (List.prefix_append_right_inj s).mp hpre
        refine Or.inr ⟨?_, hold hpre⟩
        rw [← hx, ← List.append_assoc, FileTree.node_rename_new hrename,
          List.append_assoc, hx, hsrc]
      · rw [hstays hpre]
        exact Or.inl hsrc
    · have hfree : ¬d ++ q <+: d ++ r := fun hpre =>
        FileTree.node_isPrefix hpre (by simp [hdst]) (FileTree.rename_ok hrename).1
      have hsrc : ¬s ++ q <+: d ++ r := fun hpre => hout ((List.prefix_append s q).trans hpre)
      refine Or.inr ⟨by rw [FileTree.node_rename_other hrename hsrc hfree, hdst], ?_⟩
      by_cases hpre : s ++ q <+: s ++ r
      · exact hold hpre
      · rw [hstays hpre, hnone]

/-- The file that is removed is at the corresponding place of one that is still to be moved. -/
theorem remove (ha : Apart s d before) (h : Moving s d before fs) (hq : fs.node (s ++ q) ≠ none) :
    Moving s d before (fs.remove (d ++ q)) := by
  have hsrc : ∀ r, (fs.remove (d ++ q)).node (s ++ r) = fs.node (s ++ r) := fun r => by
    apply FileTree.node_remove_of_ne
    intro heq
    apply ha q (h.less q hq)
    exact ⟨r, heq⟩
  refine ⟨fun r hr => h.less r (hsrc r ▸ hr), fun r c hfile => ?_⟩
  rw [hsrc]
  rcases h.moved r c hfile with hfs | ⟨hdst, hnone⟩
  · exact Or.inl hfs
  · have hne : d ++ r ≠ d ++ q := by
      intro heq
      rw [List.append_cancel_left heq] at hnone
      exact hq hnone
    rw [FileTree.node_remove_of_ne fs hne]
    exact Or.inr ⟨hdst, hnone⟩

theorem rmdir (h : Moving s d before fs) (l : List κ) : Moving s d before (fs.rmdir l) := by
  refine ⟨fun r hr => h.less r fun hnone => hr (FileTree.node_rmdir_none hnone),
    fun r c hfile => ?_⟩
  rcases h.moved r c hfile with hfs | ⟨hdst, hnone⟩
  · exact Or.inl (FileTree.node_rmdir_file hfs)
  · exact Or.inr ⟨FileTree.node_rmdir_file hdst, FileTree.node_rmdir_none hnone⟩

theorem moveOne (ha : Apart s d before) (h : Moving s d before fs) {flags : BitVec 32}
    {result : Option Int × FileSystem κ} (hone : MovedOne flags (s ++ q) (d ++ q) fs result) :
    Moving s d before result.2 := by
  cases hone with
  | untouched res => exact h
  | renamed res hrename => exact h.rename ha hrename
  | replaced res files hremove =>
    obtain ⟨⟨c, hc⟩, -⟩ := files
    rcases hremove with rfl | rfl
    · exact h
    · exact h.remove ha (by simp [hc])
  | replacedRenamed res files hremove hrename =>
    obtain ⟨⟨c, hc⟩, -⟩ := files
    rcases hremove with rfl | rfl
    · exact h.rename ha hrename
    · exact (h.remove ha (by simp [hc])).rename ha hrename
  | integrate dirs => exact h

end Moving

theorem apart_of_rename {s d : List κ} {fs t : FileSystem κ} (h : fs.rename s d = .ok t) :
    Apart s d fs := by
  obtain ⟨hd, hs, hinside, -⟩ := FileTree.rename_ok h
  intro r _ hpre
  rcases List.prefix_or_prefix_of_prefix hpre (List.prefix_append d r) with hsd | hds
  · exact hinside hsd
  · exact FileTree.node_isPrefix hds hs hd

/-! ### One place -/

/-- Every regular file is where it was. -/
def Stays (before after : FileSystem κ) : Prop :=
  ∀ l content, before.node l = some (.file content) → after.node l = some (.file content)

theorem movedOne_self {flags : BitVec 32} {s : List κ} {fs : FileSystem κ}
    {result : Option Int × FileSystem κ} (hflag : flags &&& moveReplace = 0)
    (h : MovedOne flags s s fs result) : result.2 = fs := by
  cases h with
  | untouched res => rfl
  | renamed res hrename =>
    obtain ⟨hnone, hsome, -, -⟩ := FileTree.rename_ok hrename
    exact absurd hnone hsome
  | replaced res files hremove => exact absurd hflag files.2.2
  | replacedRenamed res files hremove hrename => exact absurd hflag files.2.2
  | integrate dirs => rfl

/-! ### Moves that keep the files -/

theorem kept_refl (s d : List κ) (fs : FileSystem κ) : Kept s d fs fs := fun _ _ h => Or.inl h

/-- A move that neither replaces a file nor integrates a directory is one renaming at most. -/
theorem kept_of_renaming {naming : Naming κ} {flags : BitVec 32} {src dst : List Byte}
    {fs : FileSystem κ}
    (hfile : ¬Replaces flags (naming.locate src) (naming.locate dst) fs)
    (hdir : ¬Integrates flags (naming.locate src) (naming.locate dst) fs) (outcomes : Outcomes) :
    Kept (naming.locate src) (naming.locate dst) fs
      (sMovePath naming flags outcomes src dst fs).2 := by
  obtain ⟨calls, reads⟩ := outcomes
  have hone := moveOne_cases naming flags calls src dst fs
  rw [sMovePath]
  cases hres : moveOne naming flags calls src dst fs with
  | mk res t =>
    rw [hres] at hone
    cases hone with
    | untouched res => exact kept_refl _ _ fs
    | renamed res hrename =>
      have hrename' : fs.rename (naming.locate src ++ []) (naming.locate dst ++ []) = .ok t := by
        rwa [List.append_nil, List.append_nil]
      exact ((Moving.start _ _ fs).rename (apart_of_rename hrename) hrename').kept
    | replaced res files hremove => exact absurd files hfile
    | replacedRenamed res files hremove hrename => exact absurd files hfile
    | integrate dirs => exact absurd dirs hdir

theorem kept_of_safe {naming : Naming κ} {flags : BitVec 32} {src dst : List Byte}
    {fs : FileSystem κ} (h : MoveSafe naming flags src dst fs) {outcomes : Outcomes}
    (hfits : Fits outcomes src dst) : Kept (naming.locate src) (naming.locate dst) fs
      (sMovePath naming flags outcomes src dst fs).2 := by
  rcases h with hnofile | hrefused | hapart | ⟨hfile, hdir⟩ | ⟨hsame, hflag⟩
  · exact fun r c hc => absurd hc (hnofile r c)
  · obtain ⟨calls, reads⟩ := outcomes
    rw [sMovePath, moveOne]
    rcases hrefused with hsame | hsub
    · rw [if_pos hsame]
      exact kept_refl _ _ fs
    · by_cases hsame : src = dst
      · rw [if_pos hsame]
        exact kept_refl _ _ fs
      · rw [if_neg hsame, if_pos hsub]
        exact kept_refl _ _ fs
  · have hmoving : Moving (naming.locate src) (naming.locate dst) fs
        (sMovePath naming flags outcomes src dst fs).2 :=
      movePath_invariant (Moving (naming.locate src) (naming.locate dst) fs)
        (fun hone hm => hm.moveOne hapart hone) (fun l hm => hm.rmdir l) outcomes (q := [])
        (visits_fit hfits) (List.append_nil _).symm (List.append_nil _).symm (Moving.start _ _ fs)
    exact hmoving.kept
  · exact kept_of_renaming hfile hdir outcomes
  · have hdst : naming.locate dst = naming.locate src ++ [] := by rw [← hsame, List.append_nil]
    have hstays : Stays fs (sMovePath naming flags outcomes src dst fs).2 :=
      movePath_invariant (Stays fs) (fun hone ht => by rwa [movedOne_self hflag hone])
        (fun l ht m c hc => FileTree.node_rmdir_file (ht m c hc)) outcomes (q := [])
        (visits_fit hfits) (List.append_nil _).symm hdst (fun _ _ hc => hc)
    exact fun r c hc => Or.inl (hstays _ c hc)

/-! ### Moves that lose a file -/

/-- No call fails, and no directory is read. -/
def Outcomes.success : Outcomes := .mk ⟨none, none, none, none, none, none, none⟩ .stop

theorem fits_success (src dst : List Byte) : Fits .success src dst := trivial

theorem flags_of_replace {flags : BitVec 32} (h : flags &&& moveReplace ≠ 0) :
    flags &&& (moveIntegrate ||| moveReplace) ≠ 0 := by
  intro hzero
  have hboth : moveReplace = (moveIntegrate ||| moveReplace) &&& moveReplace := by decide
  rw [hboth, ← BitVec.and_assoc, hzero] at h
  exact h (BitVec.zero_and)

/-- A file that is replaced by itself is lost. -/
theorem movePath_self {naming : Naming κ} {flags : BitVec 32} {src dst : List Byte}
    {fs : FileSystem κ} {c : List Byte} (hne : src ≠ dst) (hsub : isSubfolder src dst = false)
    (hsame : naming.locate dst = naming.locate src)
    (hfile : fs.node (naming.locate src) = some (.file c)) (hflag : flags &&& moveReplace ≠ 0) :
    sMovePath naming flags .success src dst fs =
      (sceErrorErrnoEnoent, fs.remove (naming.locate src)) := by
  have hgone := FileTree.node_remove_file hfile
  have htaken : sceIoRename naming none src dst fs = (sceErrorErrnoEexist, fs) := by
    rw [sceIoRename.eq_def, hsame, FileTree.rename_taken (by simp [hfile])]
  have hsrcStat : sceIoGetstat naming none src fs = .ok false := by
    rw [sceIoGetstat.eq_def, hfile]
    rfl
  have hdstStat : sceIoGetstat naming none dst fs = .ok false := by
    rw [sceIoGetstat.eq_def, hsame, hfile]
    rfl
  have hremove : sceIoRemove naming none dst fs = (0, fs.remove (naming.locate src)) := by
    rw [sceIoRemove.eq_def, hsame, hfile]
  have hmissing : sceIoRename naming none src dst (fs.remove (naming.locate src)) =
      (sceErrorErrnoEnoent, fs.remove (naming.locate src)) := by
    rw [sceIoRename.eq_def, hsame, FileTree.rename_missing hgone hgone]
  have hone : moveOne naming flags ⟨none, none, none, none, none, none, none⟩ src dst fs =
      (some sceErrorErrnoEnoent, fs.remove (naming.locate src)) := by
    rw [moveOne, if_neg hne, if_neg (by simp [hsub])]
    simp only [htaken]
    rw [if_pos ⟨trivial, flags_of_replace hflag⟩]
    simp only [hsrcStat, hdstStat, hremove, hmissing]
    rw [if_neg (by simp), if_pos (by simpa using hflag), if_pos (by decide)]
  rw [Outcomes.success, sMovePath, hone]

theorem below_file {fs : FileSystem κ} {l r : List κ} {c : List Byte}
    (hfile : fs.node l = some (.file c)) (hr : fs.node (l ++ r) ≠ none) : r = [] := by
  by_contra hne
  rw [FileTree.node_above hne hr] at hfile
  cases hfile

theorem safe_of_kept {naming : Naming κ} {flags : BitVec 32} {src dst : List Byte}
    {fs : FileSystem κ} {c : List Byte} (hfile : fs.node (naming.locate src) = some (.file c))
    (hkept : Kept (naming.locate src) (naming.locate dst) fs
      (sMovePath naming flags .success src dst fs).2) : MoveSafe naming flags src dst fs := by
  by_contra hunsafe
  simp only [MoveSafe, not_or, not_and_or, not_not] at hunsafe
  obtain ⟨-, ⟨hne, hsub⟩, hapart, hacts, -⟩ := hunsafe
  rcases hacts with ⟨-, ⟨c', hdst⟩, hflag⟩ | ⟨hdir, -⟩
  · -- a file has nothing below it, so the places that are not apart are one
    have hsame : naming.locate dst = naming.locate src := by
      simp only [Apart, not_forall, not_not] at hapart
      obtain ⟨r, hr, hpre⟩ := hapart
      obtain rfl := below_file hfile hr
      rw [List.append_nil] at hpre
      obtain ⟨t, ht⟩ := hpre
      rw [← ht] at hdst ⊢
      have hbelow : fs.node (naming.locate src ++ t) ≠ none := by simp [hdst]
      rw [below_file hfile hbelow, List.append_nil]
    rw [movePath_self hne (by simpa using hsub) hsame hfile hflag, hsame] at hkept
    have hgone := FileTree.node_remove_file hfile
    rcases hkept [] c (by rwa [List.append_nil]) with h | h
    · rw [List.append_nil, hgone] at h
      cases h
    · rw [List.append_nil, hgone] at h
      cases h
  · rw [hfile] at hdir
    cases hdir

/-- A safe move keeps the files, whatever its calls come to, and a file that is never
lost is safe to move. -/
theorem move_keeps_files (naming : Naming κ) (flags : BitVec 32) (src dst : List Byte)
    (fs : FileSystem κ) :
    (MoveSafe naming flags src dst fs → ∀ outcomes, Fits outcomes src dst →
      Kept (naming.locate src) (naming.locate dst) fs
        (sMovePath naming flags outcomes src dst fs).2) ∧
    ((∃ c, fs.node (naming.locate src) = some (.file c)) →
      (∀ outcomes, Fits outcomes src dst → Kept (naming.locate src) (naming.locate dst) fs
        (sMovePath naming flags outcomes src dst fs).2) → MoveSafe naming flags src dst fs) := by
  refine ⟨fun hsafe outcomes hfits => kept_of_safe hsafe hfits, ?_⟩
  rintro ⟨c, hfile⟩ hkept
  exact safe_of_kept hfile (hkept .success (fits_success src dst))

/-- Two directories that both have a file `x`. -/
def twoDirectories : FileSystem (List Byte) where
  entries := [([], .dir), ([ascii "ux0"], .dir), ([ascii "ux0", ascii "a"], .dir),
    ([ascii "ux0", ascii "a", ascii "x"], .file [1]), ([ascii "ux0", ascii "b"], .dir),
    ([ascii "ux0", ascii "b", ascii "x"], .file [2])]
  unique := by decide
  closed := by decide

def nameX : Name := ⟨ascii "x", by decide, by decide +kernel, by decide +kernel⟩

/-- The outcomes of a move whose first directory holds the file `x` only. -/
def outcomesX : Outcomes :=
  .mk ⟨none, none, none, none, none, none, none⟩ (.entry nameX .success .stop)

/-- One directory is integrated into the other, and its file replaces the other's. -/
theorem move_keeps_files_integrated :
    Kept [ascii "ux0", ascii "a"] [ascii "ux0", ascii "b"] twoDirectories
      (sMovePath .caseless (moveIntegrate ||| moveReplace) outcomesX (ascii "ux0:/a")
        (ascii "ux0:/b") twoDirectories).2 := by
  have hsrc : Naming.caseless.locate (ascii "ux0:/a") = [ascii "ux0", ascii "a"] := by
    decide +kernel
  have hdst : Naming.caseless.locate (ascii "ux0:/b") = [ascii "ux0", ascii "b"] := by
    decide +kernel
  have hsafe : MoveSafe .caseless (moveIntegrate ||| moveReplace) (ascii "ux0:/a") (ascii "ux0:/b")
      twoDirectories := by
    refine Or.inr (Or.inr (Or.inl fun r _ => ?_))
    rw [hsrc, hdst, List.cons_append, List.cons_prefix_cons, List.cons_append,
      List.cons_prefix_cons]
    exact fun h => absurd h.2.1 (by decide)
  have hfits : Fits outcomesX (ascii "ux0:/a") (ascii "ux0:/b") :=
    ⟨⟨by decide, by decide, trivial⟩, trivial⟩
  rw [← hsrc, ← hdst]
  exact (move_keeps_files _ _ _ _ _).1 hsafe outcomesX hfits

/-- A directory with a file `a`. -/
def oneFile : FileSystem (List Byte) where
  entries := [([], .dir), ([ascii "ux0"], .dir), ([ascii "ux0", ascii "a"], .file [1])]
  unique := by decide
  closed := by decide

/-- On a file system without case, `mv a A` destroys `a`; and so does `mv ux0:/a a` in the directory
`ux0:/`, which makes the destination `ux0://a`. -/
theorem move_destroys_file :
    (∃ color text t, cmdMv .caseless (ascii "ux0:") (ascii "a") (ascii "A") .success oneFile =
        some (color, text, t) ∧ t.entries = [([], .dir), ([ascii "ux0"], .dir)]) ∧
    (∃ color text t, cmdMv .caseless (ascii "ux0:/") (ascii "ux0:/a") (ascii "a") .success oneFile =
        some (color, text, t) ∧ t.entries = [([], .dir), ([ascii "ux0"], .dir)]) ∧
    ¬Kept (Naming.caseless.locate (ascii "ux0:/a"))
      (Naming.caseless.locate (ascii "ux0:/A")) oneFile
      (sMovePath .caseless (moveIntegrate ||| moveReplace) .success (ascii "ux0:/a")
        (ascii "ux0:/A") oneFile).2 := by
  refine ⟨⟨_, _, _, rfl, by decide +kernel⟩, ⟨_, _, _, rfl, by decide +kernel⟩, fun h => ?_⟩
  have hfile : oneFile.node (Naming.caseless.locate (ascii "ux0:/a") ++ []) = some (.file [1]) := by
    decide +kernel
  have hlost := h [] [1] hfile
  revert hlost
  decide +kernel

end Psp2Shell.File
