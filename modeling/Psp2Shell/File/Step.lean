import Psp2Shell.File.Model

/-! One `s_movePath` but for the entries of a directory: what its calls can return, and what the
move itself returns and leaves in each case. -/

namespace Psp2Shell.File

open CLib FileTree

variable {κ : Type} [DecidableEq κ]

/-! ### Cases -/

/-- A move of a file onto a file, which replaces it. -/
def Replaces (flags : BitVec 32) (s d : List κ) (fs : FileSystem κ) : Prop :=
  (∃ c, fs.node s = some (.file c)) ∧ (∃ c, fs.node d = some (.file c)) ∧ flags &&& moveReplace ≠ 0

/-- A move of a directory onto a directory, which integrates it. -/
def Integrates (flags : BitVec 32) (s d : List κ) (fs : FileSystem κ) : Prop :=
  fs.node s = some .dir ∧ fs.node d = some .dir ∧ flags &&& moveIntegrate ≠ 0

/-- The text of the paths is refused. -/
def Refused (src dst : List Byte) : Prop := src = dst ∨ isSubfolder src dst = true

/-- `sceIoRename` returns `SCE_ERROR_ERRNO_EEXIST`, and the flags let the move go on. -/
def Taken (flags : BitVec 32) (calls : Calls) (d : List κ) (fs : FileSystem κ) : Prop :=
  (match calls.rename with
    | some f => f.code = sceErrorErrnoEexist
    | none => fs.node d ≠ none) ∧ flags &&& (moveIntegrate ||| moveReplace) ≠ 0

/-- The move stops with an error after `SCE_ERROR_ERRNO_EEXIST`: a stat fails, or a file and a
directory meet, or the directory to integrate does not open. -/
def Stops (flags : BitVec 32) (calls : Calls) (s d : List κ) (fs : FileSystem κ) : Prop :=
  calls.srcStat ≠ none ∨ calls.dstStat ≠ none ∨ fs.node d = none ∨
    (fs.node s).map Node.isDir ≠ (fs.node d).map Node.isDir ∨
    Integrates flags s d fs ∧ calls.dopen ≠ none

/-! ### Calls -/

theorem sceIoRename_spec (naming : Naming κ) (failure : Option Failure) (src dst : List Byte)
    (fs : FileSystem κ) :
    (∃ t, sceIoRename naming failure src dst fs = (0, t) ∧ failure = none ∧
      fs.rename (naming.locate src) (naming.locate dst) = .ok t) ∨
    ∃ res, sceIoRename naming failure src dst fs = (res, fs) ∧ res < 0 ∧
      ¬(failure = none ∧ fs.Renamable (naming.locate src) (naming.locate dst)) ∧
      (res = sceErrorErrnoEexist ↔
        match failure with
        | some f => f.code = sceErrorErrnoEexist
        | none => fs.node (naming.locate dst) ≠ none) := by
  cases failure with
  | some f => exact Or.inr ⟨f.code, rfl, f.negative, by simp, Iff.rfl⟩
  | none =>
    have hren : (∃ t, fs.rename (naming.locate src) (naming.locate dst) = .ok t) ↔
        fs.Renamable (naming.locate src) (naming.locate dst) := rename_isOk_iff
    have htaken : fs.rename (naming.locate src) (naming.locate dst) = .error .taken ↔
        fs.node (naming.locate dst) ≠ none := rename_eq_taken
    simp only [sceIoRename.eq_def]
    cases hrename : fs.rename (naming.locate src) (naming.locate dst) with
    | ok t => exact Or.inl ⟨t, rfl, trivial, rfl⟩
    | error e =>
      rw [hrename] at hren htaken
      have hno : ¬fs.Renamable (naming.locate src) (naming.locate dst) := by
        rw [← hren]
        rintro ⟨t, ht⟩
        cases ht
      right
      cases e with
      | taken => exact ⟨_, rfl, by decide, fun h => hno h.2, iff_of_true rfl (htaken.mp rfl)⟩
      | missing =>
        refine ⟨_, rfl, by decide, fun h => hno h.2, iff_of_false (by decide) fun h => ?_⟩
        cases htaken.mpr h
      | inside =>
        refine ⟨_, rfl, by decide, fun h => hno h.2, iff_of_false (by decide) fun h => ?_⟩
        cases htaken.mpr h

theorem sceIoGetstat_spec (naming : Naming κ) (failure : Option Failure) (path : List Byte)
    (fs : FileSystem κ) :
    (∃ res, sceIoGetstat naming failure path fs = .error res ∧ res < 0 ∧
      (failure ≠ none ∨ fs.node (naming.locate path) = none)) ∨
    ∃ n, sceIoGetstat naming failure path fs = .ok n.isDir ∧ failure = none ∧
      fs.node (naming.locate path) = some n := by
  cases failure with
  | some f => exact Or.inl ⟨f.code, rfl, f.negative, Or.inl (by simp)⟩
  | none =>
    cases hnode : fs.node (naming.locate path) with
    | none =>
      exact Or.inl ⟨sceErrorErrnoEnoent, by rw [sceIoGetstat.eq_def, hnode], by decide, Or.inr rfl⟩
    | some n => exact Or.inr ⟨n, by rw [sceIoGetstat.eq_def, hnode], rfl, rfl⟩

theorem sceIoRemove_cases (naming : Naming κ) (failure : Option Failure) (path : List Byte)
    (fs : FileSystem κ) :
    (sceIoRemove naming failure path fs).2 = fs ∨
      (sceIoRemove naming failure path fs).2 = fs.remove (naming.locate path) := by
  unfold sceIoRemove
  split
  · exact Or.inl rfl
  · exact Or.inl rfl
  · exact Or.inl rfl
  · exact Or.inr rfl

theorem sceIoRmdir_cases (naming : Naming κ) (failure : Option Failure) (path : List Byte)
    (fs : FileSystem κ) :
    (sceIoRmdir naming failure path fs).2 = fs ∨
      (sceIoRmdir naming failure path fs).2 = fs.rmdir (naming.locate path) := by
  unfold sceIoRmdir
  split
  · exact Or.inl rfl
  · exact Or.inl rfl
  · exact Or.inl rfl
  · exact Or.inr rfl

theorem sceIoDopen_nonneg {naming : Naming κ} {failure : Option Failure} {path : List Byte}
    {fs : FileSystem κ} (h : 0 ≤ sceIoDopen naming failure path fs) :
    fs.node (naming.locate path) = some .dir := by
  cases failure with
  | some f =>
    have hneg := f.negative
    have hcode : sceIoDopen naming (some f) path fs = f.code := rfl
    omega
  | none =>
    cases hnode : fs.node (naming.locate path) with
    | none =>
      rw [sceIoDopen.eq_def, hnode] at h
      exact absurd h (by decide)
    | some n =>
      cases n with
      | dir => rfl
      | file c =>
        rw [sceIoDopen.eq_def, hnode] at h
        exact absurd (show (0 : Int) ≤ sceErrorErrnoEnotdir from h) (by decide)

theorem sceIoDopen_dir {naming : Naming κ} {path : List Byte} {fs : FileSystem κ}
    (h : fs.node (naming.locate path) = some .dir) : sceIoDopen naming none path fs = 0 := by
  rw [sceIoDopen.eq_def, h]

/-! ### What one move returns -/

/-- What `moveOne` returns and leaves, and when. -/
inductive MovedAs (flags : BitVec 32) (calls : Calls) (src dst : List Byte) (s d : List κ)
    (fs : FileSystem κ) : Option Int × FileSystem κ → Prop
  | refused (h : Refused src dst) {res : Int} (hres : res < 0) :
    MovedAs flags calls src dst s d fs (some res, fs)
  | renamed {t : FileSystem κ} (hcall : calls.rename = none) (h : fs.rename s d = .ok t) :
    MovedAs flags calls src dst s d fs (some 1, t)
  | ignored (htext : ¬Refused src dst) (hrename : ¬(calls.rename = none ∧ fs.Renamable s d))
    (h : ¬Taken flags calls d fs) : MovedAs flags calls src dst s d fs (some 1, fs)
  | stopped (h : Taken flags calls d fs) (hstops : Stops flags calls s d fs) {res : Int}
    (hres : res < 0) : MovedAs flags calls src dst s d fs (some res, fs)
  | replaced (h : Taken flags calls d fs) (files : Replaces flags s d fs) {res : Int}
    {t : FileSystem κ} (hres : res < 0) (ht : t = fs ∨ t = fs.remove d) :
    MovedAs flags calls src dst s d fs (some res, t)
  | replacedRenamed (h : Taken flags calls d fs) (files : Replaces flags s d fs)
    {t u : FileSystem κ} (ht : t = fs ∨ t = fs.remove d) (hu : t.rename s d = .ok u) :
    MovedAs flags calls src dst s d fs (some 1, u)
  | left (htext : ¬Refused src dst) (h : Taken flags calls d fs) (hgo : ¬Stops flags calls s d fs)
    (hfile : ¬Replaces flags s d fs) (hdir : ¬Integrates flags s d fs) :
    MovedAs flags calls src dst s d fs (some 1, fs)
  | integrate (htext : ¬Refused src dst) (h : Taken flags calls d fs)
    (hgo : ¬Stops flags calls s d fs) (dirs : Integrates flags s d fs) :
    MovedAs flags calls src dst s d fs (none, fs)

theorem stops_of_missing {flags : BitVec 32} {calls : Calls} {s d : List κ} {fs : FileSystem κ}
    (h : fs.node s = none) : Stops flags calls s d fs := by
  refine Or.inr (Or.inr ?_)
  cases hd : fs.node d with
  | none => exact Or.inl rfl
  | some n => exact Or.inr (Or.inl (by simp [h]))

/-! A source and a destination that are both there. -/

section

variable {calls : Calls} {s d : List κ} {fs : FileSystem κ} {n m : Node (List Byte)}
  (hs : fs.node s = some n) (hd : fs.node d = some m)
include hs hd

theorem stops_iff (flags : BitVec 32) (hsrc : calls.srcStat = none) (hdst : calls.dstStat = none) :
    Stops flags calls s d fs ↔ n.isDir ≠ m.isDir ∨ Integrates flags s d fs ∧
      calls.dopen ≠ none := by
  simp [Stops, hs, hd, hsrc, hdst]

theorem replaces_iff {flags : BitVec 32} :
    Replaces flags s d fs ↔ (!n.isDir && !m.isDir && flags &&& moveReplace ≠ 0) = true := by
  cases n <;> cases m <;> simp [Replaces, hs, hd, Node.isDir]

theorem integrates_iff {flags : BitVec 32} :
    Integrates flags s d fs ↔ (n.isDir && m.isDir && flags &&& moveIntegrate ≠ 0) = true := by
  cases n <;> cases m <;> simp [Integrates, hs, hd, Node.isDir]

end

section

variable {naming : Naming κ} {flags : BitVec 32} {calls : Calls} {src dst : List Byte}
  {fs : FileSystem κ} (htaken : Taken flags calls (naming.locate dst) fs)
include htaken

theorem replacement_movedAs (files : Replaces flags (naming.locate src) (naming.locate dst) fs)
    {res : Int} {u : FileSystem κ}
    (h : sceIoRename naming calls.renameAgain src dst (sceIoRemove naming calls.remove dst fs).2 =
      (res, u)) :
    MovedAs flags calls src dst (naming.locate src) (naming.locate dst) fs
      (some (if res < 0 then res else 1), u) := by
  have hremove := sceIoRemove_cases naming calls.remove dst fs
  rcases sceIoRename_spec naming calls.renameAgain src dst
    (sceIoRemove naming calls.remove dst fs).2 with ⟨u, hres, -, hagain⟩ | ⟨res, hres, hneg, -⟩
  · cases h.symm.trans hres
    exact .replacedRenamed htaken files hremove hagain
  · cases h.symm.trans hres
    rw [if_pos hneg]
    exact .replaced htaken files hneg hremove

theorem integration_movedAs (htext : ¬Refused src dst)
    (hgo : calls.dopen = none → ¬Stops flags calls (naming.locate src) (naming.locate dst) fs)
    (dirs : Integrates flags (naming.locate src) (naming.locate dst) fs) :
    MovedAs flags calls src dst (naming.locate src) (naming.locate dst) fs
      (if sceIoDopen naming calls.dopen src fs <
        0 then (some (sceIoDopen naming calls.dopen src fs), fs) else (none, fs)) := by
  cases hopen : calls.dopen with
  | some f =>
    have hneg := f.negative
    have hcode : sceIoDopen naming (some f) src fs = f.code := rfl
    rw [hcode, if_pos hneg]
    exact .stopped htaken (Or.inr (Or.inr (Or.inr (Or.inr ⟨dirs, by simp [hopen]⟩)))) hneg
  | none =>
    rw [sceIoDopen_dir dirs.1, if_neg (by decide)]
    exact .integrate htext htaken (hgo hopen) dirs

end

theorem moveOne_movedAs (naming : Naming κ) (flags : BitVec 32) (calls : Calls)
    (src dst : List Byte) (fs : FileSystem κ) :
    MovedAs flags calls src dst (naming.locate src) (naming.locate dst) fs
      (moveOne naming flags calls src dst fs) := by
  rw [moveOne]
  split
  · exact .refused (Or.inl ‹_›) (by decide)
  rename_i hne
  split
  · exact .refused (Or.inr ‹_›) (by decide)
  rename_i hsub
  have htext : ¬Refused src dst := not_or.mpr ⟨hne, hsub⟩
  rcases sceIoRename_spec naming calls.rename src dst fs with
    ⟨t, hres, hcall, hrename⟩ | ⟨res, hres, -, hrename, heexist⟩
  · simp only [hres]
    have hzero : ¬(0 : Int) = sceErrorErrnoEexist := by decide
    rw [if_neg (fun h => hzero h.1)]
    exact .renamed hcall hrename
  simp only [hres]
  split
  · rename_i h
    have htaken : Taken flags calls (naming.locate dst) fs := ⟨heexist.mp h.1, h.2⟩
    rcases sceIoGetstat_spec naming calls.srcStat src fs with
      ⟨res, hsrc, hneg, hwhy⟩ | ⟨n, hsrc, hsrcStat, hn⟩
    · rw [hsrc]
      exact .stopped htaken (hwhy.elim Or.inl stops_of_missing) hneg
    rcases sceIoGetstat_spec naming calls.dstStat dst fs with
      ⟨res, hdst, hneg, hwhy⟩ | ⟨m, hdst, hdstStat, hm⟩
    · rw [hsrc, hdst]
      refine .stopped htaken (Or.inr ?_) hneg
      exact hwhy.imp_right Or.inl
    rw [hsrc, hdst]
    have hstops := stops_iff hn hm flags hsrcStat hdstStat
    dsimp only
    split
    · exact .stopped htaken (hstops.mpr (Or.inl ‹_›)) (by decide)
    rename_i hkinds
    split
    · exact replacement_movedAs htaken ((replaces_iff hn hm).mpr ‹_›) rfl
    rename_i hnotfiles
    split
    · refine integration_movedAs htaken htext ?_ ((integrates_iff hn hm).mpr ‹_›)
      intro hopen hstop
      exact (hstops.mp hstop).elim hkinds fun h => h.2 hopen
    · rename_i hnotdirs
      have hnodirs := mt (integrates_iff hn hm).mp hnotdirs
      refine .left htext htaken ?_ (mt (replaces_iff hn hm).mp hnotfiles) hnodirs
      exact fun hstop => (hstops.mp hstop).elim hkinds fun h => hnodirs h.1
  · rename_i h
    exact .ignored htext hrename fun htaken => h ⟨heexist.mpr htaken.1, htaken.2⟩

end Psp2Shell.File
