import Psp2Shell.CLib.Runs
import Psp2Shell.Client.Spec

/-! `cd` to what cannot be listed: when the client is left where it was, and where a sequence
of `cd` commands leads. -/

namespace Psp2Shell.Client

open CLib File

/-- The path is the path before, but for an end slash, and the entries are
those of its directory. -/
def Restored (env : Environment) (d : List Byte) (fileList : SFileList) : Prop :=
  ∃ p, fileList.path.str = some p ∧ File.p2sRemoveEndSlash p = File.p2sRemoveEndSlash d ∧
    fileList.entries = (sFileListGetEntries env p).getD []

/-- A `cd` whose path cannot be listed leaves the client where it was. -/
def GoesBack (env : Environment) (d : List Byte) (done : Done) : Prop :=
  ∀ path, done.acts.head? = some (.list path) → ¬Listable env path → Restored env d done.fileList

/-- The target can be listed, or the argument names the client's directory;
and no path is too long. -/
def Returns (env : Environment) (d path : List Byte) : Prop :=
  ¬TooLong env (File.p2sRemoveEndSlash path) ∧
    (Listable env (target env d path) ∨
      File.p2sRemoveEndSlash path = File.p2sRemoveEndSlash d ∧ path.length < maxPathLength)

section

variable {env : Environment} {fileList : SFileList} {d path : List Byte}
  (hd : fileList.path.str = some d) (hpath : 0 ∉ path)
include hd hpath

theorem cmdCd_of_returns (h : Returns env d path) :
    ∃ done, cmdCd env fileList path = some done ∧ CdDone env d path done := by
  apply cmdCd_spec hd hpath h.1
  rcases h.2 with hlist | ⟨-, hlen⟩
  · exact Or.inl hlist
  · right
    simp only [maxPathLength] at hlen
    omega

theorem goes_back_iff :
    (∃ done, cmdCd env fileList path = some done ∧ GoesBack env d done) ↔ Returns env d path := by
  constructor
  · rintro ⟨done, hdone, hback⟩
    by_cases hlong : TooLong env (File.p2sRemoveEndSlash path)
    · simp [cmdCd_too_long hd hlong] at hdone
    by_cases hlist : Listable env (target env d path)
    · exact ⟨hlong, Or.inl hlist⟩
    by_cases hlen : path.length < 1024
    · obtain ⟨done', hdone', hcd⟩ := cmdCd_spec hd hpath hlong (Or.inr hlen)
      cases hdone'.symm.trans hdone
      obtain ⟨p, hp, hsame, -⟩ := hback _ hcd.tried hlist
      obtain ⟨hstr, -⟩ := hcd.failed hlist
      rw [hp] at hstr
      split at hstr
      · cases hstr
        exact ⟨hlong, Or.inr ⟨hsame, ‹_›⟩⟩
      · cases hstr
    · simp [cmdCd_unsaved hd hpath hlong hlist (by omega)] at hdone
  · intro h
    obtain ⟨done, hdone, hcd⟩ := cmdCd_of_returns hd hpath h
    refine ⟨done, hdone, fun t ht hno => ?_⟩
    obtain rfl : t = target env d path := by simpa [hcd.tried, eq_comm] using ht
    obtain ⟨hsame, hlen⟩ := h.2.resolve_left hno
    obtain ⟨hstr, hentries⟩ := hcd.failed hno
    exact ⟨path, hstr.trans (if_pos hlen), hsame, hentries⟩

end

/-! ### Sequences of `cd` commands -/

/-- The client, and the file system as its last command has found it. -/
structure Console where
  env : Environment
  fileList : SFileList

/-- A `cd`, and the file system that it finds. -/
structure Cd where
  env : Environment
  path : List Byte

def Console.step (s : Console) (e : Cd) : Option Console :=
  (cmdCd e.env s.fileList e.path).map fun done => ⟨e.env, done.fileList⟩

/-- The client's path is `HOME_PATH` or a directory that can be listed, but for an end slash. -/
def Console.InDirectory (s : Console) : Prop :=
  ∃ p q, s.fileList.path.str = some p ∧ File.p2sRemoveEndSlash q = File.p2sRemoveEndSlash p ∧
    (q = homePath ∨ Listable s.env q)

/-- The argument is a string, what could be listed still can be, and the target of the `cd` can be
listed or the argument names the client's directory. -/
def Console.Allows (s : Console) (e : Cd) : Prop :=
  0 ∉ e.path ∧ (∀ p, Listable s.env p → Listable e.env p) ∧
    ∀ d, s.fileList.path.str = some d → Returns e.env d e.path

theorem Console.InDirectory.step {s t : Console} {e : Cd} (h : s.InDirectory) (hallows : s.Allows e)
    (hstep : s.step e = some t) : t.InDirectory := by
  obtain ⟨d, q, hd, hsame, hq⟩ := h
  obtain ⟨hpath, hstays, hreturns⟩ := hallows
  obtain ⟨done, hdone, hcd⟩ := cmdCd_of_returns hd hpath (hreturns d hd)
  obtain rfl : t = ⟨e.env, done.fileList⟩ := by simpa [Console.step, hdone, eq_comm] using hstep
  by_cases hlist : Listable e.env (target e.env d e.path)
  · exact ⟨_, _, hcd.listed hlist, rfl, Or.inr hlist⟩
  · obtain ⟨hnames, hlen⟩ := (hreturns d hd).2.resolve_left hlist
    obtain ⟨hstr, -⟩ := hcd.failed hlist
    refine ⟨e.path, q, hstr.trans (if_pos hlen), hsame.trans hnames.symm, ?_⟩
    exact hq.imp_right (hstays q)

theorem guards_inDirectory :
    Guards Console.step Console.InDirectory Console.InDirectory Console.Allows :=
  ⟨Console.InDirectory.step, id⟩

/-- A `cd` that fails leaves the client where it was exactly when its argument names the client's
directory or its target can be listed; and a sequence of such commands from `HOME_PATH` stays in
directories that can be listed, as long as these stay so. -/
theorem cd_goes_back (env : Environment) {fileList : SFileList} {d path : List Byte}
    (hd : fileList.path.str = some d) (hpath : 0 ∉ path) :
    ((∃ done, cmdCd env fileList path = some done ∧ GoesBack env d done) ↔ Returns env d path) ∧
    (d = homePath → ∀ es, EachStep Console.step Console.Allows ⟨env, fileList⟩ es →
      Always Console.step Console.InDirectory ⟨env, fileList⟩ es) := by
  refine ⟨goes_back_iff hd hpath, fun hhome es heach => ?_⟩
  exact guards_inDirectory.always ⟨d, d, hd, rfl, Or.inl hhome⟩ heach

/-- A console with a file `ux0:/file` in the directory `ux0:/`. -/
def fileEnvironment : Environment where
  stack := Buffer.zero _
  isDir p := p = ascii "ux0:/"
  exist p := p = ascii "ux0:/" ∨ p = ascii "ux0:/file"
  directory p := if p = ascii "ux0:/" then some [ascii "..", ascii "file"] else none
  mounts := [ascii "ux0:"]

/-- `cd ux0:/a`, which does not exist, and `cd ux0:/`. -/
theorem cd_goes_back_home :
    (∃ done, cmdCd fileEnvironment (fileListAt homePath) (ascii "ux0:/a") = some done ∧
      GoesBack fileEnvironment homePath done) ∧
    Always Console.step Console.InDirectory ⟨fileEnvironment, fileListAt homePath⟩
      [⟨fileEnvironment, ascii "ux0:/"⟩] := by
  have hhome : (fileListAt homePath).path.str = some homePath := by decide +kernel
  have hpath : 0 ∉ ascii "ux0:/a" := by decide +kernel
  obtain ⟨hone, hruns⟩ := cd_goes_back fileEnvironment hhome hpath
  refine ⟨hone.mpr ⟨by decide +kernel, Or.inl (by decide +kernel)⟩,
    hruns rfl _ (eachStep_singleton.mpr ⟨by decide +kernel, fun _ h => h, ?_⟩)⟩
  intro d hd
  cases hhome.symm.trans hd
  exact ⟨by decide +kernel, Or.inl (by decide +kernel)⟩

theorem listable_file {q : List Byte} (h : Listable fileEnvironment q) :
    q = homePath ∨ q = ascii "ux0:/" := by
  unfold Listable sFileListGetEntries at h
  split at h
  · exact Or.inl ‹_›
  · right
    by_contra hne
    exact h (if_neg hne)

/-- A `cd` to a file that exists leaves the path of the file, without entries. -/
theorem cd_to_file :
    (fileListAt (ascii "ux0:/")).path.str = some (ascii "ux0:/") ∧
    Listable fileEnvironment (ascii "ux0:/") ∧
    ∃ done, cmdCd fileEnvironment (fileListAt (ascii "ux0:/")) (ascii "ux0:/file") = some done ∧
      done.fileList.path.str = some (ascii "ux0:/file") ∧ done.fileList.entries = [] ∧
      ¬GoesBack fileEnvironment (ascii "ux0:/") done ∧
      ¬Console.InDirectory ⟨fileEnvironment, done.fileList⟩ := by
  have hd : (fileListAt (ascii "ux0:/")).path.str = some (ascii "ux0:/") := by decide +kernel
  have htarget : target fileEnvironment (ascii "ux0:/") (ascii "ux0:/file") =
      ascii "ux0:/file" := by
    decide +kernel
  have hno : ¬Listable fileEnvironment (ascii "ux0:/file") := by decide +kernel
  have hfits : ¬TooLong fileEnvironment (File.p2sRemoveEndSlash (ascii "ux0:/file")) := by
    decide +kernel
  obtain ⟨done, hdone, hcd⟩ := cmdCd_spec hd (by decide +kernel) hfits (Or.inr (by decide +kernel))
  have htried := hcd.tried
  obtain ⟨hstr, hentries⟩ := hcd.failed (by rwa [htarget])
  rw [htarget] at htried
  have hfile : done.fileList.path.str = some (ascii "ux0:/file") := hstr.trans (if_pos (by decide))
  refine ⟨hd, by decide +kernel, done, hdone, hfile, hentries.trans (by decide +kernel), ?_, ?_⟩
  · intro hback
    obtain ⟨p, hp, hsame, -⟩ := hback _ htried hno
    cases hfile.symm.trans hp
    exact absurd hsame (by decide +kernel)
  · rintro ⟨p, q, hp, hsame, hq⟩
    cases hfile.symm.trans hp
    rcases hq.elim Or.inl listable_file with rfl | rfl <;>
      exact absurd hsame (by decide +kernel)

end Psp2Shell.Client
