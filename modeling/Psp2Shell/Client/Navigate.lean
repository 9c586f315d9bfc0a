import Psp2Shell.CLib.Runs
import Psp2Shell.Client.Spec

/-! Where `cd ..` and `cd c` lead in directories that exist: up to `HOME_PATH` one component at a
time, and down and back again. -/

namespace Psp2Shell.Client

open CLib File

/-- A component of a path. -/
structure IsComponent (c : List Byte) : Prop where
  nonempty : c ≠ []
  plain : 0 ∉ c
  noSlash : slash ∉ c
  noColon : colon ∉ c
  dot : c ≠ ascii "."
  up : c ≠ ascii ".."

/-- `dev:/c1/.../cn`. -/
def dirPath (dev : List Byte) (cs : List (List Byte)) : List Byte :=
  dev ++ colon :: cs.flatMap fun c => slash :: c

/-- The same path, up to a trailing slash. -/
def SameDirectory (d p : List Byte) : Prop := d = p ∨ d = p ++ [slash]

/-- The directory exists and can be listed, with and without a trailing slash. -/
def Present (env : Environment) (p : List Byte) : Prop :=
  ∀ d, SameDirectory d p → env.exist d = true ∧ Listable env d

/-- A file system in which only paths that name a device exist, and these
directories from the device on. -/
structure Directories (env : Environment) (dev : List Byte) (cs : List (List Byte)) : Prop where
  device : slash ∉ dev
  components : ∀ c ∈ cs, IsComponent c
  absolute : ∀ p, env.exist p = true → colon ∈ p
  present : ∀ k ≤ cs.length, Present env (dirPath dev (cs.take k))

/-- A `cd` command. -/
def cd (env : Environment) (fileList : SFileList) (path : List Byte) : Option SFileList :=
  (cmdCd env fileList path).map Done.fileList

/-- The client after `k` times `cd ..`. -/
def cdUp (env : Environment) (fileList : SFileList) (k : Nat) : Option SFileList :=
  run (cd env) fileList (List.replicate k (ascii ".."))

/-- The client's path is this directory, up to a trailing slash. -/
def AtDirectory (fileList : SFileList) (p : List Byte) : Prop :=
  ∃ d, fileList.path.str = some d ∧ SameDirectory d p

/-! ### Paths -/

variable {dev : List Byte} {cs : List (List Byte)} {c d : List Byte}

theorem dirPath_concat (dev : List Byte) (cs : List (List Byte)) (c : List Byte) :
    dirPath dev (cs ++ [c]) = dirPath dev cs ++ slash :: c := by
  simp [dirPath]

theorem dirPath_nil (dev : List Byte) : dirPath dev [] = dev ++ [colon] := rfl

theorem IsComponent.no_end_slash (h : IsComponent c) (s : List Byte) :
    p2sHasEndSlash (s ++ slash :: c) = false := by
  obtain ⟨init, b, rfl⟩ : ∃ init b, c = init ++ [b] :=
    (List.eq_nil_or_concat c).resolve_left h.nonempty |>.imp fun init ⟨b, hb⟩ =>
      ⟨b, by simpa using hb⟩
  have hb : b ≠ slash := fun heq => h.noSlash (by simp [heq])
  have hlast : (s ++ slash :: (init ++ [b])).getLast? = some b := by
    rw [← List.cons_append, ← List.append_assoc, List.getLast?_concat]
  simp [p2sHasEndSlash, hlast, hb]

theorem dirPath_no_end_slash (hcs : ∀ c ∈ cs, IsComponent c) (dev : List Byte) :
    p2sHasEndSlash (dirPath dev cs) = false := by
  rcases List.eq_nil_or_concat cs with rfl | ⟨cs, c, rfl⟩
  · have hne : colon ≠ slash := by decide
    simp [p2sHasEndSlash, dirPath_nil, hne]
  · rw [List.concat_eq_append] at *
    rw [dirPath_concat]
    exact (hcs c (by simp)).no_end_slash _

theorem removeEndSlash_dirPath (hcs : ∀ c ∈ cs, IsComponent c)
    (h : SameDirectory d (dirPath dev cs)) :
    File.p2sRemoveEndSlash d = dirPath dev cs := by
  rcases h with rfl | rfl
  · rw [File.p2sRemoveEndSlash, if_neg (by simp [dirPath_no_end_slash hcs])]
  · have hend : p2sHasEndSlash (dirPath dev cs ++ [slash]) = true := by simp [p2sHasEndSlash]
    rw [File.p2sRemoveEndSlash, if_pos hend, List.dropLast_concat]

theorem parent_dirPath (hc : IsComponent c) (dev : List Byte) (cs : List (List Byte)) :
    parent (dirPath dev (cs ++ [c])) = dirPath dev cs ++ [slash] := by
  have hslash : strrchr (dirPath dev cs ++ slash :: c) slash = some (dirPath dev cs).length :=
    strrchr_append_cons hc.noSlash _
  rw [dirPath_concat, parent, hslash]
  simp [List.take_append]

theorem parent_device (hdev : slash ∉ dev) : parent (dirPath dev []) = homePath := by
  have hslash : strrchr (dev ++ [colon]) slash = none := by
    have hne : slash ≠ colon := by decide
    rw [strrchr_eq_none]
    simp [hdev, hne]
  have hcolon : strrchr (dev ++ [colon]) colon = some dev.length :=
    strrchr_append_cons (by simp) dev
  rw [dirPath_nil, parent, hslash, hcolon]
  simp

/-! ### One command -/

variable {env : Environment} {fileList : SFileList}

/-- A `cd` whose target can be listed leads there. -/
theorem cd_target {path : List Byte} (hd : fileList.path.str = some d) (hpath : 0 ∉ path)
    (hlong : ¬TooLong env (File.p2sRemoveEndSlash path))
    (hlist : Listable env (target env d path)) :
    ∃ l, cd env fileList path = some l ∧ l.path.str = some (target env d path) := by
  obtain ⟨done, hdone, hcd⟩ := cmdCd_spec hd hpath hlong (Or.inl hlist)
  exact ⟨done.fileList, by rw [cd, hdone, Option.map_some], hcd.listed hlist⟩

theorem target_up (env : Environment) (d : List Byte) :
    target env d (ascii "..") = parent (File.p2sRemoveEndSlash d) := by
  have hup : File.p2sRemoveEndSlash (ascii "..") = ascii ".." := by decide
  rw [target, hup, cdTarget, if_pos rfl]

theorem cd_up {p : List Byte} (hd : fileList.path.str = some d)
    (hp : parent (File.p2sRemoveEndSlash d) = p) (hlist : Listable env p) :
    ∃ l, cd env fileList (ascii "..") = some l ∧ l.path.str = some p := by
  have hup : File.p2sRemoveEndSlash (ascii "..") = ascii ".." := by decide
  have htarget : target env d (ascii "..") = p := (target_up env d).trans hp
  rw [← htarget] at hlist ⊢
  exact cd_target hd (by decide) (fun h => h.1 hup) hlist

theorem cd_up_directory (hat : AtDirectory fileList (dirPath dev (cs ++ [c])))
    (hcs : ∀ c' ∈ cs ++ [c], IsComponent c') (hpresent : Present env (dirPath dev cs)) :
    ∃ l, cd env fileList (ascii "..") = some l ∧ AtDirectory l (dirPath dev cs) := by
  obtain ⟨d, hd, hsame⟩ := hat
  have hparent : parent (File.p2sRemoveEndSlash d) = dirPath dev cs ++ [slash] := by
    rw [removeEndSlash_dirPath hcs hsame, parent_dirPath (hcs c (by simp))]
  obtain ⟨l, hl, hpath⟩ := cd_up hd hparent (hpresent _ (Or.inr rfl)).2
  exact ⟨l, hl, _, hpath, Or.inr rfl⟩

theorem listable_home (env : Environment) : Listable env homePath := by
  rw [Listable, sFileListGetEntries, if_pos rfl]
  exact Option.some_ne_none _

theorem cd_up_device (hat : AtDirectory fileList (dirPath dev [])) (hdev : slash ∉ dev)
    (env : Environment) :
    ∃ l, cd env fileList (ascii "..") = some l ∧ l.path.str = some homePath := by
  obtain ⟨d, hd, hsame⟩ := hat
  have hparent : parent (File.p2sRemoveEndSlash d) = homePath := by
    rw [removeEndSlash_dirPath (by simp) hsame, parent_device hdev]
  exact cd_up hd hparent (listable_home env)

theorem cd_up_home (hd : fileList.path.str = some homePath) (env : Environment) :
    ∃ l, cd env fileList (ascii "..") = some l ∧ l.path.str = some homePath :=
  cd_up hd (by decide) (listable_home env)

theorem cd_down (hat : AtDirectory fileList (dirPath dev cs)) (hcs : ∀ c ∈ cs, IsComponent c)
    (habsolute : ∀ p, env.exist p = true → colon ∈ p) (hc : IsComponent c)
    (hpresent : Present env (dirPath dev (cs ++ [c])))
    (hlen : (dirPath dev (cs ++ [c])).length < maxPathLength) :
    ∃ l, cd env fileList c = some l ∧ l.path.str = some (dirPath dev (cs ++ [c])) := by
  obtain ⟨d, hd, hsame⟩ := hat
  have hend : p2sHasEndSlash c = false := by
    rw [p2sHasEndSlash, decide_eq_false_iff_not]
    exact fun hlast => hc.noSlash (List.mem_of_getLast? hlast)
  have hcut : File.p2sRemoveEndSlash c = c := by
    rw [File.p2sRemoveEndSlash, if_neg (by simp [hend])]
  have hbare : ¬env.exist c = true := fun hexist => hc.noColon (habsolute c hexist)
  have hbelow : below (dirPath dev cs) c = dirPath dev (cs ++ [c]) := by
    rw [dirPath_concat] at hlen ⊢
    rw [below, format_path, snprintf_of_lt hlen]
  obtain ⟨hexist, hlist⟩ := hpresent _ (Or.inl rfl)
  have htarget : target env d c = dirPath dev (cs ++ [c]) := by
    rw [target, removeEndSlash_dirPath hcs hsame, hcut, cdTarget, if_neg hc.up,
      if_neg hbare, hbelow, if_pos hexist]
  rw [← htarget] at hlist ⊢
  exact cd_target hd hc.plain (fun h => hbare (hcut ▸ h.2.1)) hlist

/-! ### Sequences of commands -/

theorem cdUp_succ {l : SFileList} (h : cd env fileList (ascii "..") = some l) (k : Nat) :
    cdUp env fileList (k + 1) = cdUp env l k := by
  rw [cdUp, List.replicate_succ, run_cons h]
  rfl

theorem Directories.init (h : Directories env dev (cs ++ [c])) : Directories env dev cs where
  device := h.device
  components := fun c' hc' => h.components c' (List.mem_append_left _ hc')
  absolute := h.absolute
  present := fun k hk => by
    have hpresent := h.present k (by rw [List.length_append]; omega)
    rwa [List.take_append_of_le_length hk] at hpresent

theorem Directories.self (h : Directories env dev cs) : Present env (dirPath dev cs) := by
  simpa using h.present cs.length le_rfl

/-- Up to the device, each `cd ..` leaves one component less. -/
theorem cdUp_ancestor (h : Directories env dev cs)
    (hat : AtDirectory fileList (dirPath dev cs)) {k : Nat} (hk : k ≤ cs.length) :
    ∃ l, cdUp env fileList k = some l ∧ AtDirectory l (dirPath dev (cs.take (cs.length - k))) := by
  induction k generalizing cs fileList with
  | zero => exact ⟨fileList, rfl, by simpa using hat⟩
  | succ k ih =>
    rcases List.eq_nil_or_concat cs with rfl | ⟨cs, c, rfl⟩
    · exact absurd hk (Nat.not_succ_le_zero k)
    · rw [List.concat_eq_append] at *
      obtain ⟨l, hl, hup⟩ := cd_up_directory hat h.components h.init.self
      have hlength : (cs ++ [c]).length = cs.length + 1 := by simp
      rw [hlength] at hk ⊢
      obtain ⟨l', hl', hat'⟩ := ih h.init hup (Nat.le_of_succ_le_succ hk)
      refine ⟨l', (cdUp_succ hl k).trans hl', ?_⟩
      rwa [Nat.add_sub_add_right, List.take_append_of_le_length (Nat.sub_le _ _)]

theorem cdUp_home (hd : fileList.path.str = some homePath) (env : Environment) (k : Nat) :
    ∃ l, cdUp env fileList k = some l ∧ l.path.str = some homePath := by
  induction k generalizing fileList with
  | zero => exact ⟨fileList, rfl, hd⟩
  | succ k ih =>
    obtain ⟨l, hl, hhome⟩ := cd_up_home hd env
    obtain ⟨l', hl', hhome'⟩ := ih hhome
    exact ⟨l', (cdUp_succ hl k).trans hl', hhome'⟩

/-- One `cd ..` more than there are components leads to `HOME_PATH`, and the
next ones stay there. -/
theorem cdUp_past (h : Directories env dev cs)
    (hat : AtDirectory fileList (dirPath dev cs)) (k : Nat) :
    ∃ l, cdUp env fileList (cs.length + 1 + k) = some l ∧ l.path.str = some homePath := by
  induction cs using List.reverseRecOn generalizing fileList with
  | nil =>
    obtain ⟨l, hl, hhome⟩ := cd_up_device hat h.device env
    obtain ⟨l', hl', hhome'⟩ := cdUp_home hhome env k
    refine ⟨l', ?_, hhome'⟩
    rw [List.length_nil, Nat.zero_add, Nat.add_comm]
    exact (cdUp_succ hl k).trans hl'
  | append_singleton cs c ih =>
    obtain ⟨l, hl, hup⟩ := cd_up_directory hat h.components h.init.self
    obtain ⟨l', hl', hhome⟩ := ih h.init hup
    refine ⟨l', ?_, hhome⟩
    have hlength : (cs ++ [c]).length + 1 + k = cs.length + 1 + k + 1 := by
      rw [List.length_append, List.length_singleton]
      omega
    rw [hlength]
    exact (cdUp_succ hl _).trans hl'

/-- From `dev:/c1/.../cn`, each `cd ..` goes to the directory above, one more than `n` go to
`HOME_PATH` for good, and a `cd c` is undone by `cd ..`. -/
theorem cd_navigates (h : Directories env dev cs) (hat : AtDirectory fileList (dirPath dev cs)) :
    (∀ k ≤ cs.length, ∃ l, cdUp env fileList k = some l ∧
      AtDirectory l (dirPath dev (cs.take (cs.length - k)))) ∧
    (∀ k, ∃ l, cdUp env fileList (cs.length + 1 + k) = some l ∧ l.path.str = some homePath) ∧
    ∀ c, IsComponent c → Present env (dirPath dev (cs ++ [c])) →
      (dirPath dev (cs ++ [c])).length < maxPathLength →
      ∃ l l', cd env fileList c = some l ∧ AtDirectory l (dirPath dev (cs ++ [c])) ∧
        cd env l (ascii "..") = some l' ∧ AtDirectory l' (dirPath dev cs) := by
  refine ⟨fun k hk => cdUp_ancestor h hat hk, fun k => cdUp_past h hat k,
    fun c hc hpresent hlen => ?_⟩
  obtain ⟨l, hl, hpath⟩ := cd_down hat h.components h.absolute hc hpresent hlen
  have hdown : AtDirectory l (dirPath dev (cs ++ [c])) := ⟨_, hpath, Or.inl rfl⟩
  have hcs : ∀ c' ∈ cs ++ [c], IsComponent c' := by
    intro c' hc'
    rcases List.mem_append.mp hc' with hc' | hc'
    · exact h.components c' hc'
    · rw [List.mem_singleton] at hc'
      exact hc' ▸ hc
  obtain ⟨l', hl', hup⟩ := cd_up_directory hdown hcs h.self
  exact ⟨l, l', hl, hdown, hl', hup⟩

/-- A console on which every path that names a device is an empty directory. -/
def emptyDirectories : Environment :=
  ⟨Buffer.zero _, fun _ => true, fun p => colon ∈ p, fun _ => some [], []⟩

theorem present_emptyDirectories (dev : List Byte) (cs : List (List Byte)) :
    Present emptyDirectories (dirPath dev cs) := by
  intro d hd
  have hcolon : colon ∈ d := by rcases hd with rfl | rfl <;> simp [dirPath]
  refine ⟨by simpa [emptyDirectories] using hcolon, ?_⟩
  rw [Listable, sFileListGetEntries]
  split <;> exact Option.some_ne_none _

theorem directories_emptyDirectories :
    Directories emptyDirectories (ascii "ux0") [ascii "a", ascii "b"] where
  device := by decide
  components := by
    intro c hc
    simp only [List.mem_cons, List.not_mem_nil, or_false] at hc
    rcases hc with rfl | rfl
    · exact ⟨by decide, by decide, by decide, by decide, by decide, by decide⟩
    · exact ⟨by decide, by decide, by decide, by decide, by decide, by decide⟩
  absolute p hp := by simpa [emptyDirectories] using hp
  present k _ := present_emptyDirectories _ _

/-- Three times `cd ..` from `ux0:/a/b/`. -/
theorem cd_navigates_home : ∃ l, cdUp emptyDirectories (fileListAt (ascii "ux0:/a/b/")) 3 = some l ∧
    l.path.str = some homePath :=
  (cd_navigates directories_emptyDirectories ⟨ascii "ux0:/a/b/", by decide +kernel,
    Or.inr (by decide +kernel)⟩).2.1 0

end Psp2Shell.Client
