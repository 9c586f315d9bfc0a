import Psp2Shell.File.Move
import Psp2Shell.File.Remove

/-! Recursive removal is confined to the path and complete: it ends, touches nothing elsewhere, asks
for a directory only when its entries are gone, and when it returns 1 nothing is left. -/

namespace Psp2Shell.File

open CLib

/-! ### The order of the calls -/

/-- A call has removed the path. -/
def Removed (path : List Byte) (log : List Event) : Prop :=
  ∃ res, 0 ≤ res ∧ (Event.remove path res ∈ log ∨ Event.rmdir path res ∈ log)

/-- The entry has been read from the directory, and not removed. -/
def Unsettled (log : List Event) (path : List Byte) (name : Name) : Prop :=
  Event.dread path name ∈ log ∧ name.isDot = false ∧ ¬Removed (entryPath path name) log

/-- `sceIoRmdir` is asked for a directory only when the entries that have been read from
it have been removed. -/
def Ordered (log : List Event) : Prop :=
  ∀ before path res after, log = before ++ Event.rmdir path res :: after →
    ∀ name, ¬Unsettled before path name

/-- Only directories above `path` have entries that are to be removed. -/
structure Ready (path : List Byte) (log : List Event) : Prop where
  ordered : Ordered log
  above : ∀ p name, Unsettled log p name → p.length < path.length

/-- The calls of a removal below `path`, after which no entry is to be
removed that was not before. -/
structure Settles (path : List Byte) (before after : List Event) : Prop where
  ordered : Ready path before → Ordered after
  settled : ∀ p name, Unsettled after p name → Unsettled before p name

theorem Removed.append {path : List Byte} {log : List Event} (h : Removed path log)
    (l : List Event) :
    Removed path (log ++ l) := by
  obtain ⟨res, hres, hmem⟩ := h
  exact ⟨res, hres, hmem.imp (List.mem_append_left l) (List.mem_append_left l)⟩

theorem Unsettled.of_append {log l : List Event} {path : List Byte} {name : Name}
    (h : Unsettled (log ++ l) path name) : Unsettled log path name ∨ Event.dread path name ∈ l := by
  obtain ⟨hmem, hdot, hno⟩ := h
  rcases List.mem_append.mp hmem with hlog | hl
  · exact Or.inl ⟨hlog, hdot, fun hyes => hno (hyes.append l)⟩
  · exact Or.inr hl

theorem Unsettled.of_read {log : List Event} {path p : List Byte} {name n : Name}
    (h : Unsettled (log ++ [.dread path name]) p n) : Unsettled log p n ∨ p = path ∧ n = name := by
  rcases h.of_append with h | h
  · exact Or.inl h
  · rw [List.mem_singleton] at h
    cases h
    exact Or.inr ⟨rfl, rfl⟩

theorem Ordered.append {log : List Event} {e : Event} (h : Ordered log)
    (he : ∀ path res name, e = .rmdir path res → ¬Unsettled log path name) :
    Ordered (log ++ [e]) := by
  intro before path res after heq name
  rcases List.eq_nil_or_concat after with rfl | ⟨after, e', rfl⟩
  · obtain ⟨rfl, hlast⟩ := List.append_inj' heq rfl
    exact he path res name (List.singleton_inj.mp hlast)
  · have heq' : log ++ [e] = (before ++ Event.rmdir path res :: after) ++ [e'] := by
      rw [heq, List.concat_eq_append, List.append_assoc]
      rfl
    obtain ⟨rfl, -⟩ := List.append_inj' heq' rfl
    exact h before path res after rfl name

theorem Ready.read {path : List Byte} {log : List Event} (h : Ready path log) (name : Name)
    {path' : List Byte} (hlen : path.length < path'.length) :
    Ready path' (log ++ [.dread path name]) := by
  refine ⟨h.ordered.append (by simp), fun p n hun => ?_⟩
  rcases hun.of_read with hun | ⟨rfl, -⟩
  · exact (h.above p n hun).trans hlen
  · exact hlen

namespace Settles

variable {path : List Byte} {log log' log'' : List Event}

theorem refl (path : List Byte) (log : List Event) : Settles path log log :=
  ⟨Ready.ordered, fun _ _ h => h⟩

theorem ready (h : Settles path log log') (hready : Ready path log) : Ready path log' :=
  ⟨h.ordered hready, fun p n hun => hready.above p n (h.settled p n hun)⟩

theorem trans (h : Settles path log log') (h' : Settles path log' log'') :
    Settles path log log'' :=
  ⟨fun hready => h'.ordered (h.ready hready), fun p n hun => h.settled p n (h'.settled p n hun)⟩

theorem dot {name : Name} (h : name.isDot = true) (path : List Byte) (log : List Event) :
    Settles path log (log ++ [.dread path name]) := by
  refine ⟨fun hready => hready.ordered.append (by simp), fun p n hun => ?_⟩
  rcases hun.of_read with hun' | ⟨rfl, rfl⟩
  · exact hun'
  · rw [hun.2.1] at h
    cases h

/-- An entry has been read, and then removed. -/
theorem entry {name : Name}
    (h : ∀ p n, Unsettled log' p n → Unsettled (log ++ [.dread path name]) p n)
    (hremoved : Removed (entryPath path name) log') (hordered : Ready path log → Ordered log') :
    Settles path log log' := by
  refine ⟨hordered, fun p n hun => ?_⟩
  rcases (h p n hun).of_read with hun' | ⟨rfl, rfl⟩
  · exact hun'
  · exact absurd hremoved hun.2.2

theorem remove (path p : List Byte) (res : Int) (log : List Event) :
    Settles path log (log ++ [.remove p res]) := by
  refine ⟨fun hready => hready.ordered.append (by simp), fun q n hun => ?_⟩
  exact hun.of_append.resolve_right (by simp)

theorem rmdir (path : List Byte) (res : Int) (log : List Event) :
    Settles path log (log ++ [.rmdir path res]) := by
  refine ⟨fun hready => hready.ordered.append ?_, fun q n hun => ?_⟩
  · intro p r n heq hun
    cases heq
    exact lt_irrefl _ (hready.above path n hun)
  · exact hun.of_append.resolve_right (by simp)

end Settles

/-! ### Calls -/

variable {κ : Type} [DecidableEq κ]

theorem sceIoRemove_spec (naming : Naming κ) (failure : Option Failure) (path : List Byte)
    (fs : FileSystem κ) : ∃ res t, sceIoRemove naming failure path fs = (res, t) ∧
      FileTree.Shrinks (naming.locate path) fs t ∧
      (0 ≤ res → t.node (naming.locate path) = none) ∧
      (failure = none → (∃ c, fs.node (naming.locate path) = some (.file c)) → 0 ≤ res) := by
  cases failure with
  | some f =>
    have hneg := f.negative
    exact ⟨f.code, fs, rfl, .refl _ _, by omega, by simp⟩
  | none =>
    cases hnode : fs.node (naming.locate path) with
    | none =>
      exact ⟨sceErrorErrnoEnoent, fs, by rw [sceIoRemove.eq_def, hnode], .refl _ _,
        fun h => absurd h (by decide), by simp⟩
    | some n =>
      cases n with
      | dir =>
        exact ⟨sceErrorErrnoEisdir, fs, by rw [sceIoRemove.eq_def, hnode], .refl _ _,
        fun h => absurd h (by decide), by simp⟩
      | file c =>
        exact ⟨0, fs.remove (naming.locate path), by rw [sceIoRemove.eq_def, hnode], .remove _ _,
          fun _ => FileTree.node_remove_file hnode, fun _ _ => le_rfl⟩

theorem sceIoRmdir_spec (naming : Naming κ) (failure : Option Failure) (path : List Byte)
    (fs : FileSystem κ) : ∃ res t, sceIoRmdir naming failure path fs = (res, t) ∧
      FileTree.Shrinks (naming.locate path) fs t ∧
      (0 ≤ res → t.node (naming.locate path) = none) ∧
      (failure = none → fs.node (naming.locate path) = some .dir →
        (∀ k, fs.node (naming.locate path ++ [k]) = none) → 0 ≤ res) := by
  cases failure with
  | some f =>
    have hneg := f.negative
    exact ⟨f.code, fs, rfl, .refl _ _, by omega, by simp⟩
  | none =>
    cases hnode : fs.node (naming.locate path) with
    | none =>
      exact ⟨sceErrorErrnoEnoent, fs, by rw [sceIoRmdir.eq_def, hnode], .refl _ _,
        fun h => absurd h (by decide), by simp⟩
    | some n =>
      cases n with
      | dir =>
        refine ⟨_, fs.rmdir (naming.locate path), by rw [sceIoRmdir.eq_def, hnode],
          .rmdir _ _, ?_, ?_⟩
        · intro h
          by_contra hne
          rw [if_neg hne] at h
          exact absurd h (by decide)
        · intro _ _ hempty
          rw [if_pos (FileTree.node_rmdir_empty hnode hempty)]
      | file c =>
        exact ⟨sceErrorErrnoEnotdir, fs, by rw [sceIoRmdir.eq_def, hnode], .refl _ _,
        fun h => absurd h (by decide), by simp⟩

theorem remove_spec (device : Device κ) (path : List Byte) (s : Removing κ) :
    ∃ res t, s.remove device path = (res, t) ∧ t.log = s.log ++ [.remove path res] ∧
      FileTree.Shrinks (device.naming.locate path) s.fs t.fs ∧
      (0 ≤ res → t.fs.node (device.naming.locate path) = none) ∧
      (device.failure s.calls = none →
        (∃ c, s.fs.node (device.naming.locate path) = some (.file c)) → 0 ≤ res) := by
  obtain ⟨res, t, heq, h⟩ := sceIoRemove_spec device.naming (device.failure s.calls) path s.fs
  exact ⟨res, { s with fs := t, calls := s.calls + 1, log := s.log ++ [.remove path res] },
    by rw [Removing.remove, heq], rfl, h⟩

theorem rmdir_spec (device : Device κ) (path : List Byte) (s : Removing κ) :
    ∃ res t, s.rmdir device path = (res, t) ∧ t.log = s.log ++ [.rmdir path res] ∧
      FileTree.Shrinks (device.naming.locate path) s.fs t.fs ∧
      (0 ≤ res → t.fs.node (device.naming.locate path) = none) ∧
      (device.failure s.calls = none → s.fs.node (device.naming.locate path) = some .dir →
        (∀ k, s.fs.node (device.naming.locate path ++ [k]) = none) → 0 ≤ res) := by
  obtain ⟨res, t, heq, h⟩ := sceIoRmdir_spec device.naming (device.failure s.calls) path s.fs
  exact ⟨res, { s with fs := t, calls := s.calls + 1, log := s.log ++ [.rmdir path res] },
    by rw [Removing.rmdir, heq], rfl, h⟩

omit [DecidableEq κ] in
@[simp] theorem report_fs (param : Option SFileProcessParam) (s : Removing κ) :
    (s.report param).2.fs = s.fs := by
  cases param <;> rfl

omit [DecidableEq κ] in
@[simp] theorem report_log (param : Option SFileProcessParam) (s : Removing κ) :
    (s.report param).2.log = s.log := by
  cases param <;> rfl

/-- `cancelHandler` never asks for an end. -/
def NeverCancels (param : Option SFileProcessParam) : Prop :=
  ∀ n, (param.bind SFileProcessParam.cancelHandler).any (· n) = false

omit [DecidableEq κ] in
theorem report_of_never {param : Option SFileProcessParam} (h : NeverCancels param)
    (s : Removing κ) :
    (s.report param).1 = false := by
  cases param with
  | none => rfl
  | some p => exact h s.calls

omit [DecidableEq κ] in
theorem afterRemoval_spec (param : Option SFileProcessParam) (res : Int) (s : Removing κ) :
    ∃ ret t, afterRemoval param (res, s) = (ret, t) ∧ t.fs = s.fs ∧ t.log = s.log ∧
      (ret ≤ 0 ∨ ret = 1) ∧ (ret = 1 → 0 ≤ res) ∧ (0 ≤ res → NeverCancels param → ret = 1) := by
  by_cases hres : res < 0
  · exact ⟨res, s, if_pos hres, rfl, rfl, by omega, by omega, by omega⟩
  · have heq : afterRemoval param (res, s) =
        (if (s.report param).1 then 0 else 1, (s.report param).2) := if_neg hres
    refine ⟨_, _, heq, report_fs _ _, report_log _ _, ?_, by omega, fun _ hnever => ?_⟩
    · cases (s.report param).1 <;> simp
    · rw [report_of_never hnever]
      rfl

/-! ### Directories -/

/-- The keys of the names but `.` and `..`. -/
def entryKeys (naming : Naming κ) (names : List Name) : List κ :=
  (names.filter fun name => !name.isDot).map naming.key

/-- The names are those of the entries of the directory `path`, each once and in any order. -/
structure Lists (naming : Naming κ) (path : List Byte) (names : List Name) (fs : FileSystem κ) :
    Prop where
  once : (entryKeys naming names).Nodup
  every : ∀ k, k ∈ entryKeys naming names ↔ fs.node (naming.locate path ++ [k]) ≠ none

/-- `sceIoDread` goes once through the entries of every directory that is
left of those in `start`. -/
def Device.Listed (device : Device κ) (start : FileSystem κ) : Prop :=
  ∀ n path fs, FileTree.Shrinks [] start fs → fs.node (device.naming.locate path) = some .dir →
    Lists device.naming path (device.listing n path fs) fs

/-- Every full path at or below `path` is shorter than `MAX_PATH_LENGTH`. -/
def Short (naming : Naming κ) (path : List Byte) (fs : FileSystem κ) : Prop :=
  ∀ names : List Name, (∀ name ∈ names, name.isDot = false) →
    fs.node (naming.locate (names.foldl join path)) ≠ none →
      (names.foldl join path).length < maxPathLength

/-- No call fails and nothing cancels. -/
def Undisturbed (device : Device κ) (param : Option SFileProcessParam) : Prop :=
  (∀ n, device.failure n = none) ∧ NeverCancels param

theorem Short.join {naming : Naming κ} {path : List Byte} {fs : FileSystem κ} {name : Name}
    (h : Short naming path fs) (hdot : name.isDot = false) : Short naming (join path name) fs := by
  intro names hnames
  exact h (name :: names) (by simpa [hdot] using hnames)

theorem Short.entryPath {naming : Naming κ} {path : List Byte}
    {start fs : FileSystem κ} {name : Name} (h : Short naming path start)
    (hshrinks : FileTree.Shrinks [] start fs)
    (hdot : name.isDot = false) (hnode : fs.node (naming.locate path ++ [naming.key name]) ≠ none) :
    entryPath path name = File.join path name := by
  rw [← naming.locate_join path name hdot] at hnode
  exact entryPath_eq_iff.mpr (h [name] (by simp [hdot]) (hshrinks.ne_none hnode))

namespace Lists

variable {naming : Naming κ} {path : List Byte} {name : Name} {rest : List Name}
  {fs t : FileSystem κ}

theorem dot (h : Lists naming path (name :: rest) fs) (hdot : name.isDot = true) :
    Lists naming path rest fs := by
  have hkeys : entryKeys naming (name :: rest) = entryKeys naming rest := by simp [entryKeys, hdot]
  exact ⟨hkeys ▸ h.once, fun k => hkeys ▸ h.every k⟩

omit [DecidableEq κ] in
theorem keys_cons (hdot : name.isDot = false) :
    entryKeys naming (name :: rest) = naming.key name :: entryKeys naming rest := by
  simp [entryKeys, hdot]

theorem node_ne_none (h : Lists naming path (name :: rest) fs) (hdot : name.isDot = false) :
    fs.node (naming.locate path ++ [naming.key name]) ≠ none := by
  rw [← h.every, keys_cons hdot]
  exact List.mem_cons_self

/-- When an entry has been removed, the others are still to come. -/
theorem next (h : Lists naming path (name :: rest) fs) (hdot : name.isDot = false)
    (hshrinks : FileTree.Shrinks (naming.locate path ++ [naming.key name]) fs t)
    (hgone : t.node (naming.locate path ++ [naming.key name]) = none) :
    Lists naming path rest t := by
  have honce := h.once
  rw [keys_cons hdot, List.nodup_cons] at honce
  refine ⟨honce.2, fun k => ?_⟩
  by_cases hk : k = naming.key name
  · subst hk
    exact iff_of_false honce.1 (by simp [hgone])
  · rw [hshrinks.outside _ (by simp [List.prefix_append_right_inj, Ne.symm hk]), ← h.every,
      keys_cons hdot]
    simp [hk]

end Lists

/-! ### Whole removals -/

/-- What the loop over the entries of `path` does. -/
structure EntriesRemoval (device : Device κ) (param : Option SFileProcessParam) (path : List Byte)
    (s : Removing κ) (res : Option Int) (t : Removing κ) : Prop where
  empties : FileTree.Empties (device.naming.locate path) s.fs t.fs
  refused : ∀ ret, res = some ret → ret ≤ 0
  ordered : Ready path s.log → Ordered t.log
  settled : res = none → Settles path s.log t.log
  complete : Undisturbed device param →
    res = none ∧ ∀ k, t.fs.node (device.naming.locate path ++ [k]) = none

/-- What `s_removePath` does. -/
structure Removal (device : Device κ) (param : Option SFileProcessParam) (path : List Byte)
    (s : Removing κ) (ret : Int) (t : Removing κ) : Prop where
  shrinks : FileTree.Shrinks (device.naming.locate path) s.fs t.fs
  returns : ret ≤ 0 ∨ ret = 1
  gone : ret = 1 → t.fs.node (device.naming.locate path) = none
  ordered : Ready path s.log → Ordered t.log
  settled : ret = 1 → (∀ p name, Unsettled t.log p name → Unsettled s.log p name) ∧
    Removed path t.log
  complete : Undisturbed device param → ret = 1

theorem EntriesRemoval.after {device : Device κ} {param : Option SFileProcessParam}
    {path : List Byte} {s u t : Removing κ} {res : Option Int}
    (hempties : FileTree.Empties (device.naming.locate path) s.fs u.fs)
    (hsettles : Settles path s.log u.log) (h : EntriesRemoval device param path u res t) :
    EntriesRemoval device param path s res t where
  empties := hempties.trans h.empties
  refused := h.refused
  ordered hready := h.ordered (hsettles.ready hready)
  settled hres := hsettles.trans (h.settled hres)
  complete := h.complete

theorem EntriesRemoval.stopped {device : Device κ} {param : Option SFileProcessParam}
    {path : List Byte} {s t : Removing κ} {ret : Int}
    (hempties : FileTree.Empties (device.naming.locate path) s.fs t.fs) (hret : ret ≤ 0)
    (hordered : Ready path s.log → Ordered t.log) (hdisturbed : ¬Undisturbed device param) :
    EntriesRemoval device param path s (some ret) t where
  empties := hempties
  refused := by rintro _ ⟨⟩; exact hret
  ordered := hordered
  settled h := by cases h
  complete h := absurd h hdisturbed

theorem Removal.of_advance {device : Device κ} {param : Option SFileProcessParam} {path : List Byte}
    {s t : Removing κ} {ret : Int} (h : Removal device param path s.advance ret t) :
    Removal device param path s ret t :=
  ⟨h.shrinks, h.returns, h.gone, h.ordered, h.settled, h.complete⟩

/-- What a call of `s_removePath` with fuel for the depth of the directories finds. -/
structure Reaches (naming : Naming κ) (start : FileSystem κ) (fuel : Nat) (path : List Byte)
    (fs : FileSystem κ) : Prop where
  shrunk : FileTree.Shrinks [] start fs
  short : Short naming path start
  present : fs.node (naming.locate path) ≠ none
  depth : ∀ l, start.node l ≠ none → l.length < (naming.locate path).length + fuel

section

variable {device : Device κ} {param : Option SFileProcessParam} {start : FileSystem κ}

theorem length_lt_join (path : List Byte) (name : Name) :
    path.length < (join path name).length := by
  have := List.length_pos_iff.mpr name.nonempty
  rw [join_eq, List.length_append, List.length_append]
  omega

/-- The entry `name` of `path` has been read and removed. -/
structure EntryRemoved (device : Device κ) (path : List Byte) (name : Name) (s t : Removing κ) :
    Prop where
  shrinks : FileTree.Shrinks (device.naming.locate path ++ [device.naming.key name]) s.fs t.fs
  gone : t.fs.node (device.naming.locate path ++ [device.naming.key name]) = none
  settles : Settles path s.log t.log

theorem EntryRemoved.report {path : List Byte} {name : Name} {s t : Removing κ}
    (h : EntryRemoved device path name s t) :
    EntryRemoved device path name s (t.report param).2 where
  shrinks := by rw [report_fs]; exact h.shrinks
  gone := by rw [report_fs]; exact h.gone
  settles := by rw [report_log]; exact h.settles

section Entry

variable {path : List Byte} {name : Name} {s : Removing κ} (hname : name.isDot = false)
  (hpath : entryPath path name = join path name)
include hname hpath

/-- An entry that is a directory: the loop ends with it, or it has been removed. -/
theorem entry_directory {ret : Int} {t : Removing κ}
    (h : Removal device param (join path name) (s.read path name) ret t) :
    ret ≤ 0 ∧ EntriesRemoval device param path s (some ret) t ∨
      ret = 1 ∧ EntryRemoved device path name s t := by
  have hlocate := device.naming.locate_join path name hname
  have hshrinks := h.shrinks
  have hordered : Ready path s.log → Ordered t.log := fun hready =>
    h.ordered (hready.read name (length_lt_join path name))
  rw [hlocate] at hshrinks
  rcases h.returns with hret | rfl
  · refine Or.inl ⟨hret, .stopped (.of_child hshrinks) hret hordered fun hno => ?_⟩
    have hone := h.complete hno
    omega
  · obtain ⟨hsettled, hremoved⟩ := h.settled rfl
    refine Or.inr ⟨rfl, hshrinks, ?_, .entry hsettled (hpath ▸ hremoved) hordered⟩
    rw [← hlocate]
    exact h.gone rfl

variable (param) in
/-- An entry that is a file: `sceIoRemove` fails, or has removed it. -/
theorem entry_file
    (hfile : ∃ c, s.fs.node (device.naming.locate path ++ [device.naming.key name]) =
      some (.file c)) :
    ∃ res t, (s.read path name).remove device (join path name) = (res, t) ∧
      (res < 0 ∧ EntriesRemoval device param path s (some res) t ∨
        0 ≤ res ∧ EntryRemoved device path name s t) := by
  obtain ⟨res, t, heq, hlog, hshrinks, hgone, hdone⟩ :=
    remove_spec device (join path name) (s.read path name)
  rw [device.naming.locate_join path name hname] at hshrinks hgone hdone
  have hordered : Ready path s.log → Ordered t.log := fun hready => by
    rw [hlog]
    exact (hready.ordered.append (by simp)).append (by simp)
  refine ⟨res, t, heq, ?_⟩
  by_cases hres : res < 0
  · refine Or.inl ⟨hres, .stopped (.of_child hshrinks) hres.le hordered fun hno => ?_⟩
    have hnonneg := hdone (hno.1 _) hfile
    omega
  · have hnonneg : 0 ≤ res := by omega
    have hsettled : ∀ p n, Unsettled t.log p n → Unsettled (s.log ++ [.dread path name]) p n := by
      intro p n hun
      rw [hlog] at hun
      exact hun.of_append.resolve_right (by simp)
    have hremoved : Removed (entryPath path name) t.log := by
      rw [hlog, hpath]
      exact ⟨res, hnonneg, by simp⟩
    exact Or.inr ⟨hnonneg, hshrinks, hgone hnonneg, .entry hsettled hremoved hordered⟩

variable {removePath : List Byte → Removing κ → Option (Int × Removing κ)} {rest : List Name}
  (hread : device.failure s.calls = none)
  (hnext : ∀ u, EntryRemoved device path name s u →
    ∃ res t, removeEntries device param removePath path rest u = some (res, t) ∧
      EntriesRemoval device param path s res t)
include hread hnext

/-- The loop at an entry that is a directory, when it goes on with the others as it should. -/
theorem removeEntries_directory {ret : Int} {t : Removing κ}
    (hdir : (s.fs.node (device.naming.locate path ++ [device.naming.key name])).any Node.isDir)
    (heq : removePath (join path name) (s.read path name) = some (ret, t))
    (h : Removal device param (join path name) (s.read path name) ret t) :
    ∃ res t, removeEntries device param removePath path (name :: rest) s = some (res, t) ∧
      EntriesRemoval device param path s res t := by
  rw [removeEntries, hread]
  dsimp only
  rw [if_neg (by simp [hname]), if_pos hdir, hpath, heq]
  dsimp only
  rcases entry_directory hname hpath h with ⟨hret, hstopped⟩ | ⟨rfl, hremoved⟩
  · rw [if_pos hret]
    exact ⟨some ret, t, rfl, hstopped⟩
  · rw [if_neg (by decide)]
    exact hnext t hremoved

/-- The loop at an entry that is a file, when it goes on with the others as it should. -/
theorem removeEntries_file
    (hdir : ¬(s.fs.node (device.naming.locate path ++ [device.naming.key name])).any Node.isDir)
    (hpresent : s.fs.node (device.naming.locate path ++ [device.naming.key name]) ≠ none) :
    ∃ res t, removeEntries device param removePath path (name :: rest) s = some (res, t) ∧
      EntriesRemoval device param path s res t := by
  have hfile : ∃ c, s.fs.node (device.naming.locate path ++ [device.naming.key name]) =
      some (.file c) := by
    obtain ⟨n, hn⟩ := Option.ne_none_iff_exists'.mp hpresent
    obtain ⟨c, rfl⟩ := Node.exists_file (n := n) (by simpa [hn] using hdir)
    exact ⟨c, hn⟩
  rw [removeEntries, hread]
  dsimp only
  rw [if_neg (by simp [hname]), if_neg hdir, hpath]
  obtain ⟨res, t, heq, ⟨hres, hstopped⟩ | ⟨hres, hremoved⟩⟩ := entry_file param hname hpath hfile
  · rw [heq]
    dsimp only
    rw [if_pos hres]
    exact ⟨some res, t, rfl, hstopped⟩
  · rw [heq]
    dsimp only
    rw [if_neg (by omega)]
    have hreported : EntryRemoved device path name s (t.report param).2 := hremoved.report
    split
    · rename_i hcancelled
      refine ⟨some 0, _, rfl, .stopped (.of_child hreported.shrinks) le_rfl
        hreported.settles.ordered fun hno => ?_⟩
      rw [report_of_never hno.2] at hcancelled
      cases hcancelled
    · exact hnext _ hreported

end Entry

theorem removeEntries_spec {fuel : Nat} {path : List Byte}
    {removePath : List Byte → Removing κ → Option (Int × Removing κ)}
    (hrec : ∀ path s, Reaches device.naming start fuel path s.fs →
      ∃ ret t, removePath path s = some (ret, t) ∧ Removal device param path s ret t)
    (hshort : Short device.naming path start)
    (hdepth : ∀ l, start.node l ≠ none → l.length < (device.naming.locate path).length + (fuel + 1))
    (names : List Name) :
    ∀ s, FileTree.Shrinks [] start s.fs → Lists device.naming path names s.fs →
      ∃ res t, removeEntries device param removePath path names s = some (res, t) ∧
        EntriesRemoval device param path s res t := by
  induction names with
  | nil =>
    intro s hshrunk hlists
    refine ⟨none, s.advance, rfl, .refl _ _, by simp, Ready.ordered,
      fun _ => .refl _ _, fun _ => ?_⟩
    refine ⟨rfl, fun k => ?_⟩
    simpa [entryKeys, Removing.advance] using hlists.every k
  | cons name rest ih =>
    intro s hshrunk hlists
    cases hread : device.failure s.calls with
    | some f =>
      rw [removeEntries, hread]
      refine ⟨none, s.advance, rfl, .refl _ _, by simp, Ready.ordered,
        fun _ => .refl _ _, fun h => ?_⟩
      rw [h.1] at hread
      cases hread
    | none =>
      by_cases hdot : name.isDot = true
      · rw [removeEntries, hread]
        dsimp only
        rw [if_pos hdot]
        obtain ⟨res, t, heq, h⟩ := ih (s.read path name) hshrunk (hlists.dot hdot)
        exact ⟨res, t, heq, .after (u := s.read path name) (.refl _ _) (.dot hdot _ _) h⟩
      have hname : name.isDot = false := by simpa using hdot
      have hpresent := hlists.node_ne_none hname
      have hpath := hshort.entryPath hshrunk hname hpresent
      -- the loop goes on with the other entries once this one is gone
      have hnext : ∀ u, EntryRemoved device path name s u →
          ∃ res t, removeEntries device param removePath path rest u = some (res, t) ∧
            EntriesRemoval device param path s res t := by
        intro u hu
        obtain ⟨res, t, heq, h⟩ := ih u (hshrunk.trans (hu.shrinks.mono List.nil_prefix))
          (hlists.next hname hu.shrinks hu.gone)
        exact ⟨res, t, heq, h.after (.of_child hu.shrinks) hu.settles⟩
      by_cases hdir :
          (s.fs.node (device.naming.locate path ++ [device.naming.key name])).any Node.isDir = true
      · have hlocate := device.naming.locate_join path name hname
        have hreaches : Reaches device.naming start fuel (join path name)
            (s.read path name).fs := by
          refine ⟨hshrunk, hshort.join hname, by rw [hlocate]; exact hpresent, fun l hl => ?_⟩
          have hlen := hdepth l hl
          rw [hlocate, List.length_append, List.length_singleton]
          omega
        obtain ⟨ret, t, heq, h⟩ := hrec (join path name) (s.read path name) hreaches
        exact removeEntries_directory hname hpath hread hnext hdir heq h
      · exact removeEntries_file hname hpath hread hnext hdir hpresent

/-- The end of a removal, after the call on the path itself. -/
theorem afterRemoval_removal {path : List Byte} {s t : Removing κ} {res : Int}
    (hshrinks : FileTree.Shrinks (device.naming.locate path) s.fs t.fs)
    (hgone : 0 ≤ res → t.fs.node (device.naming.locate path) = none)
    (hsettles : Settles path s.log t.log) (hremoved : 0 ≤ res → Removed path t.log)
    (hdone : Undisturbed device param → 0 ≤ res) :
    ∃ ret u, afterRemoval param (res, t) = (ret, u) ∧ Removal device param path s ret u := by
  obtain ⟨ret, u, heq, hfs, hlog, hreturns, hone, hnever⟩ := afterRemoval_spec param res t
  refine ⟨ret, u, heq, ?_, hreturns, fun hret => ?_, ?_, fun hret => ?_, fun hno => ?_⟩
  · rw [hfs]
    exact hshrinks
  · rw [hfs]
    exact hgone (hone hret)
  · rw [hlog]
    exact hsettles.ordered
  · rw [hlog]
    exact ⟨hsettles.settled, hremoved (hone hret)⟩
  · exact hnever (hdone hno) hno.2

theorem sRemovePath_spec (hlisted : device.Listed start) (fuel : Nat) :
    ∀ path s, Reaches device.naming start fuel path s.fs →
      ∃ ret t, sRemovePath device param fuel path s = some (ret, t) ∧
        Removal device param path s ret t := by
  induction fuel with
  | zero =>
    intro path s h
    exact absurd (h.depth _ (h.shrunk.ne_none h.present)) (lt_irrefl _)
  | succ fuel ih =>
    intro path s h
    rw [sRemovePath]
    split
    · rename_i hopen
      have hdir := sceIoDopen_nonneg hopen
      obtain ⟨res, t, heq, hentries⟩ := removeEntries_spec ih h.short h.depth _ s.advance h.shrunk
        (hlisted s.calls path s.fs h.shrunk hdir)
      rw [heq]
      cases res with
      | some ret =>
        have hret := hentries.refused ret rfl
        refine ⟨ret, t, rfl, hentries.empties.toShrinks, Or.inl hret, by omega, hentries.ordered,
          by omega, fun hno => ?_⟩
        cases (hentries.complete hno).1
      | none =>
        obtain ⟨res, u, hrmdir, hlog, hshrinks, hgone, hdone⟩ := rmdir_spec device path t
        have hsettles := (hentries.settled rfl).trans (.rmdir path res t.log)
        rw [← hlog] at hsettles
        obtain ⟨ret, v, hafter, hremoval⟩ := afterRemoval_removal
          (hentries.empties.toShrinks.trans hshrinks) hgone hsettles
          (fun hres => ⟨res, hres, by simp [hlog]⟩)
          fun hno => hdone (hno.1 _) (hentries.empties.stays.trans hdir) (hentries.complete hno).2
        refine ⟨ret, v, ?_, hremoval.of_advance⟩
        simp only [hrmdir, hafter]
    · rename_i hclosed
      obtain ⟨res, u, hremove, hlog, hshrinks, hgone, hdone⟩ := remove_spec device path s.advance
      have hsettles := Settles.remove path path res s.advance.log
      rw [← hlog] at hsettles
      have hfile : Undisturbed device param →
          ∃ c, s.fs.node (device.naming.locate path) = some (.file c) := by
        intro hno
        obtain ⟨n, hn⟩ := Option.ne_none_iff_exists'.mp h.present
        cases n with
        | dir => simp [hno.1, sceIoDopen_dir hn] at hclosed
        | file c => exact ⟨c, hn⟩
      obtain ⟨ret, v, hafter, hremoval⟩ := afterRemoval_removal hshrinks hgone hsettles
        (fun hres => ⟨res, hres, by simp [hlog]⟩) fun hno => hdone (hno.1 _) (hfile hno)
      exact ⟨ret, v, by rw [hremove, hafter], hremoval.of_advance⟩

end

/-! ### Fuel -/

section

variable {device : Device κ} {param : Option SFileProcessParam}

theorem removeEntries_mono {path : List Byte}
    {removePath removePath' : List Byte → Removing κ → Option (Int × Removing κ)}
    (hrec : ∀ p s r, removePath p s = some r → removePath' p s = some r) (names : List Name) :
    ∀ s r, removeEntries device param removePath path names s = some r →
      removeEntries device param removePath' path names s = some r := by
  induction names with
  | nil => exact fun _ _ h => h
  | cons name rest ih =>
    intro s r h
    rw [removeEntries] at h ⊢
    cases hfail : device.failure s.calls with
    | some f =>
      rw [hfail] at h
      exact h
    | none =>
      rw [hfail] at h
      dsimp only at h ⊢
      split at h
      · rw [if_pos ‹_›]
        exact ih _ _ h
      rw [if_neg ‹_›]
      split at h
      · rw [if_pos ‹_›]
        split at h
        · cases h
        · rename_i ret t heq
          rw [hrec _ _ _ heq]
          dsimp only
          split at h
          · rwa [if_pos ‹_›]
          · rw [if_neg ‹_›]
            exact ih _ _ h
      · rw [if_neg ‹_›]
        split at h
        · rwa [if_pos ‹_›]
        · rw [if_neg ‹_›]
          split at h
          · rwa [if_pos ‹_›]
          · rw [if_neg ‹_›]
            exact ih _ _ h

/-- More fuel does not change the result. -/
theorem sRemovePath_mono {n m : Nat} (hle : n ≤ m) :
    ∀ path s r, sRemovePath device param n path s = some r →
      sRemovePath device param m path s = some r := by
  induction n generalizing m with
  | zero =>
    intro path s r h
    cases h
  | succ n ih =>
    intro path s r h
    obtain ⟨m, rfl⟩ : ∃ k, m = k + 1 := ⟨m - 1, by omega⟩
    rw [sRemovePath] at h ⊢
    split at h
    · rw [if_pos ‹_›]
      cases hentries : removeEntries device param (sRemovePath device param n) path
          (device.listing s.calls path s.fs) s.advance with
      | none =>
        rw [hentries] at h
        cases h
      | some result =>
        rw [hentries] at h
        rw [removeEntries_mono (ih (by omega)) _ _ _ hentries]
        exact h
    · rw [if_neg ‹_›]
      exact h

end

/-- The state in which `s_removePath` is called. -/
def Removing.start (fs : FileSystem κ) (value : Option UInt64) : Removing κ :=
  ⟨fs, 0, [], value, []⟩

/-- `s_removePath` ends, removes nothing elsewhere than at or below the path, and asks for a
directory only when the entries that it has read from it are removed.  When it returns 1 nothing is
left of the path, and it returns 1 when no call fails and nothing cancels. -/
theorem remove_path_confined (device : Device κ) (param : Option SFileProcessParam)
    (path : List Byte) (fs : FileSystem κ) (value : Option UInt64) (hlisted : device.Listed fs)
    (hshort : Short device.naming path fs) (hexists : fs.node (device.naming.locate path) ≠ none) :
    ∃ ret t, (∃ n, ∀ fuel, n ≤ fuel →
        sRemovePath device param fuel path (.start fs value) = some (ret, t)) ∧
      FileTree.Shrinks (device.naming.locate path) fs t.fs ∧ Ordered t.log ∧
      (ret = 1 → ∀ r, t.fs.node (device.naming.locate path ++ r) = none) ∧
      (Undisturbed device param → ret = 1) := by
  obtain ⟨n, hn⟩ := fs.exists_depth
  have hreaches : Reaches device.naming fs n path (Removing.start fs value).fs :=
    ⟨.refl _ _, hshort, hexists, fun l hl => (hn l hl).trans_le (Nat.le_add_left _ _)⟩
  obtain ⟨ret, t, heq, h⟩ := sRemovePath_spec hlisted n path _ hreaches
  refine ⟨ret, t, ⟨n, fun fuel hfuel => sRemovePath_mono hfuel _ _ _ heq⟩, h.shrinks, h.ordered ?_,
    fun hret r => ?_, h.complete⟩
  · exact ⟨by simp [Ordered, Removing.start], by simp [Unsettled, Removing.start]⟩
  · by_contra hne
    exact FileTree.node_isPrefix (List.prefix_append _ r) hne (h.gone hret)

/-! ### A device that lists the entries among known names -/

def Device.knowing (names : List Name) : Device (List Byte) where
  naming := .caseless
  failure _ := none
  listing _ path fs := names.filter fun name =>
    (fs.node (Naming.caseless.locate path ++ [Naming.caseless.key name])).isSome

theorem lists_knowing {names : List Name} {path : List Byte} {fs : FileSystem (List Byte)}
    (hplain : ∀ name ∈ names, name.isDot = false) (honce : (names.map Naming.caseless.key).Nodup)
    (hknown : ∀ k, fs.node (Naming.caseless.locate path ++ [k]) ≠ none →
      k ∈ names.map Naming.caseless.key)
    (n : Nat) : Lists .caseless path ((Device.knowing names).listing n path fs) fs := by
  have hkeys : entryKeys .caseless ((Device.knowing names).listing n path fs) =
      ((Device.knowing names).listing n path fs).map Naming.caseless.key := by
    rw [entryKeys, List.filter_eq_self.mpr]
    intro name hname
    rw [hplain name (List.mem_filter.mp hname).1]
    rfl
  refine ⟨?_, fun k => ?_⟩
  · rw [hkeys]
    exact honce.sublist (List.filter_sublist.map _)
  · rw [hkeys, List.mem_map]
    constructor
    · rintro ⟨name, hname, rfl⟩
      exact Option.isSome_iff_ne_none.mp (List.mem_filter.mp hname).2
    · intro hnode
      obtain ⟨name, hname, rfl⟩ := List.mem_map.mp (hknown k hnode)
      exact ⟨name, List.mem_filter.mpr ⟨hname, Option.isSome_iff_ne_none.mpr hnode⟩, rfl⟩

theorem listed_knowing {names : List Name} {fs : FileSystem (List Byte)}
    (hplain : ∀ name ∈ names, name.isDot = false) (honce : (names.map Naming.caseless.key).Nodup)
    (hknown : ∀ e ∈ fs.entries, ∀ k ∈ e.1, k ∈ names.map Naming.caseless.key) :
    (Device.knowing names).Listed fs := by
  intro n path t hshrinks hdir
  refine lists_knowing hplain honce (fun k hnode => ?_) n
  obtain ⟨node, hnode'⟩ := Option.ne_none_iff_exists'.mp (hshrinks.ne_none hnode)
  exact hknown _ (FileTree.node_eq_some.mp hnode') k (by simp)

theorem short_caseless {path : List Byte} {fs : FileSystem (List Byte)}
    (h : ∀ r, fs.node (Naming.caseless.locate path ++ r) ≠ none →
      path.length + (r.map fun k => k.length + 1).sum < maxPathLength) :
    Short .caseless path fs := by
  intro names
  induction names generalizing path with
  | nil =>
    intro _ hnode
    simpa using h [] (by simpa using hnode)
  | cons name rest ih =>
    intro hplain hnode
    rw [List.foldl_cons] at hnode ⊢
    refine ih (fun r hr => ?_) (fun n hn => hplain n (by simp [hn])) hnode
    have hdot := hplain name List.mem_cons_self
    rw [Naming.caseless.locate_join path name hdot, List.append_assoc] at hr
    have hlen := h ([Naming.caseless.key name] ++ r) hr
    have hjoin : (join path name).length ≤ path.length + 1 + name.text.length := by
      rw [join_eq]
      split
      · simp
      · simp only [List.length_append, List.length_singleton]
        omega
    have hkey : (Naming.caseless.key name).length = name.text.length := List.length_map _
    simp only [List.singleton_append, List.map_cons, List.sum_cons] at hlen
    omega

def namesOfTwoDirectories : List Name :=
  [⟨ascii "ux0", by decide, by decide +kernel, by decide +kernel⟩,
    ⟨ascii "a", by decide, by decide +kernel, by decide +kernel⟩,
    ⟨ascii "b", by decide, by decide +kernel, by decide +kernel⟩, nameX]

/-- A directory with one file is removed, and the other directory is not. -/
theorem remove_path_confined_directory :
    ∃ t n, (∀ fuel, n ≤ fuel →
      sRemovePath (.knowing namesOfTwoDirectories) none fuel (ascii "ux0:/a")
        (.start twoDirectories none) = some (1, t)) ∧
      t.fs.node [ascii "ux0", ascii "a"] = none ∧
      t.fs.node [ascii "ux0", ascii "b", ascii "x"] = some (.file [2]) := by
  have hlocate : Naming.caseless.locate (ascii "ux0:/a") = [ascii "ux0", ascii "a"] := by
    decide +kernel
  have hshort : Short .caseless (ascii "ux0:/a") twoDirectories := by
    apply short_caseless
    intro r hr
    obtain ⟨node, hnode⟩ := Option.ne_none_iff_exists'.mp hr
    rw [hlocate] at hnode
    have hmem := FileTree.node_eq_some.mp hnode
    have hr : r = [] ∨ r = [ascii "x"] := by
      have hne : ascii "a" ≠ ascii "b" := by decide
      simp [twoDirectories, hne] at hmem
      exact hmem.imp And.left And.left
    rcases hr with rfl | rfl <;> decide +kernel
  obtain ⟨ret, t, ⟨n, hn⟩, hshrinks, -, hgone, hdone⟩ :=
    remove_path_confined (.knowing namesOfTwoDirectories) none (ascii "ux0:/a") twoDirectories none
      (listed_knowing (by decide +kernel) (by decide +kernel) (by decide +kernel)) hshort
      (by decide +kernel)
  obtain rfl := hdone ⟨fun _ => rfl, fun _ => rfl⟩
  refine ⟨t, n, hn, ?_, ?_⟩
  · have hnone := hgone rfl []
    rwa [List.append_nil,
      show (Device.knowing namesOfTwoDirectories).naming.locate (ascii "ux0:/a") =
        [ascii "ux0", ascii "a"] from hlocate] at hnone
  · rw [hshrinks.outside]
    · decide +kernel
    · decide +kernel

end Psp2Shell.File
