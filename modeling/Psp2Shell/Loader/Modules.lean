import Psp2Shell.CLib.Runs

/-! The loader, `psp2shell_loader/source/main.c`: its buttons load and unload the two modules, and
its table says which of them it takes for loaded. -/

namespace Psp2Shell.Loader

open CLib

/-- The rows of `modules[2]`: `psp2shell_k` and `psp2shell_m`. -/
inductive Row
  | kernel | user
deriving DecidableEq

/-- A module that the console has loaded from the path of a row. -/
structure Instance where
  row : Row
  uid : Int
deriving DecidableEq

/-- The `uid` of each row, and what is loaded on the console. -/
structure Table where
  uid : Row → Int
  loaded : List Instance

/-- The loader at its start, on a console that has loaded `before`: `config.txt` may load the
modules at boot, and they outlive the loader. -/
def Table.start (before : List Instance) : Table := ⟨fun _ => -1, before⟩

def Table.setUid (t : Table) (row : Row) (uid : Int) : Table :=
  { t with uid := Function.update t.uid row uid }

/-- What the calls of `start_module` return: the load, the start, and the unload after a start that
fails. -/
structure StartCalls where
  load : Int
  start : Int
  unload : Int
deriving DecidableEq

/-- `start_module`. -/
def Table.startModule (t : Table) (row : Row) (c : StartCalls) : Table :=
  if t.uid row ≥ 0 then t
  else if c.load < 0 then t.setUid row c.load
  else if c.start ≥ 0 then { t.setUid row c.load with loaded := ⟨row, c.load⟩ :: t.loaded }
  else
    -- the result of the unload is not looked at
    { t.setUid row (-1) with
      loaded := if c.unload ≥ 0 then t.loaded else ⟨row, c.load⟩ :: t.loaded }

/-- `stop_module`, where `ret` is what stop and unload return. -/
def Table.stopModule (t : Table) (row : Row) (ret : Int) : Table :=
  if t.uid row < 0 then t
  else if ret ≥ 0 then
    { t.setUid row (-1) with
      loaded := t.loaded.filter fun i => ¬(i.row = row ∧ i.uid = t.uid row) }
  else t

/-- The buttons: square and cross start a module, triangle and circle stop it. -/
inductive Button
  | starts (row : Row) (c : StartCalls)
  | stops (row : Row) (ret : Int)
  | prints

/-- A load gives no `uid` that a module has. -/
def Table.Fresh (t : Table) (uid : Int) : Prop := ∀ i ∈ t.loaded, i.uid ≠ uid

instance (t : Table) (uid : Int) : Decidable (t.Fresh uid) :=
  inferInstanceAs (Decidable (∀ i ∈ t.loaded, i.uid ≠ uid))

/-- A button, and `none` when the calls cannot return that. -/
def Table.step (t : Table) : Button → Option Table
  | .starts row c =>
    if t.uid row < 0 ∧ ¬t.Fresh c.load then none else some (t.startModule row c)
  | .stops row ret => some (t.stopModule row ret)
  | .prints => some t

/-- What is loaded from the path of a row. -/
def instancesOf (loaded : List Instance) (row : Row) : List Instance :=
  loaded.filter fun i => i.row = row

/-- What is loaded from the path of a row is what was before, and the one instance that the `uid` of
the row names, if there is one. -/
def Tracks (before : List Instance) (t : Table) : Prop :=
  ∀ row, instancesOf t.loaded row =
    (if t.uid row ≥ 0 then [⟨row, t.uid row⟩] else []) ++ instancesOf before row

/-- A module that does not start is unloaded. -/
def Unloads (t : Table) : Button → Prop
  | .starts row c => t.uid row < 0 → 0 ≤ c.load → c.start < 0 → 0 ≤ c.unload
  | _ => True

instance decidableUnloads (t : Table) : ∀ b, Decidable (Unloads t b)
  | .starts .. => inferInstanceAs (Decidable (_ → _))
  | .stops .. | .prints => isTrue trivial

variable {before : List Instance} {t u : Table} {row : Row}

/-- The rows name modules that have been loaded since. -/
structure Tracking (before : List Instance) (t : Table) : Prop where
  tracks : Tracks before t
  own : ∀ i ∈ before, t.uid i.row ≥ 0 → i.uid ≠ t.uid i.row

/-- `start_module`: there is nothing to do, it does not load, it runs, or it does not start. -/
inductive Starting (t : Table) (row : Row) (c : StartCalls) (u : Table) : Prop
  | loaded : 0 ≤ t.uid row → u = t → Starting t row c u
  | failed : t.uid row < 0 → c.load < 0 → u = t.setUid row c.load → Starting t row c u
  | runs : t.uid row < 0 → 0 ≤ c.load → 0 ≤ c.start →
      u = { t.setUid row c.load with loaded := ⟨row, c.load⟩ :: t.loaded } → Starting t row c u
  | unloaded : t.uid row < 0 → 0 ≤ c.load → c.start < 0 → 0 ≤ c.unload → u = t.setUid row (-1) →
      Starting t row c u
  | left : t.uid row < 0 → 0 ≤ c.load → c.start < 0 → c.unload < 0 →
      u = { t.setUid row (-1) with loaded := ⟨row, c.load⟩ :: t.loaded } → Starting t row c u

theorem startModule_cases (t : Table) (row : Row) (c : StartCalls) :
    Starting t row c (t.startModule row c) := by
  unfold Table.startModule
  split
  · exact .loaded ‹_› rfl
  · split
    · exact .failed (by omega) ‹_› rfl
    · split
      · exact .runs (by omega) (by omega) ‹_› rfl
      · by_cases hunload : c.unload ≥ 0
        · exact .unloaded (by omega) (by omega) (by omega) hunload (by rw [if_pos hunload]; rfl)
        · exact .left (by omega) (by omega) (by omega) (by omega) (by rw [if_neg hunload])

theorem setUid_same (t : Table) (row : Row) (uid : Int) : (t.setUid row uid).uid row = uid :=
  Function.update_self ..

theorem setUid_other (t : Table) {row other : Row} (h : other ≠ row) (uid : Int) :
    (t.setUid row uid).uid other = t.uid other := Function.update_of_ne h ..

/-- What was loaded before is still. -/
theorem Tracks.mem_before (h : Tracks before t) {i : Instance} (hi : i ∈ before) :
    i ∈ t.loaded := by
  have hmem : i ∈ instancesOf t.loaded i.row := by
    rw [h i.row]
    exact List.mem_append_right _ (List.mem_filter.mpr ⟨hi, by simp⟩)
  exact List.mem_of_mem_filter hmem

/-- A row without a `uid` keeps having no instance when its `uid` stays negative. -/
theorem Tracking.setUid {uid : Int} (h : Tracking before t) (hbefore : t.uid row < 0)
    (hafter : uid < 0) : Tracking before (t.setUid row uid) := by
  refine ⟨fun other => ?_, fun i hi hown => ?_⟩
  · have hsame : (t.setUid row uid).loaded = t.loaded := rfl
    rw [hsame, h.tracks other]
    by_cases heq : other = row
    · subst heq
      rw [setUid_same, if_neg (by omega), if_neg (by omega)]
    · rw [setUid_other t heq]
  · by_cases heq : i.row = row
    · rw [heq, setUid_same] at hown
      omega
    · rw [setUid_other t heq] at hown ⊢
      exact h.own i hi hown

theorem Tracking.runs {uid : Int} (h : Tracking before t) (hfresh : t.Fresh uid)
    (hbefore : t.uid row < 0) (hafter : 0 ≤ uid) :
    Tracking before { t.setUid row uid with loaded := ⟨row, uid⟩ :: t.loaded } := by
  refine ⟨fun other => ?_, fun i hi hown => ?_⟩
  · have hother := h.tracks other
    by_cases heq : other = row
    · subst heq
      rw [if_neg (by omega)] at hother
      have huid : (t.setUid other uid).uid other = uid := setUid_same t other uid
      simp only [huid, ge_iff_le, if_pos hafter]
      rw [instancesOf, List.filter_cons_of_pos (by simp)]
      exact congrArg _ hother
    · have huid : (t.setUid row uid).uid other = t.uid other := setUid_other t heq uid
      simp only [huid]
      rw [instancesOf, List.filter_cons_of_neg (by simpa using Ne.symm heq)]
      exact hother
  · have hother : i.row ≠ row → (t.setUid row uid).uid i.row = t.uid i.row :=
      fun hne => setUid_other t hne uid
    by_cases heq : i.row = row
    · have huid : (t.setUid row uid).uid i.row = uid := by rw [heq, setUid_same]
      exact fun hsame => hfresh i (h.tracks.mem_before hi) (hsame.trans huid)
    · simp only [hother heq] at hown ⊢
      exact h.own i hi hown

/-- The instance that the row names is unloaded, and no other one. -/
theorem Tracking.stops (h : Tracking before t) (huid : t.uid row ≥ 0) :
    Tracking before { t.setUid row (-1) with
      loaded := t.loaded.filter fun i => ¬(i.row = row ∧ i.uid = t.uid row) } := by
  refine ⟨fun other => ?_, fun i hi hown => ?_⟩
  · have hother := h.tracks other
    by_cases heq : other = row
    · subst heq
      have hnone : (t.setUid other (-1)).uid other = -1 := setUid_same t other (-1)
      simp only [hnone]
      rw [if_pos huid] at hother
      rw [if_neg (by decide), List.nil_append, instancesOf, List.filter_comm]
      rw [show t.loaded.filter (fun i => i.row = other) = _ from hother, List.singleton_append,
        List.filter_cons_of_neg (by simp), List.filter_eq_self]
      intro i hi
      obtain ⟨hmem, hrow⟩ := List.mem_filter.mp hi
      have hrow' : i.row = other := by simpa using hrow
      have hne := h.own i hmem (hrow' ▸ huid)
      rw [hrow'] at hne
      simpa using Or.inr hne
    · have hsame : (t.setUid row (-1)).uid other = t.uid other := setUid_other t heq (-1)
      simp only [hsame]
      rw [instancesOf, List.filter_comm]
      rw [show t.loaded.filter (fun i => i.row = other) = _ from hother, List.filter_eq_self]
      intro i hi
      have hrow : i.row = other := by
        rw [← hother] at hi
        simpa using (List.mem_filter.mp hi).2
      have hne : i.row ≠ row := hrow ▸ heq
      simpa using Or.inl hne
  · by_cases heq : i.row = row
    · have hnone : (t.setUid row (-1)).uid i.row = -1 := by rw [heq, setUid_same]
      simp only [hnone] at hown
      exact absurd hown (by decide)
    · have hsame : (t.setUid row (-1)).uid i.row = t.uid i.row := setUid_other t heq (-1)
      simp only [hsame] at hown ⊢
      exact h.own i hi hown

theorem Tracking.step {b : Button} (h : Tracking before t) (hcond : Unloads t b)
    (hstep : t.step b = some u) : Tracking before u := by
  cases b with
  | starts row c =>
    simp only [Table.step] at hstep
    split at hstep
    · cases hstep
    · rename_i hguard
      have hcases := startModule_cases t row c
      rw [Option.some.inj hstep] at hcases
      cases hcases with
      | loaded _ heq => exact heq ▸ h
      | failed hbefore hload heq => exact heq ▸ h.setUid hbefore hload
      | runs hbefore hload _ heq =>
        have hfresh : t.Fresh c.load := by
          by_contra hno
          exact hguard ⟨hbefore, hno⟩
        exact heq ▸ h.runs hfresh hbefore hload
      | unloaded hbefore _ _ _ heq => exact heq ▸ h.setUid hbefore neg_one_lt_zero
      | left hbefore hload hstart hunload =>
        have hdone := hcond hbefore hload hstart
        omega
  | stops row ret =>
    cases hstep
    unfold Table.stopModule
    split
    · exact h
    · split
      · exact h.stops (by omega)
      · exact h
  | prints =>
    cases hstep
    exact h

end Psp2Shell.Loader
