import Mathlib

/-! Trees of directories and files.  A location is a list of keys from the root, and the tree holds
at most one node at each location, under a directory. -/

namespace Psp2Shell.CLib

inductive Node (α : Type)
  | dir
  | file (content : α)
deriving DecidableEq

def Node.isDir {α : Type} : Node α → Bool
  | .dir => true
  | .file _ => false

theorem Node.eq_dir {α : Type} {n : Node α} (h : n.isDir = true) : n = .dir := by
  cases n with
  | dir => rfl
  | file c => cases h

theorem Node.exists_file {α : Type} {n : Node α} (h : n.isDir = false) : ∃ c, n = .file c := by
  cases n with
  | dir => cases h
  | file c => exact ⟨c, rfl⟩

/-- A file system: its nodes by their locations. -/
structure FileTree (κ α : Type) where
  entries : List (List κ × Node α)
  unique : (entries.map Prod.fst).Nodup
  closed : ∀ e ∈ entries, e.1 ≠ [] → (e.1.dropLast, Node.dir) ∈ entries

namespace FileTree

variable {κ α : Type} [DecidableEq κ]

/-- The node at a location. -/
def node (fs : FileTree κ α) (l : List κ) : Option (Node α) := fs.entries.lookup l

theorem lookup_eq_some {entries : List (List κ × Node α)} (h : (entries.map Prod.fst).Nodup)
    {l : List κ} {n : Node α} : entries.lookup l = some n ↔ (l, n) ∈ entries := by
  induction entries with
  | nil => simp
  | cons e entries ih =>
    obtain ⟨m, k⟩ := e
    rw [List.map_cons, List.nodup_cons] at h
    rw [List.lookup_cons, List.mem_cons, Prod.mk.injEq]
    by_cases hm : l = m
    · subst hm
      have hno : (l, n) ∉ entries := fun hmem => h.1 (List.mem_map.mpr ⟨(l, n), hmem, rfl⟩)
      simp [hno, eq_comm]
    · have hne : (l == m) = false := beq_eq_false_iff_ne.mpr hm
      simp [hne, hm, ih h.2]

theorem node_eq_some {fs : FileTree κ α} {l : List κ} {n : Node α} :
    fs.node l = some n ↔ (l, n) ∈ fs.entries :=
  lookup_eq_some fs.unique

/-- Two trees have the same node at two locations when they have the same entries there. -/
theorem node_congr {fs t : FileTree κ α} {l m : List κ}
    (h : ∀ n, (l, n) ∈ t.entries ↔ (m, n) ∈ fs.entries) : t.node l = fs.node m := by
  apply Option.ext
  intro n
  rw [node_eq_some, node_eq_some]
  exact h n

theorem eq_dir_of_any {o : Option (Node α)} (h : o.any Node.isDir = true) : o = some .dir := by
  cases o with
  | none => cases h
  | some n => rw [Node.eq_dir h]

theorem node_eq_none {fs : FileTree κ α} {l : List κ} (h : ∀ n, (l, n) ∉ fs.entries) :
    fs.node l = none :=
  Option.eq_none_iff_forall_ne_some.mpr fun n hn => h n (node_eq_some.mp hn)

/-- Above an entry is a directory. -/
theorem node_above {fs : FileTree κ α} {l r : List κ} (hr : r ≠ [])
    (h : fs.node (l ++ r) ≠ none) : fs.node l = some .dir := by
  induction r using List.reverseRecOn with
  | nil => exact absurd rfl hr
  | append_singleton r k ih =>
    obtain ⟨n, hn⟩ := Option.ne_none_iff_exists'.mp h
    have hclosed := fs.closed _ (node_eq_some.mp hn) (by simp)
    rw [← List.append_assoc, List.dropLast_concat, ← node_eq_some] at hclosed
    by_cases hnil : r = []
    · rwa [hnil, List.append_nil] at hclosed
    · exact ih hnil (by simp [hclosed])

theorem node_isPrefix {fs : FileTree κ α} {l m : List κ} (hlm : l <+: m) (h : fs.node m ≠ none) :
    fs.node l ≠ none := by
  obtain ⟨r, rfl⟩ := hlm
  by_cases hr : r = []
  · rwa [hr, List.append_nil] at h
  · simp [node_above hr h]

theorem node_below_none {fs : FileTree κ α} {l : List κ} (h : fs.node l = none) (r : List κ) :
    fs.node (l ++ r) = none := by
  by_contra hne
  exact node_isPrefix (List.prefix_append l r) hne h

/-- The nodes of a tree lie no deeper than some depth. -/
theorem exists_depth (fs : FileTree κ α) : ∃ n, ∀ l, fs.node l ≠ none → l.length < n := by
  refine ⟨(fs.entries.map fun e => e.1.length).sum + 1, fun l hl => ?_⟩
  obtain ⟨n, hn⟩ := Option.ne_none_iff_exists'.mp hl
  have hmem : l.length ∈ fs.entries.map fun e => e.1.length :=
    List.mem_map.mpr ⟨(l, n), node_eq_some.mp hn, rfl⟩
  exact Nat.lt_succ_of_le (List.le_sum_of_mem hmem)

/-! ### Removal -/

/-- Remove the file at a location, if there is one. -/
def remove (fs : FileTree κ α) (l : List κ) : FileTree κ α where
  entries := fs.entries.filter fun e => e.1 ≠ l || e.2.isDir
  unique := fs.unique.sublist (List.filter_sublist.map _)
  closed := by
    intro e he hne
    have hdir := fs.closed e (List.mem_filter.mp he).1 hne
    exact List.mem_filter.mpr ⟨hdir, by simp [Node.isDir]⟩

theorem node_remove_of_ne (fs : FileTree κ α) {l m : List κ} (h : m ≠ l) :
    (fs.remove l).node m = fs.node m := by
  apply node_congr
  intro n
  simp [remove, h]

theorem node_remove_file {fs : FileTree κ α} {l : List κ} {c : α} (h : fs.node l = some (.file c)) :
    (fs.remove l).node l = none := by
  apply node_eq_none
  intro n hn
  obtain ⟨hmem, hkeep⟩ := List.mem_filter.mp hn
  have hn' := node_eq_some.mpr hmem
  rw [h] at hn'
  cases hn'
  simp [Node.isDir] at hkeep

/-- Remove the directory at a location, if there is one and nothing is in it. -/
def rmdir (fs : FileTree κ α) (l : List κ) : FileTree κ α :=
  if h : ∀ e ∈ fs.entries, l <+: e.1 → e.1 = l then
    { entries := fs.entries.filter fun e => e.1 ≠ l || !e.2.isDir
      unique := fs.unique.sublist (List.filter_sublist.map _)
      closed := by
        intro e he hne
        have hmem := (List.mem_filter.mp he).1
        refine List.mem_filter.mpr ⟨fs.closed e hmem hne, ?_⟩
        have hout : e.1.dropLast ≠ l := by
          rintro rfl
          have hlen := congrArg List.length (h e hmem (List.dropLast_prefix e.1))
          have hpos := List.length_pos_iff.mpr hne
          rw [List.length_dropLast] at hlen
          omega
        simp [hout] }
  else fs

theorem node_rmdir_file {fs : FileTree κ α} {l m : List κ} {c : α}
    (h : fs.node m = some (.file c)) : (fs.rmdir l).node m = some (.file c) := by
  rw [rmdir]
  split
  · rw [node_eq_some] at h ⊢
    exact List.mem_filter.mpr ⟨h, by simp [Node.isDir]⟩
  · exact h

theorem node_rmdir_none {fs : FileTree κ α} {l m : List κ} (h : fs.node m = none) :
    (fs.rmdir l).node m = none := by
  rw [rmdir]
  split
  · apply node_eq_none
    intro n hn
    rw [node_eq_some.mpr (List.mem_filter.mp hn).1] at h
    cases h
  · exact h

theorem node_rmdir_of_ne (fs : FileTree κ α) {l m : List κ} (h : m ≠ l) :
    (fs.rmdir l).node m = fs.node m := by
  rw [rmdir]
  split
  · apply node_congr
    intro n
    simp [h]
  · rfl

theorem node_rmdir_empty {fs : FileTree κ α} {l : List κ} (hdir : fs.node l = some .dir)
    (hempty : ∀ k, fs.node (l ++ [k]) = none) : (fs.rmdir l).node l = none := by
  have hbelow : ∀ e ∈ fs.entries, l <+: e.1 → e.1 = l := by
    rintro ⟨m, n⟩ he ⟨r, rfl⟩
    cases r with
    | nil => exact List.append_nil l
    | cons k r =>
      have hnode : fs.node (l ++ k :: r) = some n := node_eq_some.mpr he
      have hpre : l ++ [k] <+: l ++ k :: r := ⟨r, by simp⟩
      exact absurd (hempty k) (node_isPrefix hpre (by simp [hnode]))
  rw [rmdir, dif_pos hbelow]
  apply node_eq_none
  intro n hn
  obtain ⟨hmem, hkeep⟩ := List.mem_filter.mp hn
  rw [node_eq_some.mpr hmem] at hdir
  cases hdir
  simp [Node.isDir] at hkeep

/-! ### Removals at or below a location -/

/-- Nothing has been added or replaced, and what is gone was at or below `l`. -/
structure Shrinks (l : List κ) (before after : FileTree κ α) : Prop where
  outside : ∀ m, ¬l <+: m → after.node m = before.node m
  less : ∀ m, after.node m = none ∨ after.node m = before.node m

namespace Shrinks

variable {l m : List κ} {fs t u : FileTree κ α}

theorem refl (l : List κ) (fs : FileTree κ α) : Shrinks l fs fs :=
  ⟨fun _ _ => rfl, fun _ => Or.inr rfl⟩

theorem trans (h : Shrinks l fs t) (h' : Shrinks l t u) : Shrinks l fs u := by
  refine ⟨fun m hm => (h'.outside m hm).trans (h.outside m hm), fun m => ?_⟩
  rcases h'.less m with hnone | hsame
  · exact Or.inl hnone
  · rw [hsame]
    exact h.less m

theorem mono (h : Shrinks m fs t) (hpre : l <+: m) : Shrinks l fs t :=
  ⟨fun x hx => h.outside x fun hmx => hx (hpre.trans hmx), h.less⟩

/-- Entries have gone, and none of another location than `l`. -/
theorem of_subset (hsub : t.entries ⊆ fs.entries) (hsame : ∀ m, m ≠ l → t.node m = fs.node m) :
    Shrinks l fs t := by
  refine ⟨fun m hm => hsame m ?_, fun m => ?_⟩
  · rintro rfl
    exact hm (List.prefix_refl m)
  · cases hnode : t.node m with
    | none => exact Or.inl rfl
    | some n => exact Or.inr (node_eq_some.mpr (hsub (node_eq_some.mp hnode))).symm

theorem remove (fs : FileTree κ α) (l : List κ) : Shrinks l fs (fs.remove l) :=
  of_subset (List.filter_subset_self _) fun _ hm => node_remove_of_ne fs hm

theorem rmdir (fs : FileTree κ α) (l : List κ) : Shrinks l fs (fs.rmdir l) := by
  refine of_subset ?_ fun _ hm => node_rmdir_of_ne fs hm
  rw [FileTree.rmdir]
  split
  · exact List.filter_subset_self _
  · exact List.Subset.refl _

theorem ne_none (h : Shrinks l fs t) {m : List κ} (hm : t.node m ≠ none) : fs.node m ≠ none := by
  rw [← (h.less m).resolve_left hm]
  exact hm

end Shrinks

/-- Nothing has been added or replaced, and what is gone was below `l`. -/
structure Empties (l : List κ) (before after : FileTree κ α) : Prop
    extends Shrinks l before after where
  stays : after.node l = before.node l

namespace Empties

variable {l : List κ} {fs t u : FileTree κ α}

theorem refl (l : List κ) (fs : FileTree κ α) : Empties l fs fs := ⟨.refl l fs, rfl⟩

theorem trans (h : Empties l fs t) (h' : Empties l t u) : Empties l fs u :=
  ⟨h.toShrinks.trans h'.toShrinks, h'.stays.trans h.stays⟩

theorem of_child {k : κ} (h : Shrinks (l ++ [k]) fs t) : Empties l fs t := by
  refine ⟨h.mono (List.prefix_append l [k]), h.outside l fun hpre => ?_⟩
  have := hpre.length_le
  simp at this

end Empties

/-! ### Renaming -/

inductive RenameError
  | taken
  | missing
  | inside

/-- Where a location is after `s` has been renamed to `d`. -/
def relocate (s d l : List κ) : List κ := if s <+: l then d ++ l.drop s.length else l

theorem relocate_append (s d r : List κ) : relocate s d (s ++ r) = d ++ r := by
  simp [relocate]

theorem relocate_of_not {s l : List κ} (d : List κ) (h : ¬s <+: l) : relocate s d l = l :=
  if_neg h

theorem relocate_inj {s d l m : List κ} (hl : ¬d <+: l) (hm : ¬d <+: m)
    (h : relocate s d l = relocate s d m) : l = m := by
  by_cases hsl : s <+: l
  · obtain ⟨r, rfl⟩ := hsl
    rw [relocate_append] at h
    by_cases hsm : s <+: m
    · obtain ⟨q, rfl⟩ := hsm
      rw [relocate_append] at h
      rw [List.append_cancel_left h]
    · rw [relocate_of_not d hsm] at h
      exact absurd ⟨r, h⟩ hm
  · rw [relocate_of_not d hsl] at h
    by_cases hsm : s <+: m
    · obtain ⟨q, rfl⟩ := hsm
      rw [relocate_append] at h
      exact absurd ⟨q, h.symm⟩ hl
    · rwa [relocate_of_not d hsm] at h

theorem not_isPrefix_of_mem {fs : FileTree κ α} {d : List κ} (hd : fs.node d = none)
    {e : List κ × Node α} (he : e ∈ fs.entries) : ¬d <+: e.1 := by
  intro hpre
  have hnode : fs.node e.1 = some e.2 := node_eq_some.mpr he
  exact node_isPrefix hpre (by simp [hnode]) hd

theorem relocate_unique {fs : FileTree κ α} {d : List κ} (hd : fs.node d = none) (s : List κ) :
    ((fs.entries.map fun e => (relocate s d e.1, e.2)).map Prod.fst).Nodup := by
  have hmap : (fs.entries.map fun e => (relocate s d e.1, e.2)).map Prod.fst =
      (fs.entries.map Prod.fst).map (relocate s d) := by
    rw [List.map_map, List.map_map]
    rfl
  rw [hmap]
  apply fs.unique.map_on
  intro l hl m hm h
  obtain ⟨e, he, rfl⟩ := List.mem_map.mp hl
  obtain ⟨f, hf, rfl⟩ := List.mem_map.mp hm
  exact relocate_inj (not_isPrefix_of_mem hd he) (not_isPrefix_of_mem hd hf) h

theorem relocate_closed {fs : FileTree κ α} {s d : List κ} (hinside : ¬s <+: d)
    (hparent : (d.dropLast, Node.dir) ∈ fs.entries) :
    ∀ e ∈ fs.entries.map fun e => (relocate s d e.1, e.2), e.1 ≠ [] →
      (e.1.dropLast, Node.dir) ∈ fs.entries.map fun e => (relocate s d e.1, e.2) := by
  intro e' he' hne
  obtain ⟨⟨l, n⟩, he, rfl⟩ := List.mem_map.mp he'
  have hmoved : ∀ m, (m, Node.dir) ∈ fs.entries →
      (relocate s d m, Node.dir) ∈ fs.entries.map fun e => (relocate s d e.1, e.2) :=
    fun m hm => List.mem_map.mpr ⟨(m, Node.dir), hm, rfl⟩
  have hout : ∀ m, ¬s <+: m → relocate s d m.dropLast = m.dropLast := fun m hm =>
    relocate_of_not d fun hpre => hm (hpre.trans (List.dropLast_prefix m))
  by_cases hsl : s <+: l
  · obtain ⟨r, rfl⟩ := hsl
    simp only [relocate_append]
    by_cases hr : r = []
    · -- the renamed entry itself, whose new parent stays where it is
      subst hr
      rw [List.append_nil, ← hout d hinside]
      exact hmoved _ hparent
    · rw [List.dropLast_append_of_ne_nil hr, ← relocate_append s d]
      apply hmoved _
      rw [← List.dropLast_append_of_ne_nil hr]
      exact fs.closed _ he (by simp [hr])
  · simp only [relocate_of_not d hsl] at hne ⊢
    rw [← hout l hsl]
    exact hmoved _ (fs.closed _ he hne)

/-- Give `s` and all that is below it the location `d`, which is free and in a directory. -/
def rename (fs : FileTree κ α) (s d : List κ) : Except RenameError (FileTree κ α) :=
  if taken : (fs.node d).isSome then .error .taken
  else if (fs.node s).isNone then .error .missing
  else if inside : s <+: d then .error .inside
  else if parent : (fs.node d.dropLast).any Node.isDir then
    .ok
      { entries := fs.entries.map fun e => (relocate s d e.1, e.2)
        unique := relocate_unique (Option.not_isSome_iff_eq_none.mp taken) s
        closed := relocate_closed inside (node_eq_some.mp (eq_dir_of_any parent)) }
  else .error .missing

theorem rename_ok {fs t : FileTree κ α} {s d : List κ} (h : fs.rename s d = .ok t) :
    fs.node d = none ∧ fs.node s ≠ none ∧ ¬s <+: d ∧
      t.entries = fs.entries.map fun e => (relocate s d e.1, e.2) := by
  rw [rename] at h
  split at h
  · cases h
  rename_i taken
  split at h
  · cases h
  rename_i missing
  split at h
  · cases h
  rename_i inside
  split at h
  · cases h
    refine ⟨Option.not_isSome_iff_eq_none.mp taken, ?_, inside, rfl⟩
    simpa using missing
  · cases h

/-- Something is at `s`, and `d` is a free place for it in a directory that is not part of it. -/
structure Renamable (fs : FileTree κ α) (s d : List κ) : Prop where
  present : fs.node s ≠ none
  free : fs.node d = none
  outside : ¬s <+: d
  parent : fs.node d.dropLast = some .dir

theorem rename_isOk_iff {fs : FileTree κ α} {s d : List κ} :
    (∃ t, fs.rename s d = .ok t) ↔ fs.Renamable s d := by
  constructor
  · rintro ⟨t, h⟩
    obtain ⟨hd, hs, hinside, -⟩ := rename_ok h
    refine ⟨hs, hd, hinside, ?_⟩
    by_contra hparent
    have hany : ¬(fs.node d.dropLast).any Node.isDir = true := fun hany =>
      hparent (eq_dir_of_any hany)
    rw [rename, dif_neg (by simp [hd]), if_neg (by simp [hs]), dif_neg hinside, dif_neg hany] at h
    cases h
  · rintro ⟨hs, hd, hinside, hparent⟩
    have hany : (fs.node d.dropLast).any Node.isDir = true := by
      rw [hparent]
      rfl
    rw [rename, dif_neg (by simp [hd]), if_neg (by simp [hs]), dif_neg hinside, dif_pos hany]
    exact ⟨_, rfl⟩

theorem rename_taken {fs : FileTree κ α} {d : List κ} (h : fs.node d ≠ none) (s : List κ) :
    fs.rename s d = .error .taken :=
  dif_pos (Option.isSome_iff_ne_none.mpr h)

theorem rename_eq_taken {fs : FileTree κ α} {s d : List κ} :
    fs.rename s d = .error .taken ↔ fs.node d ≠ none := by
  refine ⟨fun h hd => ?_, fun h => rename_taken h s⟩
  rw [rename, dif_neg (by simp [hd])] at h
  split at h
  · cases h
  split at h
  · cases h
  split at h
  · cases h
  · cases h

theorem rename_missing {fs : FileTree κ α} {s d : List κ} (hd : fs.node d = none)
    (hs : fs.node s = none) : fs.rename s d = .error .missing := by
  rw [rename, dif_neg (by simp [hd]), if_pos (by simp [hs])]

theorem node_rename_old {fs t : FileTree κ α} {s d : List κ} (h : fs.rename s d = .ok t)
    (r : List κ) : t.node (s ++ r) = none := by
  obtain ⟨hd, -, hinside, hentries⟩ := rename_ok h
  apply node_eq_none
  intro n hn
  rw [hentries] at hn
  obtain ⟨⟨m, k⟩, hm, heq⟩ := List.mem_map.mp hn
  obtain ⟨hloc, -⟩ := Prod.mk.inj heq
  by_cases hsm : s <+: m
  · obtain ⟨q, rfl⟩ := hsm
    rw [relocate_append] at hloc
    have hpre : d <+: s ++ r := ⟨q, hloc⟩
    rcases List.prefix_or_prefix_of_prefix hpre (List.prefix_append s r) with hds | hsd
    · exact not_isPrefix_of_mem hd hm (hds.trans (List.prefix_append s q))
    · exact hinside hsd
  · rw [relocate_of_not d hsm] at hloc
    exact hsm ⟨r, hloc.symm⟩

/-- A renaming brings what was below the old location below the new one. -/
theorem node_rename_new {fs t : FileTree κ α} {s d : List κ} (h : fs.rename s d = .ok t)
    (r : List κ) : t.node (d ++ r) = fs.node (s ++ r) := by
  obtain ⟨hd, -, -, hentries⟩ := rename_ok h
  apply node_congr
  intro n
  rw [hentries]
  constructor
  · intro hn
    obtain ⟨⟨m, k⟩, hm, heq⟩ := List.mem_map.mp hn
    obtain ⟨hloc, rfl⟩ := Prod.mk.inj heq
    by_cases hsm : s <+: m
    · obtain ⟨q, rfl⟩ := hsm
      rw [relocate_append] at hloc
      rwa [← List.append_cancel_left hloc]
    · rw [relocate_of_not d hsm] at hloc
      exact absurd ⟨r, hloc.symm⟩ (not_isPrefix_of_mem hd hm)
  · intro hn
    exact List.mem_map.mpr ⟨_, hn, by rw [relocate_append]⟩

theorem node_rename_other {fs t : FileTree κ α} {s d l : List κ} (h : fs.rename s d = .ok t)
    (hs : ¬s <+: l) (hd : ¬d <+: l) : t.node l = fs.node l := by
  obtain ⟨-, -, -, hentries⟩ := rename_ok h
  apply node_congr
  intro n
  rw [hentries]
  constructor
  · intro hn
    obtain ⟨⟨m, k⟩, hm, heq⟩ := List.mem_map.mp hn
    obtain ⟨hloc, rfl⟩ := Prod.mk.inj heq
    by_cases hsm : s <+: m
    · obtain ⟨q, rfl⟩ := hsm
      rw [relocate_append] at hloc
      exact absurd ⟨q, hloc⟩ hd
    · rw [relocate_of_not d hsm] at hloc
      rwa [← hloc]
  · intro hn
    exact List.mem_map.mpr ⟨_, hn, by rw [relocate_of_not d hs]⟩

end FileTree

end Psp2Shell.CLib
