import Psp2Shell.File.Copied

/-! Copies of directories: each entry goes to its corresponding place, and what is below the source
stays as it is. -/

namespace Psp2Shell.File

open CLib FileTree

/-! ### The text of the paths -/

/-- The test of `s_copyPath` and `s_movePath` is for the source's text up to a slash. -/
theorem isSubfolder_iff {src dst : List Byte} :
    isSubfolder src dst = true ↔
      src ++ [slash] <+: dst ∨ src <+: dst ∧ src.getLast? = some slash := by
  rw [isSubfolder, Bool.and_eq_true, List.isPrefixOf_iff_prefix]
  constructor
  · rintro ⟨⟨rest, rfl⟩, h⟩
    rcases List.eq_nil_or_concat src with rfl | ⟨start, b, rfl⟩
    · cases rest with
      | nil => simp at h
      | cons b rest => exact Or.inl (by simpa [eq_comm] using h)
    · cases rest with
      | nil => exact Or.inr ⟨by simp, by simpa using h⟩
      | cons c rest =>
        simp at h
        rcases h with h | h
        · exact Or.inl ⟨rest, by simp [h]⟩
        · exact Or.inr ⟨by simp, by simp [h]⟩
  · rintro (⟨rest, rfl⟩ | ⟨⟨rest, rfl⟩, hlast⟩)
    · exact ⟨⟨[slash] ++ rest, by simp⟩, by simp⟩
    · obtain ⟨start, rfl⟩ := List.getLast?_eq_some_iff.mp hlast
      exact ⟨⟨rest, rfl⟩, by simp⟩

/-- The paths of an entry meet the test only when those of its directory do. -/
theorem isSubfolder_join {src dst : List Byte} {name : Name}
    (h : isSubfolder (join src name) (join dst name) = true) : isSubfolder src dst = true := by
  have hplain : slash ∉ name.text := fun hmem => (name.plain slash hmem).2.1 rfl
  rw [isSubfolder_iff, join_eq, join_eq] at h
  generalize hx : src ++ (if p2sHasEndSlash src then [] else [slash]) = x at h
  generalize hy : dst ++ (if p2sHasEndSlash dst then [] else [slash]) = y at h
  have hpre : x ++ name.text ++ [slash] <+: y ++ name.text := by
    refine h.resolve_right fun h' => hplain ?_
    rw [List.getLast?_append_of_ne_nil _ name.nonempty] at h'
    exact List.mem_of_getLast? h'.2
  -- the slash is not one of the name's
  have hpre' : x ++ name.text ++ [slash] <+: y := by
    rcases List.prefix_or_prefix_of_prefix hpre (List.prefix_append y name.text) with h' | ⟨t, ht⟩
    · exact h'
    obtain ⟨q, hq⟩ := hpre
    rw [← ht, List.append_assoc] at hq
    have htq := List.append_cancel_left hq
    rcases List.eq_nil_or_concat t with rfl | ⟨t, b, rfl⟩
    · rw [List.append_nil] at ht
      rw [ht]
    · rw [List.concat_eq_append, ← List.append_assoc] at ht
      obtain ⟨-, hb⟩ := List.append_inj' ht rfl
      refine absurd ?_ hplain
      rw [← htq, List.concat_eq_append, hb]
      simp
  have hdst : x <+: dst := by
    rw [← hy] at hpre'
    split at hpre'
    · rw [List.append_nil, List.append_assoc] at hpre'
      exact (List.prefix_append _ _).trans hpre'
    · rcases List.prefix_concat_iff.mp hpre' with heq | h'
      · obtain ⟨rfl, -⟩ := List.append_inj' heq rfl
        exact List.prefix_append _ _
      · rw [List.append_assoc] at h'
        exact (List.prefix_append _ _).trans h'
  rw [isSubfolder_iff]
  rw [← hx] at hdst
  split at hdst
  · rename_i hend
    rw [List.append_nil] at hdst
    exact Or.inr ⟨hdst, by simpa [p2sHasEndSlash] using hend⟩
  · exact Or.inl hdst

/-! ### Corresponding places -/

variable {κ : Type} [DecidableEq κ]

/-- What is at and below `s`, at and below `d`, and above `d`, goes for what a
copy finds and leaves. -/
theorem Clear.congr {s d : List κ} {fs t : FileSystem κ} (h : Clear s d fs)
    (hs : ∀ r, t.node (s ++ r) = fs.node (s ++ r)) (hd : ∀ r, t.node (d ++ r) = fs.node (d ++ r))
    (hparent : t.node d.dropLast = fs.node d.dropLast) : Clear s d t where
  present := by
    have := hs []
    rw [List.append_nil] at this
    rw [this]
    exact h.present
  parent := hparent.trans h.parent
  files r c hr := by
    rw [hd]
    exact h.files r c ((hs r).symm.trans hr)
  directories r k c hr := by
    rw [hd]
    exact h.directories r k c (by rwa [← hs])

/-- The keys are those of the entries of the directory at `l`. -/
def EntriesOf (fs : FileSystem κ) (l : List κ) (keys : List κ) : Prop :=
  ∀ k, k ∈ keys ↔ fs.node (l ++ [k]) ≠ none

theorem EntriesOf.below_none {fs : FileSystem κ} {l keys : List κ} (h : EntriesOf fs l keys) {k : κ}
    (hk : k ∉ keys) (r : List κ) : fs.node (l ++ k :: r) = none := by
  have hnone : fs.node (l ++ [k]) = none := by
    by_contra hne
    exact hk ((h k).mpr hne)
  rw [← List.singleton_append, ← List.append_assoc]
  exact node_below_none hnone r

section Directory

variable {s d keys : List κ} {fs t u : FileSystem κ} (hdir : fs.node s = some .dir)
  (hkeys : EntriesOf fs s keys) (hsame : ∀ m, m ≠ d → t.node m = fs.node m)
  (hmade : t.node d = laid (some .dir) (fs.node d)) (hs : ¬s <+: d)
include hdir hkeys hsame hmade hs

omit hdir hkeys hmade hs in
theorem same_below (k : κ) (r : List κ) : t.node (d ++ [k] ++ r) = fs.node (d ++ [k] ++ r) := by
  apply hsame
  intro h
  have := congrArg List.length h
  simp at this

omit hdir hkeys hmade in
theorem same_source (r : List κ) : t.node (s ++ r) = fs.node (s ++ r) := by
  apply hsame
  rintro rfl
  exact hs (List.prefix_append s r)

/-- A directory has a place at `d` when its entries have theirs once `d` has been made. -/
theorem clear_dir (hparent : fs.node d.dropLast = some .dir)
    (h : ∀ k ∈ keys, Clear (s ++ [k]) (d ++ [k]) t) : Clear s d fs := by
  have hof : ∀ k r, fs.node (s ++ k :: r) ≠ none → k ∈ keys := by
    intro k r hne
    by_contra hk
    exact hne (hkeys.below_none hk r)
  refine ⟨by simp [hdir], hparent, fun r c hr => ?_, fun r k c hr => ?_⟩
  · cases r with
    | nil =>
      rw [List.append_nil, hdir] at hr
      cases hr
    | cons k r =>
      have hfiles := (h k (hof k r (by simp [hr]))).files r c
      rw [List.append_assoc, List.singleton_append, same_source hsame hs,
        same_below hsame] at hfiles
      have := hfiles hr
      rwa [List.append_assoc, List.singleton_append] at this
  · cases r with
    | nil =>
      have hmaked := (h k (hof k [] hr)).parent
      rw [List.dropLast_concat, hmade] at hmaked
      rw [List.append_nil]
      intro hfile
      rw [hfile] at hmaked
      cases hmaked
    | cons j r =>
      have hdirs := (h j (hof j (r ++ [k]) hr)).directories r k c
      rw [List.append_assoc, List.singleton_append, same_source hsame hs, same_below hsame] at hdirs
      have := hdirs hr
      rwa [List.append_assoc, List.singleton_append] at this

omit hdir in
theorem Clear.entry (h : Clear s d fs) {k : κ} (hk : k ∈ keys) :
    Clear (s ++ [k]) (d ++ [k]) t := by
  have hpresent := (hkeys k).mp hk
  refine ⟨by rwa [same_source hsame hs], ?_, fun r c hr => ?_, fun r j c hr => ?_⟩
  · rw [List.dropLast_concat, hmade]
    cases hnode : fs.node d with
    | none => rfl
    | some n =>
      cases n with
      | dir => rfl
      | file c =>
        refine absurd (by rwa [List.append_nil]) (h.directories [] k c hpresent)
  · rw [List.append_assoc, same_source hsame hs] at hr
    rw [same_below hsame, List.append_assoc]
    exact h.files _ c hr
  · rw [List.append_assoc, same_source hsame hs] at hr
    rw [same_below hsame, List.append_assoc]
    exact h.directories ([k] ++ r) j c (by simpa using hr)

omit hs in
/-- A directory has been laid over `d` when its entries have been laid over theirs. -/
theorem laidOver_dir (hentries : ∀ k ∈ keys, LaidOver (s ++ [k]) (d ++ [k]) t u)
    (hs : ∀ r, t.node (s ++ r) = fs.node (s ++ r))
    (helse : ∀ m, (∀ k ∈ keys, ¬d ++ [k] <+: m) → u.node m = t.node m) : LaidOver s d fs u := by
  intro r
  cases r with
  | nil =>
    rw [List.append_nil, List.append_nil, hdir, ← hmade]
    apply helse
    intro k _ hpre
    have := hpre.length_le
    simp at this
  | cons k r =>
    have hbelow : t.node (d ++ k :: r) = fs.node (d ++ k :: r) := by
      have := same_below hsame k r
      rwa [List.append_assoc, List.singleton_append] at this
    by_cases hk : k ∈ keys
    · have h := hentries k hk r
      rw [List.append_assoc, List.append_assoc, List.singleton_append] at h
      rw [h, hs, hbelow]
    · rw [hkeys.below_none hk, helse, hbelow]
      · rfl
      · intro j hj hpre
        rw [← List.singleton_append, List.prefix_append_right_inj] at hpre
        obtain ⟨rfl, -⟩ := List.cons_prefix_cons.mp hpre
        exact hk hj

end Directory

/-! ### Calls -/

theorem dopen_spec (device : CopyDevice κ) (path : List Byte) (s : Copying κ) :
    ∃ dfd t, s.dopen device path = (dfd, t) ∧ t.fs = s.fs ∧ t.log = s.log ∧ t.buffers = s.buffers ∧
      t.value = s.value ∧
      (dfd < 0 ∧ t.descriptors = s.descriptors ∧ (device.failure s.calls = none →
        s.fs.node (device.naming.locate path) ≠ some .dir) ∨
      0 ≤ dfd ∧ t.descriptors = s.descriptors + 1 ∧
        s.fs.node (device.naming.locate path) = some .dir) := by
  rw [Copying.dopen]
  by_cases h : 0 ≤ sceIoDopen device.naming (device.failure s.calls) path s.fs
  · rw [if_pos h]
    exact ⟨_, _, rfl, rfl, rfl, rfl, rfl, Or.inr ⟨h, rfl, sceIoDopen_nonneg h⟩⟩
  · rw [if_neg h]
    refine ⟨_, _, rfl, rfl, rfl, rfl, rfl, Or.inl ⟨by omega, rfl, fun hfail hdir => h ?_⟩⟩
    rw [hfail, sceIoDopen_dir hdir]

/-- `sceIoMkdir` fails, or there is something at `d` after it. -/
theorem mkdir_spec (device : CopyDevice κ) {path : List Byte} (s : Copying κ)
    (hroot : device.naming.locate path ≠ []) :
    ∃ ret t, s.mkdir device path = (ret, t) ∧ t.log = s.log ∧ t.descriptors = s.descriptors ∧
      t.buffers = s.buffers ∧ t.value = s.value ∧
      (ret < 0 ∧ ret ≠ sceErrorErrnoEexist ∧ t.fs = s.fs ∧ (device.failure s.calls = none →
        s.fs.node (device.naming.locate path).dropLast ≠ some .dir) ∨
      ¬(ret < 0 ∧ ret ≠ sceErrorErrnoEexist) ∧ Grows (device.naming.locate path) s.fs t.fs ∧
        (∀ m, m ≠ device.naming.locate path → t.fs.node m = s.fs.node m) ∧
        t.fs.node (device.naming.locate path) =
          laid (some .dir) (s.fs.node (device.naming.locate path)) ∧
        s.fs.node (device.naming.locate path).dropLast = some .dir) := by
  rw [Copying.mkdir, sceIoMkdir.eq_def]
  cases hfail : device.failure s.calls with
  | some f =>
    refine ⟨_, _, rfl, rfl, rfl, rfl, rfl,
      Or.inl ⟨f.negative, device.eexist _ f hfail, rfl, by simp⟩⟩
  | none =>
    cases hnode : s.fs.node (device.naming.locate path) with
    | some n =>
      refine ⟨_, _, rfl, rfl, rfl, rfl, rfl, Or.inr ⟨by simp, .refl _ _, fun _ _ => rfl, ?_, ?_⟩⟩
      · exact hnode
      · exact node_dropLast hroot (by simp [hnode])
    | none =>
      by_cases hparent : (s.fs.node (device.naming.locate path).dropLast).any Node.isDir = true
      · rw [if_pos hparent]
        have hdir := eq_dir_of_any hparent
        refine ⟨_, _, rfl, rfl, rfl, rfl, rfl, Or.inr ⟨by decide, .put _ (by simp [hnode]),
          fun m hm => node_put_of_ne _ _ hm, ?_, hdir⟩⟩
        exact node_put _ hdir (by simp [hnode])
      · rw [if_neg hparent]
        refine ⟨_, _, rfl, rfl, rfl, rfl, rfl, Or.inl ⟨by decide, by decide, rfl, fun _ h => ?_⟩⟩
        rw [h] at hparent
        exact hparent rfl

/-! ### Whole copies -/

/-- The paths of the source's entries, and their places in the destination, are shorter than
`MAX_PATH_LENGTH`. -/
def ShortPair (naming : Naming κ) (src dst : List Byte) (fs : FileSystem κ) : Prop :=
  ∀ names : List Name, (∀ name ∈ names, name.isDot = false) →
    fs.node (naming.locate (names.foldl join src)) ≠ none →
      (names.foldl join src).length < maxPathLength ∧ (names.foldl join dst).length < maxPathLength

theorem ShortPair.join {naming : Naming κ} {src dst : List Byte} {fs : FileSystem κ} {name : Name}
    (h : ShortPair naming src dst fs) (hname : name.isDot = false) :
    ShortPair naming (join src name) (join dst name) fs := by
  intro names hnames
  exact h (name :: names) (by simpa [hname] using hnames)

theorem ShortPair.entryPath {naming : Naming κ} {src dst : List Byte}
    {fs : FileSystem κ} {name : Name} (h : ShortPair naming src dst fs) (hname : name.isDot = false)
    (hnode : fs.node (naming.locate src ++ [naming.key name]) ≠ none) :
    entryPath src name = File.join src name ∧ entryPath dst name = File.join dst name := by
  rw [← naming.locate_join src name hname] at hnode
  obtain ⟨hsrc, hdst⟩ := h [name] (by simp [hname]) hnode
  exact ⟨entryPath_eq_iff.mpr hsrc, entryPath_eq_iff.mpr hdst⟩

/-- `sceIoDread` goes once through the entries of every directory at or below `root`, as long as
they are those of `start`. -/
def CopyDevice.Listed (device : CopyDevice κ) (root : List κ) (start : FileSystem κ) : Prop :=
  ∀ n path fs, (∀ m, root <+: m → fs.node m = start.node m) → root <+: device.naming.locate path →
    fs.node (device.naming.locate path) = some .dir →
    Lists device.naming path (device.listing n path fs) fs

/-- What the loop over the entries of the directory at `s` does. -/
structure EntriesCopied (device : CopyDevice κ) (param : Option SFileProcessParam)
    (s d keys : List κ) (before : Copying κ) (res : Option Int) (after : Copying κ) : Prop where
  goes : Goes d before after
  elsewhere : ∀ m, (∀ k ∈ keys, ¬d ++ [k] <+: m) → after.fs.node m = before.fs.node m
  refused : ∀ ret, res = some ret → ret ≤ 0
  descriptors : after.descriptors = before.descriptors ∨
    res = some (-3) ∧ after.descriptors = before.descriptors + 2 ∧ ∃ n, device.malloc n = false
  buffers : after.buffers = before.buffers
  copied : res = none → Lossless after.log →
    (∀ k ∈ keys, Clear (s ++ [k]) (d ++ [k]) before.fs ∧
      LaidOver (s ++ [k]) (d ++ [k]) before.fs after.fs) ∧
    after.value =
      counted param (keys.map fun k => before.fs.total copyWeight (s ++ [k])).sum before.value
  complete : CopyUndisturbed device param → Lossless before.log →
    Lossless after.log ∧ ((∀ k ∈ keys, Clear (s ++ [k]) (d ++ [k]) before.fs) → res = none)

/-- What a call of `s_copyPath` with fuel for the depth of the directories finds, when the source of
the whole copy is at `root`. -/
structure CopyReaches (naming : Naming κ) (root : List κ) (start : FileSystem κ) (fuel : Nat)
    (src dst : List Byte) (fs : FileSystem κ) : Prop where
  under : root <+: naming.locate src
  beside : Beside root (naming.locate dst)
  text : isSubfolder src dst = false
  short : ShortPair naming src dst start
  same : ∀ m, root <+: m → fs.node m = start.node m
  depth : ∀ r, start.node (naming.locate src ++ r) ≠ none → r.length < fuel
  positive : 0 < fuel

namespace CopyReaches

variable {naming : Naming κ} {root : List κ} {start fs : FileSystem κ} {fuel : Nat}
  {src dst : List Byte}

theorem source_ne (h : CopyReaches naming root start fuel src dst fs) :
    naming.locate src ≠ naming.locate dst := by
  intro heq
  exact h.beside _ h.under (heq ▸ List.prefix_refl _)

theorem dst_ne_root (h : CopyReaches naming root start fuel src dst fs) :
    naming.locate dst ≠ [] := by
  intro heq
  exact h.beside _ h.under (heq ▸ List.nil_prefix)

/-- What a copy to the destination changes is not in the source. -/
theorem source_same (h : CopyReaches naming root start fuel src dst fs) {t : FileSystem κ}
    (hgrows : Grows (naming.locate dst) fs t) {m : List κ} (hm : root <+: m) :
    t.node m = fs.node m :=
  hgrows.outside m (h.beside m hm)

/-- The call for an entry that is a directory finds the same. -/
theorem entry (h : CopyReaches naming root start (fuel + 1) src dst fs) {name : Name}
    (hname : name.isDot = false) {t : FileSystem κ}
    (hsame : ∀ m, root <+: m → t.node m = start.node m)
    (hpresent : start.node (naming.locate src ++ [naming.key name]) ≠ none) :
    CopyReaches naming root start fuel (join src name) (join dst name) t where
  under := by
    rw [naming.locate_join src name hname]
    exact h.under.trans (List.prefix_append _ _)
  beside m hm hpre := by
    rw [naming.locate_join dst name hname] at hpre
    exact h.beside m hm ((List.prefix_append _ _).trans hpre)
  text := by
    by_contra htext
    have := isSubfolder_join (by simpa using htext)
    rw [h.text] at this
    cases this
  short := h.short.join hname
  same := hsame
  depth r hr := by
    rw [naming.locate_join src name hname, List.append_assoc] at hr
    have := h.depth _ hr
    rw [List.length_append, List.length_singleton] at this
    omega
  positive := by
    have := h.depth _ hpresent
    rw [List.length_singleton] at this
    omega

theorem after (h : CopyReaches naming root start fuel src dst fs) {t : FileSystem κ}
    (hgrows : Grows (naming.locate dst) fs t) : CopyReaches naming root start fuel src dst t :=
  { h with same := fun m hm => (h.source_same hgrows hm).trans (h.same m hm) }

end CopyReaches

omit [DecidableEq κ] in
theorem entries_apart {d : List κ} {j k : κ} (hne : j ≠ k) (r : List κ) :
    ¬d ++ [k] <+: d ++ [j] ++ r := by
  rw [List.append_assoc, List.prefix_append_right_inj, List.singleton_append]
  intro hpre
  exact hne (List.cons_prefix_cons.mp hpre).1.symm

section Loop

variable {device : CopyDevice κ} {param : Option SFileProcessParam} {s d keys : List κ} {k : κ}
  {before u after : Copying κ} {res : Option Int}

theorem EntriesCopied.of_read
    (h : EntriesCopied device param s d keys (before.transfer (.dread 1)) res after) :
    EntriesCopied device param s d keys before res after :=
  { h with
    goes := ⟨h.goes.grows, (List.prefix_append _ _).trans h.goes.log⟩
    complete := fun hno hlossless => h.complete hno (hlossless.append (by simp [Transfer.Lossy])) }

/-- The entry `k` has been copied, and then the others. -/
theorem EntriesCopied.cons (hk : k ∉ keys)
    (hone : Copied device param (s ++ [k]) (d ++ [k]) (before.transfer (.dread 1)) 1 u)
    (hsource : ∀ r, u.fs.node (s ++ r) = before.fs.node (s ++ r))
    (h : EntriesCopied device param s d keys u res after) :
    EntriesCopied device param s d (k :: keys) before res after := by
  have hread : Lossless before.log → Lossless (before.transfer (.dread 1)).log :=
    fun hlossless => hlossless.append (by simp [Transfer.Lossy])
  have hgoes : Goes d before u :=
    ⟨hone.goes.grows.mono (List.prefix_append d [k]), (List.prefix_append _ _).trans hone.goes.log⟩
  have hne : ∀ j ∈ keys, j ≠ k := by
    rintro j hj rfl
    exact hk hj
  -- what is found of the other entries has not changed
  have hentry : ∀ j r, u.fs.node (s ++ [j] ++ r) = before.fs.node (s ++ [j] ++ r) := fun j r => by
    rw [List.append_assoc]
    exact hsource _
  have hplace : ∀ j ∈ keys, ∀ r, u.fs.node (d ++ [j] ++ r) = before.fs.node (d ++ [j] ++ r) :=
    fun j hj r => hone.goes.grows.outside _ (entries_apart (hne j hj) r)
  have hparent : ∀ j, u.fs.node (d ++ [j]).dropLast = before.fs.node (d ++ [j]).dropLast :=
    fun j => by
    rw [List.dropLast_concat]
    exact hone.goes.grows.outside _ fun hpre => by simpa using hpre.length_le
  have hdesc : u.descriptors = before.descriptors := by
    refine hone.descriptors.resolve_right ?_
    rintro ⟨hret, -⟩
    omega
  refine ⟨hgoes.trans h.goes, fun m hm => ?_, h.refused, ?_, h.buffers.trans hone.buffers,
    fun hres hlossless => ?_, fun hno hlossless => ?_⟩
  · rw [h.elsewhere m fun j hj => hm j (List.mem_cons_of_mem k hj)]
    exact hone.goes.grows.outside m (hm k List.mem_cons_self)
  · rw [← hdesc]
    exact h.descriptors
  · obtain ⟨hclear, hlaid, hvalue⟩ := hone.copied rfl (hlossless.of_isPrefix h.goes.log)
    obtain ⟨hothers, hsum⟩ := h.copied hres hlossless
    refine ⟨fun j hj => ?_, ?_⟩
    · rcases List.mem_cons.mp hj with rfl | hj
      · refine ⟨hclear, fun r => ?_⟩
        rw [h.elsewhere _ fun i hi => entries_apart (hne i hi).symm r]
        exact hlaid r
      · obtain ⟨hclear', hlaid'⟩ := hothers j hj
        refine ⟨hclear'.congr (fun r => (hentry j r).symm) (fun r => (hplace j hj r).symm)
          (hparent j).symm, fun r => ?_⟩
        rw [hlaid' r, hentry, hplace j hj]
    · have hsums : keys.map (fun j => u.fs.total copyWeight (s ++ [j])) =
          keys.map fun j => before.fs.total copyWeight (s ++ [j]) := by
        apply List.map_congr_left
        rintro j -
        apply total_congr
        rintro m ⟨r, rfl⟩
        exact hentry j r
      rw [hsum, hvalue, counted_counted, hsums, List.map_cons, List.sum_cons]
      rfl
  · obtain ⟨hlossless', -⟩ := hone.complete hno (hread hlossless)
    obtain ⟨hafter, hdone⟩ := h.complete hno hlossless'
    refine ⟨hafter, fun hclear => hdone fun j hj => ?_⟩
    exact (hclear j (List.mem_cons_of_mem k hj)).congr (hentry j) (hplace j hj) (hparent j)

/-- The copy of the entry `k` has ended the loop. -/
theorem EntriesCopied.stopped {ret : Int} (hret : ret ≤ 0)
    (hone : Copied device param (s ++ [k]) (d ++ [k]) (before.transfer (.dread 1)) ret u) :
    EntriesCopied device param s d (k :: keys) before (some ret) u where
  goes := ⟨hone.goes.grows.mono (List.prefix_append d [k]),
    (List.prefix_append _ _).trans hone.goes.log⟩
  elsewhere m hm := hone.goes.grows.outside m (hm k List.mem_cons_self)
  refused := by
    rintro _ ⟨⟩
    exact hret
  descriptors := hone.descriptors.imp id fun ⟨hret, hrest⟩ => ⟨by rw [hret], hrest⟩
  buffers := hone.buffers
  copied := by simp
  complete hno hlossless := by
    obtain ⟨hlossless', hdone⟩ := hone.complete hno (hlossless.append (by simp [Transfer.Lossy]))
    refine ⟨hlossless', fun hclear => ?_⟩
    have := hdone (hclear k List.mem_cons_self)
    omega

end Loop

section

variable {device : CopyDevice κ} {param : Option SFileProcessParam} {root : List κ}
  {start : FileSystem κ}

/-- The call for one entry, of the loop or of `s_copyFile`. -/
theorem entry_copied {copyPath : List Byte → List Byte → Copying κ → Option (Int × Copying κ)}
    {fuel : Nat} (hrec : ∀ src dst s, CopyReaches device.naming root start fuel src dst s.fs →
      ∃ ret t, copyPath src dst s = some (ret, t) ∧
        Copied device param (device.naming.locate src) (device.naming.locate dst) s ret t)
    {src dst : List Byte} {s : Copying κ} {name : Name} (hname : name.isDot = false)
    (hreach : CopyReaches device.naming root start (fuel + 1) src dst s.fs)
    (hpresent : start.node (device.naming.locate src ++ [device.naming.key name]) ≠ none) :
    ∃ ret t,
      (if (s.fs.node (device.naming.locate src ++ [device.naming.key name])).any Node.isDir then
        copyPath (entryPath src name) (entryPath dst name) (s.transfer (.dread 1))
      else some (sCopyFile device param (entryPath src name) (entryPath dst name)
        (s.transfer (.dread 1)))) = some (ret, t) ∧
      Copied device param (device.naming.locate src ++ [device.naming.key name])
        (device.naming.locate dst ++ [device.naming.key name]) (s.transfer (.dread 1)) ret t := by
  obtain ⟨hsrc, hdst⟩ := hreach.short.entryPath hname hpresent
  have hentry := hreach.entry hname hreach.same hpresent
  rw [hsrc, hdst, ← device.naming.locate_join src name hname,
    ← device.naming.locate_join dst name hname]
  split
  · exact hrec _ _ (s.transfer (.dread 1)) hentry
  · rename_i hfile
    obtain ⟨ret, t, heq, h⟩ := sCopyFile_spec device param
      (s.transfer (.dread 1)) hentry.source_ne hentry.text fun _ hdir => hfile (by
        show (s.fs.node _).any _ = true
        have hnode : s.fs.node (device.naming.locate (join src name)) = some .dir := hdir
        rw [hnode]
        rfl)
    exact ⟨ret, t, by rw [heq], h⟩

theorem copyEntries_spec {copyPath : List Byte → List Byte → Copying κ → Option (Int × Copying κ)}
    {fuel : Nat}
    (hrec : ∀ src dst s, CopyReaches device.naming root start fuel src dst s.fs →
      ∃ ret t, copyPath src dst s = some (ret, t) ∧
        Copied device param (device.naming.locate src) (device.naming.locate dst) s ret t)
    {src dst : List Byte} (names : List Name) : ∀ s : Copying κ,
      CopyReaches device.naming root start (fuel + 1) src dst s.fs →
      (entryKeys device.naming names).Nodup →
      (∀ k ∈ entryKeys device.naming names, start.node (device.naming.locate src ++ [k]) ≠ none) →
      ∃ res t, copyEntries device param copyPath src dst names s = some (res, t) ∧
        EntriesCopied device param (device.naming.locate src) (device.naming.locate dst)
          (entryKeys device.naming names) s res t := by
  -- an error of `sceIoDread` ends the loop like the last entry
  have hfailed : ∀ (s : Copying κ) (f : Failure) (keys : List κ), device.failure s.calls = some f →
      EntriesCopied device param (device.naming.locate src) (device.naming.locate dst) keys s none
        (s.transfer (.dread f.code)) := by
    intro s f keys hfail
    refine ⟨.of_eq rfl (List.prefix_append _ _), fun _ _ => rfl, by simp, Or.inl rfl, rfl,
      fun _ hlossless => ?_, fun hno => ?_⟩
    · exact absurd f.negative (hlossless (.dread f.code) (by simp [Copying.transfer]))
    · rw [hno.failure] at hfail
      cases hfail
  induction names with
  | nil =>
    intro s hreach honce hpresent
    rw [copyEntries]
    cases hfail : device.failure s.calls with
    | some f => exact ⟨none, _, rfl, hfailed s f _ hfail⟩
    | none =>
      refine ⟨none, _, rfl, .of_eq rfl (List.prefix_append _ _), fun _ _ => rfl, by simp,
        Or.inl rfl, rfl, fun _ _ => ⟨by simp [entryKeys], (counted_zero _ _).symm⟩,
        fun _ hlossless => ?_⟩
      exact ⟨hlossless.append (by simp [Transfer.Lossy]), fun _ => rfl⟩
  | cons name rest ih =>
    intro s hreach honce hpresent
    rw [copyEntries]
    cases hfail : device.failure s.calls with
    | some f => exact ⟨none, _, rfl, hfailed s f _ hfail⟩
    | none =>
      dsimp only
      by_cases hdot : name.isDot = true
      · have hkeys : entryKeys device.naming (name :: rest) = entryKeys device.naming rest := by
          simp [entryKeys, hdot]
        rw [hkeys] at honce hpresent ⊢
        rw [if_pos hdot]
        obtain ⟨res, t, heq, h⟩ := ih (s.transfer (.dread 1)) hreach honce hpresent
        exact ⟨res, t, heq, h.of_read⟩
      have hname : name.isDot = false := by simpa using hdot
      rw [Lists.keys_cons hname] at honce hpresent ⊢
      rw [List.nodup_cons] at honce
      obtain ⟨ret, u, heq, hone⟩ := entry_copied hrec hname hreach (hpresent _ List.mem_cons_self)
      rw [if_neg hdot, heq]
      dsimp only
      by_cases hret : ret ≤ 0
      · rw [if_pos hret]
        exact ⟨some ret, u, rfl, .stopped hret hone⟩
      rw [if_neg hret]
      obtain rfl : ret = 1 := hone.returns.resolve_left hret
      have hgrows : Grows (device.naming.locate dst) s.fs u.fs :=
        hone.goes.grows.mono (List.prefix_append _ _)
      obtain ⟨res, t, heq', h⟩ := ih u (hreach.after hgrows) honce.2 fun k hk =>
        hpresent k (List.mem_cons_of_mem _ hk)
      refine ⟨res, t, heq', h.cons honce.1 hone fun r => ?_⟩
      exact hreach.source_same hgrows (hreach.under.trans (List.prefix_append _ r))

theorem Copied.of_same {s d : List κ} {before u after : Copying κ} {ret : Int}
    (hfs : u.fs = before.fs) (hlog : u.log = before.log)
    (hdesc : u.descriptors = before.descriptors)
    (hbuf : u.buffers = before.buffers) (hvalue : u.value = before.value)
    (h : Copied device param s d u ret after) : Copied device param s d before ret after where
  goes := ⟨hfs ▸ h.goes.grows, hlog ▸ h.goes.log⟩
  returns := h.returns
  descriptors := hdesc ▸ h.descriptors
  buffers := hbuf ▸ h.buffers
  copied := by
    rw [← hfs, ← hvalue]
    exact h.copied
  complete := by
    rw [← hfs, ← hlog]
    exact h.complete

/-- `s_copyPath` has made the destination, counted it, and copied the entries. -/
theorem Copied.directory {s d keys : List κ} {before made u : Copying κ} {res : Option Int}
    (hdir : before.fs.node s = some .dir) (honce : keys.Nodup) (hkeys : EntriesOf before.fs s keys)
    (hs : ¬s <+: d) (hlog : made.log = before.log)
    (hdesc : made.descriptors = before.descriptors + 1) (hbuf : made.buffers = before.buffers)
    (hvalue : made.value = counted param 1 before.value) (hgrows : Grows d before.fs made.fs)
    (hsame : ∀ m, m ≠ d → made.fs.node m = before.fs.node m)
    (hmade : made.fs.node d = laid (some .dir) (before.fs.node d))
    (hparent : before.fs.node d.dropLast = some .dir)
    (h : EntriesCopied device param s d keys made res u) :
    Copied device param s d before (res.getD 1) u.close := by
  have hsource : ∀ r, made.fs.node (s ++ r) = before.fs.node (s ++ r) := same_source hsame hs
  refine ⟨⟨hgrows.trans h.goes.grows, hlog ▸ h.goes.log⟩, ?_, ?_, h.buffers.trans hbuf,
    fun hret hlossless => ?_, fun hno hlossless => ?_⟩
  · cases res with
    | none => exact Or.inr rfl
    | some ret => exact Or.inl (h.refused ret rfl)
  · show u.descriptors - 1 = _ ∨ _ ∧ u.descriptors - 1 = _ ∧ _
    rcases h.descriptors with h | ⟨rfl, h, hmalloc⟩
    · exact Or.inl (by omega)
    · exact Or.inr ⟨rfl, by omega, hmalloc⟩
  · have hres : res = none := by
      cases res with
      | none => rfl
      | some ret =>
        have := h.refused ret rfl
        rw [Option.getD_some] at hret
        omega
    obtain ⟨hentries, hsum⟩ := h.copied hres hlossless
    refine ⟨clear_dir hdir hkeys hsame hmade hs hparent fun k hk => (hentries k hk).1,
      laidOver_dir hdir hkeys hsame hmade (fun k hk => (hentries k hk).2) hsource h.elsewhere, ?_⟩
    have hsums : keys.map (fun k => made.fs.total copyWeight (s ++ [k])) =
        keys.map fun k => before.fs.total copyWeight (s ++ [k]) := by
      apply List.map_congr_left
      rintro k -
      apply total_congr
      rintro m ⟨r, rfl⟩
      rw [List.append_assoc]
      exact hsource _
    show u.value = _
    rw [hsum, hvalue, counted_counted, hsums, total_dir hdir honce hkeys]
    rfl
  · obtain ⟨hlossless', hdone⟩ := h.complete hno (by rwa [hlog])
    refine ⟨hlossless', fun hclear => ?_⟩
    rw [hdone fun k hk => hclear.entry hkeys hsame hmade hs hk]
    rfl

/-- `s_copyPath` with the destination made, or there: it counts the directory, and goes through the
entries when nothing cancels. -/
theorem made_copied (hlisted : device.Listed root start) {fuel : Nat}
    (ih : ∀ src dst s, CopyReaches device.naming root start fuel src dst s.fs →
      ∃ ret t, sCopyPath device param fuel src dst s = some (ret, t) ∧
        Copied device param (device.naming.locate src) (device.naming.locate dst) s ret t)
    {src dst : List Byte} {s v : Copying κ}
    (h : CopyReaches device.naming root start (fuel + 1) src dst s.fs)
    (hdir : s.fs.node (device.naming.locate src) = some .dir) (hlog : v.log = s.log)
    (hdesc : v.descriptors = s.descriptors + 1) (hbuf : v.buffers = s.buffers)
    (hvalue : v.value = s.value) (hgrows : Grows (device.naming.locate dst) s.fs v.fs)
    (hsame : ∀ m, m ≠ device.naming.locate dst → v.fs.node m = s.fs.node m)
    (hmade : v.fs.node (device.naming.locate dst) =
      laid (some .dir) (s.fs.node (device.naming.locate dst)))
    (hparent : s.fs.node (device.naming.locate dst).dropLast = some .dir) :
    ∃ ret t, (if (v.report param 1).1 then some (0, (v.report param 1).2.close)
      else match copyEntries device param (sCopyPath device param fuel) src dst
          (device.listing s.calls src s.fs) (v.report param 1).2 with
        | none => none
        | some (some ret, s) => some (ret, s.close)
        | some (none, s) => some (1, s.close)) = some (ret, t) ∧
      Copied device param (device.naming.locate src) (device.naming.locate dst) s ret t := by
  have hlists := hlisted s.calls src s.fs h.same h.under hdir
  have hwfs : (v.report param 1).2.fs = v.fs := Copying.report_fs param 1 v
  have hwlog : (v.report param 1).2.log = s.log := by rw [Copying.report_log, hlog]
  have hwdesc : (v.report param 1).2.descriptors = s.descriptors + 1 := by
    rw [Copying.report_descriptors, hdesc]
  have hwbuf : (v.report param 1).2.buffers = s.buffers := by rw [Copying.report_buffers, hbuf]
  split
  · rename_i hcancelled
    refine ⟨0, _, rfl, ⟨hwfs ▸ hgrows, by show s.log <+: _; rw [Copying.close, hwlog]⟩,
      Or.inl le_rfl, Or.inl ?_, hwbuf, by omega, fun hno => ?_⟩
    · show (v.report param 1).2.descriptors - 1 = _
      omega
    · rw [Copying.report_never hno.never] at hcancelled
      cases hcancelled
  · have hpresent : ∀ k ∈ entryKeys device.naming (device.listing s.calls src s.fs),
        start.node (device.naming.locate src ++ [k]) ≠ none := fun k hk => by
      rw [← h.same _ (h.under.trans (List.prefix_append _ _))]
      exact (hlists.every k).mp hk
    obtain ⟨res, t, heq, hentries⟩ := copyEntries_spec ih (device.listing s.calls src s.fs)
      (v.report param 1).2 (hwfs ▸ h.after hgrows) hlists.once hpresent
    rw [heq]
    have hs : ¬device.naming.locate src <+: device.naming.locate dst := fun hpre =>
      h.beside _ (h.under.trans hpre) (List.prefix_refl _)
    have hcopied := Copied.directory hdir hlists.once hlists.every hs hwlog hwdesc hwbuf
      (by rw [Copying.report_value, hvalue]) (hwfs ▸ hgrows) (hwfs ▸ hsame) (hwfs ▸ hmade) hparent
      hentries
    cases res with
    | none => exact ⟨1, t.close, rfl, hcopied⟩
    | some ret => exact ⟨ret, t.close, rfl, hcopied⟩

theorem sCopyPath_spec (hlisted : device.Listed root start) (fuel : Nat) :
    ∀ src dst s, CopyReaches device.naming root start fuel src dst s.fs →
      ∃ ret t, sCopyPath device param fuel src dst s = some (ret, t) ∧
        Copied device param (device.naming.locate src) (device.naming.locate dst) s ret t := by
  induction fuel with
  | zero =>
    intro src dst s h
    exact absurd h.positive (lt_irrefl 0)
  | succ fuel ih =>
    intro src dst s h
    have hne : src ≠ dst := by
      rintro rfl
      exact h.source_ne rfl
    rw [sCopyPath, if_neg hne, if_neg (by simp [h.text])]
    obtain ⟨dfd, u, hopen, hufs, hulog, hubuf, huvalue,
      ⟨hfd, hudesc, hfail⟩ | ⟨hfd, hudesc, hdir⟩⟩ :=
      dopen_spec device src s
    · rw [hopen]
      dsimp only
      rw [if_neg (by omega)]
      obtain ⟨ret, t, heq, hcopied⟩ := sCopyFile_spec device param u h.source_ne
        h.text fun hno => by
          rw [hufs]
          exact hfail (hno.failure _)
      exact ⟨ret, t, by rw [heq], hcopied.of_same hufs hulog hudesc hubuf huvalue⟩
    · rw [hopen]
      dsimp only
      rw [if_pos hfd]
      obtain ⟨ret, v, hmkdir, hvlog, hvdesc, hvbuf, hvvalue, ⟨hret, hcode, hvfs, hfail⟩ |
        ⟨hgo, hgrows, hsame, hmade, hparent⟩⟩ := mkdir_spec device u h.dst_ne_root
      · rw [hmkdir]
        dsimp only
        rw [if_pos ⟨hret, hcode⟩]
        refine ⟨ret, _, rfl,
          .refused (hvfs.trans hufs) (hvlog.trans hulog) ?_ (hvbuf.trans hubuf) hret
          fun hno hclear => ?_⟩
        · show v.descriptors - 1 = _
          omega
        · rw [hufs] at hfail
          exact hfail (hno.failure _) hclear.parent
      rw [hmkdir]
      dsimp only
      rw [if_neg hgo]
      rw [hufs] at hgrows hsame hmade hparent
      exact made_copied hlisted ih h hdir (hvlog.trans hulog) (hvdesc.trans hudesc)
        (hvbuf.trans hubuf) (hvvalue.trans huvalue) hgrows hsame hmade hparent

end

/-! ### Fuel -/

section

variable {device : CopyDevice κ} {param : Option SFileProcessParam}

theorem copyEntries_mono {src dst : List Byte}
    {copyPath copyPath' : List Byte → List Byte → Copying κ → Option (Int × Copying κ)}
    (hrec : ∀ src dst s r, copyPath src dst s = some r → copyPath' src dst s = some r)
    (names : List Name) :
    ∀ s r, copyEntries device param copyPath src dst names s = some r →
      copyEntries device param copyPath' src dst names s = some r := by
  induction names with
  | nil => exact fun _ _ h => h
  | cons name rest ih =>
    intro s r h
    rw [copyEntries] at h ⊢
    cases hfail : device.failure s.calls with
    | some f =>
      rw [hfail] at h
      exact h
    | none =>
      rw [hfail] at h
      dsimp only at h ⊢
      split at h
      · rw [if_pos ‹_›]
        exact ih _ _ h
      rw [if_neg ‹_›]
      split at h
      · cases h
      rename_i ret t heq
      have heq' :
        (if (s.fs.node (device.naming.locate src ++ [device.naming.key name])).any Node.isDir then
          copyPath' (entryPath src name) (entryPath dst name) (s.transfer (.dread 1))
        else some (sCopyFile device param (entryPath src name) (entryPath dst name)
          (s.transfer (.dread 1)))) = some (ret, t) := by
        split at heq
        · rw [if_pos ‹_›]
          exact hrec _ _ _ _ heq
        · rwa [if_neg ‹_›]
      rw [heq']
      dsimp only
      split at h
      · rwa [if_pos ‹_›]
      · rw [if_neg ‹_›]
        exact ih _ _ h

/-- More fuel does not change the result. -/
theorem sCopyPath_mono {n m : Nat} (hle : n ≤ m) : ∀ src dst s r,
    sCopyPath device param n src dst s = some r → sCopyPath device param m src dst s = some r := by
  induction n generalizing m with
  | zero =>
    intro src dst s r h
    cases h
  | succ n ih =>
    intro src dst s r h
    obtain ⟨m, rfl⟩ : ∃ k, m = k + 1 := ⟨m - 1, by omega⟩
    rw [sCopyPath] at h ⊢
    split at h
    · rwa [if_pos ‹_›]
    rw [if_neg ‹_›]
    split at h
    · rwa [if_pos ‹_›]
    rw [if_neg ‹_›]
    dsimp only at h ⊢
    split at h
    · rw [if_pos ‹_›]
      split at h
      · rwa [if_pos ‹_›]
      rw [if_neg ‹_›]
      split at h
      · rwa [if_pos ‹_›]
      rw [if_neg ‹_›]
      split at h
      · cases h
      · rename_i heq
        rw [copyEntries_mono (ih (by omega)) _ _ _ heq]
        exact h
      · rename_i heq
        rw [copyEntries_mono (ih (by omega)) _ _ _ heq]
        exact h
    · rwa [if_neg ‹_›]

end

end Psp2Shell.File
