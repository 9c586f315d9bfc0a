import Psp2Shell.File.Info

/-! What the progress of a removal and of a copy counts, and that it ends at what
`s_getPathInfo` has counted before. -/

namespace Psp2Shell.File

open CLib FileTree

variable {κ : Type} [DecidableEq κ]

/-! ### Removals -/

/-- The number of nodes of a file system. -/
def nodes (fs : FileSystem κ) : Nat := fs.total (fun _ => 1) []

/-- A call fails and changes nothing, or takes one node away. -/
def TakesOne (res : Int) (before after : FileSystem κ) : Prop :=
  res < 0 ∧ after = before ∨ 0 ≤ res ∧ nodes before = nodes after + 1

theorem TakesOne.of_gone {l : List κ} {before after : FileSystem κ} {n : Node (List Byte)}
    (hnode : before.node l = some n) (hempty : ∀ k, before.node (l ++ [k]) = none)
    (hsame : ∀ m, m ≠ l → after.node m = before.node m) (hgone : after.node l = none) :
    TakesOne 0 before after := by
  refine Or.inr ⟨le_rfl, ?_⟩
  have htotal : before.total (fun _ => 1) [] =
      after.total (fun _ => 1) [] + before.total (fun _ => 1) l :=
    total_gone (fun m hm => hsame m fun heq => hm (heq ▸ List.prefix_refl _))
      (node_below_none hgone)
  rwa [total_leaf hnode hempty] at htotal

theorem sceIoRemove_takesOne (naming : Naming κ) (failure : Option Failure) (path : List Byte)
    (fs : FileSystem κ) :
    TakesOne (sceIoRemove naming failure path fs).1 fs (sceIoRemove naming failure path fs).2 := by
  rw [sceIoRemove.eq_def]
  cases failure with
  | some f => exact Or.inl ⟨f.negative, rfl⟩
  | none =>
    cases hnode : fs.node (naming.locate path) with
    | none => exact Or.inl ⟨show sceErrorErrnoEnoent < 0 by decide, rfl⟩
    | some n =>
      cases n with
      | dir => exact Or.inl ⟨show sceErrorErrnoEisdir < 0 by decide, rfl⟩
      | file c =>
        refine .of_gone hnode (fun k => ?_) (fun m hm => node_remove_of_ne fs hm)
          (node_remove_file hnode)
        by_contra hne
        rw [node_above (by simp) hne] at hnode
        cases hnode

theorem rmdir_eq_self {fs : FileSystem κ} {l : List κ} (hdir : fs.node l = some .dir)
    (h : (fs.rmdir l).node l ≠ none) : fs.rmdir l = fs := by
  by_contra hne
  refine h ?_
  rw [FileTree.rmdir] at hne ⊢
  split
  · apply node_eq_none
    intro n hn
    obtain ⟨hmem, hkeep⟩ := List.mem_filter.mp hn
    rw [node_eq_some.mpr hmem] at hdir
    cases hdir
    simp [Node.isDir] at hkeep
  · rw [dif_neg ‹_›] at hne
    exact absurd rfl hne

theorem sceIoRmdir_takesOne (naming : Naming κ) (failure : Option Failure) (path : List Byte)
    (fs : FileSystem κ) :
    TakesOne (sceIoRmdir naming failure path fs).1 fs (sceIoRmdir naming failure path fs).2 := by
  rw [sceIoRmdir.eq_def]
  cases failure with
  | some f => exact Or.inl ⟨f.negative, rfl⟩
  | none =>
    cases hnode : fs.node (naming.locate path) with
    | none => exact Or.inl ⟨show sceErrorErrnoEnoent < 0 by decide, rfl⟩
    | some n =>
      cases n with
      | file c => exact Or.inl ⟨show sceErrorErrnoEnotdir < 0 by decide, rfl⟩
      | dir =>
        dsimp only
        by_cases hgone : (fs.rmdir (naming.locate path)).node (naming.locate path) = none
        · rw [if_pos hgone]
          refine .of_gone hnode (fun k => ?_) (fun m hm => node_rmdir_of_ne fs hm) hgone
          rw [← node_rmdir_of_ne fs (by simp : naming.locate path ++ [k] ≠ naming.locate path)]
          exact node_below_none hgone [k]
        · rw [if_neg hgone]
          exact Or.inl ⟨by decide, rmdir_eq_self hnode hgone⟩

/-- As many nodes have gone as `*value` has grown by, and when there are any the last call of
`SetProgress` has shown it. -/
structure Accounts (param : Option SFileProcessParam) (n : Nat) (s t : Removing κ) : Prop where
  gone : nodes s.fs = nodes t.fs + n
  value : t.value = counted param n s.value
  shown : n ≠ 0 → ∀ p, param = some p → p.setProgress = true →
    t.progress.getLast? = some (t.value.getD 0, p.max)
  unshown : n = 0 → t.progress = s.progress

namespace Accounts

variable {param : Option SFileProcessParam} {m n : Nat} {s t u : Removing κ}

theorem of_same (hfs : t.fs = s.fs) (hvalue : t.value = s.value)
    (hprogress : t.progress = s.progress) :
    Accounts param 0 s t :=
  ⟨by rw [hfs, Nat.add_zero], by rw [hvalue, counted_zero], fun h => absurd rfl h,
    fun _ => hprogress⟩

theorem trans (h : Accounts param m s t) (h' : Accounts param n t u) :
    Accounts param (m + n) s u where
  gone := by
    rw [h.gone, h'.gone]
    omega
  value := by rw [h'.value, h.value, counted_counted]
  shown hmn p hp hset := by
    by_cases hn : n = 0
    · have hvalue := h'.value
      rw [hn, counted_zero] at hvalue
      rw [h'.unshown hn, hvalue]
      exact h.shown (by omega) p hp hset
    · exact h'.shown hn p hp hset
  unshown hmn := (h'.unshown (by omega)).trans (h.unshown (by omega))

/-- A node has gone, and is reported. -/
theorem report (hgone : nodes s.fs = nodes t.fs + 1) (hvalue : t.value = s.value) :
    Accounts param 1 s (t.report param).2 where
  gone := by rw [report_fs, hgone]
  value := by
    rw [← hvalue]
    cases param <;> rfl
  shown _ p hp hset := by
    subst hp
    simp [Removing.report, hset]
  unshown h := absurd h (by decide)

end Accounts

section

variable {device : Device κ} {param : Option SFileProcessParam}

variable (param) in
theorem Removing.remove_accounts (device : Device κ) (path : List Byte) (s : Removing κ) :
    (s.remove device path).1 < 0 ∧ Accounts param 0 s (s.remove device path).2 ∨
      0 ≤ (s.remove device path).1 ∧
        Accounts param 1 s ((s.remove device path).2.report param).2 := by
  rcases sceIoRemove_takesOne device.naming (device.failure s.calls) path s.fs with
    ⟨hres, hfs⟩ | ⟨hres, hfs⟩
  · exact Or.inl ⟨hres, .of_same hfs rfl rfl⟩
  · exact Or.inr ⟨hres, .report hfs rfl⟩

variable (param) in
theorem Removing.rmdir_accounts (device : Device κ) (path : List Byte) (s : Removing κ) :
    (s.rmdir device path).1 < 0 ∧ Accounts param 0 s (s.rmdir device path).2 ∨
      0 ≤ (s.rmdir device path).1 ∧
        Accounts param 1 s ((s.rmdir device path).2.report param).2 := by
  rcases sceIoRmdir_takesOne device.naming (device.failure s.calls) path s.fs with
    ⟨hres, hfs⟩ | ⟨hres, hfs⟩
  · exact Or.inl ⟨hres, .of_same hfs rfl rfl⟩
  · exact Or.inr ⟨hres, .report hfs rfl⟩

/-- The last call of `s_removePath`, on the path itself. -/
theorem afterRemoval_accounts {s : Removing κ} {r : Int × Removing κ}
    (h : r.1 < 0 ∧ Accounts param 0 s r.2 ∨ 0 ≤ r.1 ∧ Accounts param 1 s (r.2.report param).2) :
    ∃ n, Accounts param n s (afterRemoval param r).2 := by
  obtain ⟨res, t⟩ := r
  rw [afterRemoval]
  rcases h with ⟨hres, h⟩ | ⟨hres, h⟩
  · rw [if_pos hres]
    exact ⟨0, h⟩
  · rw [if_neg (by exact not_lt.mpr hres)]
    exact ⟨1, h⟩

theorem removeEntries_accounts {path : List Byte}
    {removePath : List Byte → Removing κ → Option (Int × Removing κ)}
    (hrec : ∀ p s ret t, removePath p s = some (ret, t) → ∃ n, Accounts param n s t)
    (names : List Name) :
    ∀ s res t, removeEntries device param removePath path names s = some (res, t) →
      ∃ n, Accounts param n s t := by
  induction names with
  | nil =>
    rintro s res t ⟨⟩
    exact ⟨0, .of_same rfl rfl rfl⟩
  | cons name rest ih =>
    intro s res t h
    have hread : Accounts param 0 s (s.read path name) := .of_same rfl rfl rfl
    -- the loop goes on from `u`
    have hnext : ∀ u n res t, Accounts param n (s.read path name) u →
        removeEntries device param removePath path rest u = some (res, t) →
        ∃ n, Accounts param n s t := by
      intro u m res t hu hrest
      obtain ⟨n, hn⟩ := ih u res t hrest
      exact ⟨0 + m + n, (hread.trans hu).trans hn⟩
    rw [removeEntries] at h
    split at h
    · cases h
      exact ⟨0, .of_same rfl rfl rfl⟩
    dsimp only at h
    split at h
    · exact hnext (s.read path name) 0 _ _ (.of_same rfl rfl rfl) h
    split at h
    · split at h
      · cases h
      rename_i ret u hremoved
      obtain ⟨n, hn⟩ := hrec _ _ _ _ hremoved
      split at h
      · cases h
        exact ⟨0 + n, hread.trans hn⟩
      · exact hnext u n _ _ hn h
    · have haccounts := Removing.remove_accounts param device (entryPath path name)
        (s.read path name)
      split at h
      · rename_i hres
        cases h
        rcases haccounts with ⟨-, h⟩ | ⟨hno, -⟩
        · exact ⟨0 + 0, hread.trans h⟩
        · omega
      · rename_i hres
        have hone := (haccounts.resolve_left fun h => hres h.1).2
        split at h
        · cases h
          exact ⟨0 + 1, hread.trans hone⟩
        · exact hnext _ 1 _ _ hone h

/-- Whatever the calls come to, `*value` counts the nodes that go. -/
theorem sRemovePath_accounts {fuel : Nat} : ∀ {path s ret t},
    sRemovePath device param fuel path s = some (ret, t) → ∃ n, Accounts param n s t := by
  induction fuel with
  | zero =>
    intro path s ret t h
    cases h
  | succ fuel ih =>
    intro path s ret t h
    have hstart : Accounts param 0 s s.advance := .of_same rfl rfl rfl
    rw [sRemovePath] at h
    split at h
    · split at h
      · cases h
      · rename_i heq
        cases h
        obtain ⟨n, hn⟩ := removeEntries_accounts (fun _ _ _ _ => ih) _ s.advance _ _ heq
        exact ⟨0 + n, hstart.trans hn⟩
      · rename_i u heq
        obtain ⟨n, hn⟩ := removeEntries_accounts (fun _ _ _ _ => ih) _ s.advance _ _ heq
        obtain ⟨m, hm⟩ := afterRemoval_accounts (Removing.rmdir_accounts param device path u)
        have ht : t = (afterRemoval param (u.rmdir device path)).2 := by rw [Option.some.inj h]
        exact ⟨0 + n + m, ht ▸ (hstart.trans hn).trans hm⟩
    · obtain ⟨m, hm⟩ := afterRemoval_accounts (Removing.remove_accounts param device path s.advance)
      have ht : t = (afterRemoval param (s.advance.remove device path)).2 := by
        rw [Option.some.inj h]
      exact ⟨0 + m, ht ▸ hstart.trans hm⟩

end

/-- Every node is a folder or a file. -/
theorem total_one (fs : FileSystem κ) (l : List κ) :
    fs.total (fun _ => 1) l = fs.total folderCount l + fs.total fileCount l := by
  rw [← total_add]
  congr 1
  funext n
  cases n <;> rfl

theorem removal_counts {device : Device κ} {param : Option SFileProcessParam} {path : List Byte}
    {s t : Removing κ} {n : Nat} (h : Removal device param path s 1 t) (hn : Accounts param n s t) :
    n = s.fs.total folderCount (device.naming.locate path) +
      s.fs.total fileCount (device.naming.locate path) := by
  have htotal := total_gone (f := fun _ => 1) h.shrinks.outside (node_below_none (h.gone rfl))
  have hgone := hn.gone
  rw [nodes, nodes, htotal] at hgone
  rw [← total_one]
  omega

/-! ### Copies -/

section

variable {device : CopyDevice κ} {param : Option SFileProcessParam}
  {R : Copying κ → Copying κ → Prop}

/-- What a copy does to `*value` and with `SetProgress` goes by its reports. -/
structure ByReports (param : Option SFileProcessParam) (R : Copying κ → Copying κ → Prop) :
    Prop where
  same : ∀ s t, t.value = s.value → t.progress = s.progress → R s t
  trans : ∀ {s t u}, R s t → R t u → R s u
  report : ∀ n s, R s (s.report param n).2

namespace ByReports

theorem write (h : ByReports param R) (dst data : List Byte) (s : Copying κ) :
    R s (s.write device dst data).2 := by
  rw [Copying.write]
  cases device.failure s.calls with
  | some f => exact h.same _ _ rfl rfl
  | none => exact h.same _ _ rfl rfl

theorem copyLoop (h : ByReports param R) (dst rest : List Byte) (s : Copying κ) :
    R s (copyLoop device param dst rest s).2 := by
  induction hn : rest.length using Nat.strong_induction_on generalizing rest s with
  | _ n ih =>
    subst hn
    rw [File.copyLoop]
    cases device.failure s.calls with
    | some f => exact h.same _ _ rfl rfl
    | none =>
      dsimp only
      generalize hdata : rest.take (min Upload.p2sSizeData (device.gives s.calls + 1)) = data
      split
      · exact h.same _ _ rfl rfl
      rename_i hnil
      have hw : R s ((s.transfer (.read data.length)).write device dst data).2 :=
        h.trans (h.same s (s.transfer (.read data.length)) rfl rfl) (h.write dst data _)
      split
      · exact h.trans hw (h.same _ _ rfl rfl)
      have hr := h.trans hw (h.report data.length _)
      split
      · exact h.trans hr (h.same _ _ rfl rfl)
      · refine h.trans hr (ih _ ?_ (rest.drop data.length) _ rfl)
        have hpos := List.length_pos_iff.mpr hnil
        have hlen := congrArg List.length hdata
        rw [List.length_take] at hlen
        rw [List.length_drop]
        omega

variable (device) in
theorem copyFile (h : ByReports param R) (src dst : List Byte) (s : Copying κ) :
    R s (sCopyFile device param src dst s).2 := by
  have hread : R s (s.openRead device src).2 := by
    rw [Copying.openRead]
    exact h.same _ _ (by dsimp only; split <;> rfl) (by dsimp only; split <;> rfl)
  have hwrite : ∀ t : Copying κ, R t (t.openWrite device dst).2 := by
    intro t
    rw [Copying.openWrite]
    exact h.same _ _ (by dsimp only; split <;> rfl) (by dsimp only; split <;> rfl)
  rw [sCopyFile]
  split
  · exact h.same _ _ rfl rfl
  split
  · exact h.same _ _ rfl rfl
  dsimp only
  split
  · exact hread
  have hopened := h.trans hread (hwrite _)
  split
  · exact h.trans hopened (h.same _ _ rfl rfl)
  split
  · exact h.trans (h.trans hopened (h.same _ (Copying.allocate _) rfl rfl)) (h.copyLoop dst _ _)
  · exact hopened

theorem copyEntries (h : ByReports param R) {src dst : List Byte}
    {copyPath : List Byte → List Byte → Copying κ → Option (Int × Copying κ)}
    (hrec : ∀ src dst s ret t, copyPath src dst s = some (ret, t) → R s t) (names : List Name) :
    ∀ s res t, copyEntries device param copyPath src dst names s = some (res, t) → R s t := by
  induction names with
  | nil =>
    intro s res t heq
    rw [File.copyEntries] at heq
    split at heq
    · cases heq
      exact h.same _ _ rfl rfl
    · cases heq
      exact h.same _ _ rfl rfl
  | cons name rest ih =>
    intro s res t heq
    rw [File.copyEntries] at heq
    split at heq
    · cases heq
      exact h.same _ _ rfl rfl
    dsimp only at heq
    have hread : R s (s.transfer (.dread 1)) := h.same _ _ rfl rfl
    split at heq
    · exact h.trans hread (ih _ _ _ heq)
    split at heq
    · cases heq
    rename_i ret u hentry
    have hu : R (s.transfer (.dread 1)) u := by
      split at hentry
      · exact hrec _ _ _ _ _ hentry
      · have hfile := h.copyFile device (entryPath src name) (entryPath dst name)
          (s.transfer (.dread 1))
        rwa [Option.some.inj hentry] at hfile
    split at heq
    · cases heq
      exact h.trans hread hu
    · exact h.trans (h.trans hread hu) (ih _ _ _ heq)

theorem copyPath (h : ByReports param R) {fuel : Nat} : ∀ {src dst s ret t},
    sCopyPath device param fuel src dst s = some (ret, t) → R s t := by
  induction fuel with
  | zero =>
    intro src dst s ret t heq
    cases heq
  | succ fuel ih =>
    intro src dst s ret t heq
    have hdopen : R s (s.dopen device src).2 := by
      rw [Copying.dopen]
      exact h.same _ _ (by dsimp only; split <;> rfl) (by dsimp only; split <;> rfl)
    have hmkdir : ∀ u : Copying κ, R u (u.mkdir device dst).2 := fun u => h.same _ _ rfl rfl
    have hclose : ∀ u : Copying κ, R u u.close := fun u => h.same _ _ rfl rfl
    rw [sCopyPath] at heq
    split at heq
    · cases heq
      exact h.same _ _ rfl rfl
    split at heq
    · cases heq
      exact h.same _ _ rfl rfl
    dsimp only at heq
    split at heq
    · have hmade := h.trans hdopen (hmkdir _)
      split at heq
      · cases heq
        exact h.trans hmade (hclose _)
      have hreported := h.trans hmade (h.report 1 _)
      split at heq
      · cases heq
        exact h.trans hreported (hclose _)
      split at heq
      · cases heq
      · rename_i hentries
        cases heq
        exact h.trans (h.trans hreported (h.copyEntries (fun _ _ _ _ _ => ih) _ _ _ _ hentries))
          (hclose _)
      · rename_i hentries
        cases heq
        exact h.trans (h.trans hreported (h.copyEntries (fun _ _ _ _ _ => ih) _ _ _ _ hentries))
          (hclose _)
    · have hfile := h.copyFile device src dst (s.dopen device src).2
      rw [Option.some.inj heq] at hfile
      exact h.trans hdopen hfile

end ByReports

/-- The last call of `SetProgress`, if there is a new one, has shown `*value`. -/
def Shows (param : Option SFileProcessParam) (s t : Copying κ) : Prop :=
  t.value = s.value ∧ t.progress = s.progress ∨
    ∀ p, param = some p → p.setProgress = true → t.progress.getLast? = some (t.value.getD 0, p.max)

omit [DecidableEq κ] in
theorem shows_byReports (param : Option SFileProcessParam) :
    ByReports (κ := κ) param (Shows param) where
  same _ _ hvalue hprogress := Or.inl ⟨hvalue, hprogress⟩
  trans := by
    rintro s t u hst (⟨hvalue, hprogress⟩ | htu)
    · rcases hst with ⟨hvalue', hprogress'⟩ | hst
      · exact Or.inl ⟨hvalue.trans hvalue', hprogress.trans hprogress'⟩
      · refine Or.inr fun p hp hset => ?_
        rw [hvalue, hprogress]
        exact hst p hp hset
    · exact Or.inr htu
  report n s := by
    refine Or.inr fun p hp hset => ?_
    subst hp
    simp [Copying.report, hset]

end

/-! ### Where the progress ends -/

/-- Whatever the calls come to, a removal counts every node that goes, and no other, and the
last call of `SetProgress` shows the count.  When it returns 1 that is every file and every
folder at and below the path. -/
theorem remove_progress (device : Device κ) (param : Option SFileProcessParam) (path : List Byte)
    (fs : FileSystem κ) (value : Option UInt64) (hlisted : device.Listed fs)
    (hshort : Short device.naming path fs) (hexists : fs.node (device.naming.locate path) ≠ none) :
    ∃ ret t n, (∃ k, ∀ fuel, k ≤ fuel →
        sRemovePath device param fuel path (.start fs value) = some (ret, t)) ∧
      Accounts param n (.start fs value) t ∧
      (ret = 1 → n = fs.total folderCount (device.naming.locate path) +
        fs.total fileCount (device.naming.locate path)) := by
  obtain ⟨k, hk⟩ := fs.exists_depth
  have hreaches : Reaches device.naming fs k path (Removing.start fs value).fs :=
    ⟨.refl _ _, hshort, hexists, fun l hl => (hk l hl).trans_le (Nat.le_add_left _ _)⟩
  obtain ⟨ret, t, heq, h⟩ := sRemovePath_spec hlisted k path (.start fs value) hreaches
  obtain ⟨n, hn⟩ := sRemovePath_accounts heq
  refine ⟨ret, t, n, ⟨k, fun fuel hfuel => sRemovePath_mono hfuel _ _ _ heq⟩, hn, ?_⟩
  rintro rfl
  exact removal_counts h hn

/-- A directory with one file: two nodes go, and 2 is what is shown. -/
theorem remove_progress_directory :
    ∃ t k, (∀ fuel, k ≤ fuel → sRemovePath (.knowing namesOfTwoDirectories)
      (some ⟨2, true, none⟩) fuel (ascii "ux0:/a") (.start twoDirectories (some 0)) = some (1, t)) ∧
      t.value = some 2 ∧ t.progress.getLast? = some (2, 2) := by
  obtain ⟨-, hshort, -⟩ := twoDirectories_copies
  obtain ⟨ret, t, n, ⟨k, hk⟩, hn, hone⟩ := remove_progress (.knowing namesOfTwoDirectories)
    (some ⟨2, true, none⟩) (ascii "ux0:/a") twoDirectories (some 0)
    (listed_knowing (by decide +kernel) (by decide +kernel) (by decide +kernel)) hshort.source
    (by decide +kernel)
  have hthree : (sRemovePath (.knowing namesOfTwoDirectories) (some ⟨2, true, none⟩) 3
      (ascii "ux0:/a") (.start twoDirectories (some 0))).map Prod.fst = some 1 := by
    decide +kernel
  obtain ⟨⟨ret', t'⟩, heq, rfl⟩ := Option.map_eq_some_iff.mp hthree
  have hlast := sRemovePath_mono (le_max_right k 3) _ _ _ heq
  rw [hk _ (le_max_left k 3)] at hlast
  cases hlast
  have htwo : twoDirectories.total folderCount (Naming.caseless.locate (ascii "ux0:/a")) +
      twoDirectories.total fileCount (Naming.caseless.locate (ascii "ux0:/a")) = 2 := by
    decide +kernel
  obtain rfl : n = 2 := (hone rfl).trans htwo
  refine ⟨t, k, hk, hn.value, ?_⟩
  rw [hn.shown (by decide) _ rfl rfl, hn.value]
  rfl

theorem PathInfo.plusTree_zero (fs : FileSystem κ) (l : List κ) :
    PathInfo.plusTree ⟨some 0, some 0, some 0⟩ fs l = ⟨some (UInt64.ofNat (fs.total stSize l)),
      some (UInt32.ofNat (fs.total folderCount l)),
        some (UInt32.ofNat (fs.total fileCount l))⟩ := by
  simp [plusTree, plus]

theorem toUInt64_ofNat {n : Nat} (h : n < 2 ^ 32) : (UInt32.ofNat n).toUInt64 = UInt64.ofNat n := by
  apply UInt64.toNat_inj.mp
  rw [UInt32.toNat_toUInt64, UInt32.toNat_ofNat', UInt64.toNat_ofNat', Nat.mod_eq_of_lt h,
    Nat.mod_eq_of_lt (by omega)]

/-- The bar of a copy that nothing disturbs ends at the bytes and the folders that `s_getPathInfo`
counts. -/
theorem copy_progress (device : CopyDevice κ) (p : SFileProcessParam) (src dst : List Byte)
    (fs : FileSystem κ) (hbeside : Beside (device.naming.locate src) (device.naming.locate dst))
    (htext : isSubfolder src dst = false) (hshort : ShortPair device.naming src dst fs)
    (hlisted : device.Listed (device.naming.locate src) fs) (hno : CopyUndisturbed device (some p))
    (hclear : Clear (device.naming.locate src) (device.naming.locate dst) fs)
    (hfolders : fs.total folderCount (device.naming.locate src) < 2 ^ 32) :
    ∃ n, ∀ fuel, n ≤ fuel → ∃ c size folders files t,
      sGetPathInfo device.toDevice fs fuel src ⟨0, ⟨some 0, some 0, some 0⟩⟩ =
        some (1, ⟨c, ⟨some size, some folders, some files⟩⟩) ∧
      sCopyPath device (some p) fuel src dst (.start fs (some 0)) = some (1, t) ∧
      t.value = some (size + folders.toUInt64) ∧
      (p.setProgress = true → ∀ last, t.progress.getLast? = some last →
        last = (size + folders.toUInt64, p.max)) := by
  obtain ⟨k, hk⟩ := fs.exists_depth
  obtain ⟨ret, t, ⟨m, hm⟩, h⟩ := copied_of_listed (some p) (some 0) hbeside htext hshort hlisted
  obtain ⟨hlossless, hdone⟩ := h.complete hno (by simp [Lossless, Copying.start])
  obtain rfl := hdone hclear
  obtain ⟨-, -, hvalue⟩ := h.copied rfl hlossless
  have hcount : t.value = some (UInt64.ofNat (fs.total stSize (device.naming.locate src)) +
      (UInt32.ofNat (fs.total folderCount (device.naming.locate src))).toUInt64) := by
    have hweight : copyWeight = fun n => stSize n + folderCount n := by
      funext n
      cases n <;> rfl
    rw [hvalue, toUInt64_ofNat hfolders, hweight]
    show some (0 + UInt64.ofNat (fs.total _ _)) = _
    rw [total_add, UInt64.ofNat_add, zero_add]
  refine ⟨max k m, fun fuel hfuel => ?_⟩
  obtain ⟨⟨c, info⟩, heq, hinfo⟩ := sGetPathInfo_spec hno.failure hlisted.below fuel src
    ⟨0, ⟨some 0, some 0, some 0⟩⟩ (List.prefix_refl _) hshort.source hclear.present fun r hr => by
      have := hk _ hr
      rw [List.length_append] at this
      omega
  have hcopy := hm fuel (by omega)
  obtain rfl : info = _ := hinfo
  rw [PathInfo.plusTree_zero] at heq
  refine ⟨c, _, _, _, t, heq, hcopy, hcount, fun hset last hlast => ?_⟩
  rcases (shows_byReports (some p)).copyPath hcopy with ⟨-, hnone⟩ | hshown
  · rw [hnone] at hlast
    cases hlast
  · rw [hshown p rfl hset, hcount] at hlast
    rw [← Option.some.inj hlast]
    rfl

/-- A directory with a file of one byte. -/
theorem copy_progress_directory :
    ∃ n, ∀ fuel, n ≤ fuel → ∃ c size folders files t,
      sGetPathInfo (.knowing namesOfTwoDirectories) twoDirectories fuel (ascii "ux0:/a")
        ⟨0, ⟨some 0, some 0, some 0⟩⟩ = some (1, ⟨c, ⟨some size, some folders, some files⟩⟩) ∧
      sCopyPath (.knowing namesOfTwoDirectories) (some ⟨2, true, none⟩) fuel (ascii "ux0:/a")
        (ascii "ux0:/b") (.start twoDirectories (some 0)) = some (1, t) ∧
      t.value = some (size + folders.toUInt64) ∧
      ∀ last, t.progress.getLast? = some last → last = (size + folders.toUInt64, 2) := by
  obtain ⟨hbeside, hshort, hlisted⟩ := twoDirectories_copies
  have hsrc : Naming.caseless.locate (ascii "ux0:/a") = [ascii "ux0", ascii "a"] := by
    decide +kernel
  have hdst : Naming.caseless.locate (ascii "ux0:/b") = [ascii "ux0", ascii "b"] := by
    decide +kernel
  have hclear : Clear (Naming.caseless.locate (ascii "ux0:/a"))
    (Naming.caseless.locate (ascii "ux0:/b"))
      twoDirectories := by
    rw [hsrc, hdst]
    exact clear_twoDirectories
  obtain ⟨n, hn⟩ := copy_progress (.knowing namesOfTwoDirectories) ⟨2, true, none⟩ (ascii "ux0:/a")
    (ascii "ux0:/b") twoDirectories hbeside (by decide +kernel) hshort hlisted
    ⟨fun _ => rfl, fun _ => le_rfl, fun _ => rfl, fun _ => rfl⟩ hclear (by decide +kernel)
  refine ⟨n, fun fuel hfuel => ?_⟩
  obtain ⟨c, size, folders, files, t, hinfo, hcopy, hvalue, hshown⟩ := hn fuel hfuel
  exact ⟨c, size, folders, files, t, hinfo, hcopy, hvalue, hshown rfl⟩

end Psp2Shell.File
