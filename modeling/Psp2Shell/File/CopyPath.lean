import Psp2Shell.File.CopyTree

/-! The copy of a path: where `s_copyPath` writes, what it leaves open, and
when the copy is whole. -/

namespace Psp2Shell.File

open CLib FileTree Upload

variable {κ : Type} [DecidableEq κ]

/-- The state in which `s_copyPath` is called. -/
def Copying.start (fs : FileSystem κ) (value : Option UInt64) : Copying κ :=
  ⟨fs, 0, [], 0, 0, value, []⟩

/-- `s_copyPath` ends, with what `Copied` says. -/
theorem copied_of_listed {device : CopyDevice κ} {src dst : List Byte} {fs : FileSystem κ}
    (param : Option SFileProcessParam) (value : Option UInt64)
    (hbeside : Beside (device.naming.locate src) (device.naming.locate dst))
    (htext : isSubfolder src dst = false) (hshort : ShortPair device.naming src dst fs)
    (hlisted : device.Listed (device.naming.locate src) fs) :
    ∃ ret t, (∃ n, ∀ fuel, n ≤ fuel →
        sCopyPath device param fuel src dst (.start fs value) = some (ret, t)) ∧
      Copied device param (device.naming.locate src) (device.naming.locate dst)
        (.start fs value) ret t := by
  obtain ⟨n, hn⟩ := fs.exists_depth
  have hreach : CopyReaches device.naming (device.naming.locate src) fs (n + 1) src dst
      (Copying.start fs value).fs := by
    refine ⟨List.prefix_refl _, hbeside, htext, hshort, fun _ _ => rfl,
      fun r hr => ?_, Nat.succ_pos n⟩
    have := hn _ hr
    rw [List.length_append] at this
    omega
  obtain ⟨ret, t, heq, h⟩ := sCopyPath_spec hlisted (n + 1) src dst _ hreach
  exact ⟨ret, t, ⟨n + 1, fun fuel hfuel => sCopyPath_mono hfuel _ _ _ _ heq⟩, h⟩

/-! ### A device on which nothing fails -/

def CopyDevice.knowing (names : List Name) : CopyDevice (List Byte) where
  toDevice := .knowing names
  gives _ := 0
  takes _ := p2sSizeData
  malloc _ := true
  eexist _ _ h := nomatch h

theorem copyUndisturbed_knowing (names : List Name) : CopyUndisturbed (.knowing names) none where
  failure _ := rfl
  takes _ := le_rfl
  malloc _ := rfl
  never _ := rfl

theorem foldl_join_length (path : List Byte) (names : List Name) :
    (names.foldl join path).length ≤
    path.length + (names.map fun name => name.text.length + 1).sum := by
  induction names generalizing path with
  | nil => rfl
  | cons name rest ih =>
    have hrest := ih (join path name)
    have hjoin : (join path name).length ≤ path.length + (name.text.length + 1) := by
      rw [join_eq]
      split <;> simp
    rw [List.foldl_cons, List.map_cons, List.sum_cons]
    omega

omit [DecidableEq κ] in
theorem Naming.locate_foldl (naming : Naming κ) (path : List Byte) {names : List Name}
    (hplain : ∀ name ∈ names, name.isDot = false) :
    naming.locate (names.foldl join path) = naming.locate path ++ names.map naming.key := by
  induction names generalizing path with
  | nil => simp
  | cons name rest ih =>
    rw [List.foldl_cons, ih _ fun n hn => hplain n (List.mem_cons_of_mem _ hn),
      naming.locate_join path name (hplain name List.mem_cons_self), List.map_cons,
      List.append_assoc]
    rfl

theorem shortPair_caseless {src dst : List Byte} {fs : FileSystem (List Byte)}
    (h : ∀ r, fs.node (Naming.caseless.locate src ++ r) ≠ none →
      max src.length dst.length + (r.map fun k => k.length + 1).sum < maxPathLength) :
    ShortPair .caseless src dst fs := by
  intro names hplain hnode
  rw [Naming.locate_foldl _ _ hplain] at hnode
  have hlen := h _ hnode
  have hkeys : ((names.map Naming.caseless.key).map fun k => k.length + 1) =
      names.map fun name => name.text.length + 1 := by
    rw [List.map_map]
    apply List.map_congr_left
    intro name _
    show (name.text.map lower).length + 1 = _
    rw [List.length_map]
  rw [hkeys] at hlen
  have hsrc := foldl_join_length src names
  have hdst := foldl_join_length dst names
  omega

omit [DecidableEq κ] in
theorem beside_of {s d : List κ} (hsd : ¬s <+: d) (hds : ¬d <+: s) : Beside s d := by
  intro m hs hd
  rcases List.prefix_or_prefix_of_prefix hs hd with h | h
  · exact hsd h
  · exact hds h

theorem below_a {r : List (List Byte)}
    (hr : twoDirectories.node ([ascii "ux0", ascii "a"] ++ r) ≠ none) :
    r = [] ∨ r = [ascii "x"] := by
  obtain ⟨node, hnode⟩ := Option.ne_none_iff_exists'.mp hr
  have hmem := FileTree.node_eq_some.mp hnode
  have hne : ascii "a" ≠ ascii "b" := by decide
  simp [twoDirectories, hne] at hmem
  exact hmem.imp And.left And.left

/-- What a copy from one directory of `twoDirectories` to the other finds. -/
theorem twoDirectories_copies :
    Beside (Naming.caseless.locate (ascii "ux0:/a")) (Naming.caseless.locate (ascii "ux0:/b")) ∧
    ShortPair .caseless (ascii "ux0:/a") (ascii "ux0:/b") twoDirectories ∧
    (CopyDevice.knowing namesOfTwoDirectories).Listed (Naming.caseless.locate (ascii "ux0:/a"))
      twoDirectories := by
  have hlocate : Naming.caseless.locate (ascii "ux0:/a") = [ascii "ux0", ascii "a"] := by
    decide +kernel
  refine ⟨beside_of (by decide +kernel) (by decide +kernel), shortPair_caseless fun r hr => ?_,
    fun n path fs hsame hunder hdir => ?_⟩
  · rw [hlocate] at hr
    rcases below_a hr with rfl | rfl <;> decide +kernel
  · refine lists_knowing (by decide +kernel) (by decide +kernel) (fun k hk => ?_) n
    obtain ⟨q, hq⟩ := hunder
    rw [hlocate] at hq
    change [ascii "ux0", ascii "a"] ++ q = Naming.caseless.locate path at hq
    rw [← hq, hsame _ (by rw [hlocate, List.append_assoc]; exact List.prefix_append _ _),
      List.append_assoc] at hk
    rcases below_a hk with h | h
    · simp at h
    · have hmem : k ∈ [ascii "x"] := h ▸ by simp
      rw [List.mem_singleton.mp hmem]
      decide +kernel

theorem clear_twoDirectories :
    Clear [ascii "ux0", ascii "a"] [ascii "ux0", ascii "b"] twoDirectories := by
  refine ⟨by decide +kernel, by decide +kernel, fun r c hr => ?_, fun r k c hr => ?_⟩
  · rcases below_a (by rw [hr]; simp) with rfl | rfl
    · have hdir : twoDirectories.node ([ascii "ux0", ascii "a"] ++ []) = some .dir := by
        decide +kernel
      rw [hdir] at hr
      cases hr
    · decide +kernel
  · rcases below_a hr with h | h
    · simp at h
    · obtain ⟨rfl, -⟩ := List.append_inj' (h.trans (List.nil_append _).symm) rfl
      have hdir : twoDirectories.node ([ascii "ux0", ascii "b"] ++ []) = some .dir := by
        decide +kernel
      rw [hdir]
      simp

/-! ### Copies of a path -/

/-- `s_copyPath` ends.  It changes nothing elsewhere than at or below the destination, and nothing
there goes or becomes a node of another kind.  It frees its buffers and closes its descriptors, but
for the two of a file for which `p2s_malloc` gave no buffer. -/
theorem copy_path_confined (device : CopyDevice κ) (param : Option SFileProcessParam)
    (src dst : List Byte) (fs : FileSystem κ) (value : Option UInt64)
    (hbeside : Beside (device.naming.locate src) (device.naming.locate dst))
    (htext : isSubfolder src dst = false) (hshort : ShortPair device.naming src dst fs)
    (hlisted : device.Listed (device.naming.locate src) fs) :
    ∃ ret t, (∃ n, ∀ fuel, n ≤ fuel →
        sCopyPath device param fuel src dst (.start fs value) = some (ret, t)) ∧
      (∀ m, ¬device.naming.locate dst <+: m → t.fs.node m = fs.node m) ∧
      (∀ m n, fs.node m = some n → (t.fs.node m).map Node.isDir = some n.isDir) ∧
      (ret ≤ 0 ∨ ret = 1) ∧ t.buffers = 0 ∧
      (t.descriptors = 0 ∨ ret = -3 ∧ t.descriptors = 2 ∧ ∃ n, device.malloc n = false) := by
  obtain ⟨ret, t, hends, h⟩ := copied_of_listed param value hbeside htext hshort hlisted
  refine ⟨ret, t, hends, h.goes.grows.outside, h.goes.grows.kinds, h.returns, h.buffers, ?_⟩
  have hdesc := h.descriptors
  rwa [Copying.start, Nat.zero_add] at hdesc

/-- The other directory is all that a copy changes. -/
theorem copy_path_confined_directory :
    ∃ ret t n, (∀ fuel, n ≤ fuel →
      sCopyPath (.knowing namesOfTwoDirectories) none fuel (ascii "ux0:/a")
        (ascii "ux0:/b") (.start twoDirectories none) = some (ret, t)) ∧
      t.fs.node [ascii "ux0", ascii "a", ascii "x"] = some (.file [1]) ∧ t.descriptors = 0 := by
  obtain ⟨hbeside, hshort, hlisted⟩ := twoDirectories_copies
  obtain ⟨ret, t, ⟨n, hn⟩, houtside, -, -, -, hdesc⟩ :=
    copy_path_confined (.knowing namesOfTwoDirectories)
    none (ascii "ux0:/a") (ascii "ux0:/b") twoDirectories none hbeside
      (by decide +kernel) hshort hlisted
  refine ⟨ret, t, n, hn, ?_, hdesc.resolve_right ?_⟩
  · rw [houtside]
    · decide +kernel
    · decide +kernel
  · rintro ⟨-, -, k, hk⟩
    cases hk

/-- When `s_copyPath` returns 1 the source has been laid over the destination, unless a `sceIoRead`
or `sceIoDread` failed or a `sceIoWrite` took less than it was given.  Without disturbance there is
no such call, and it returns 1 exactly when every node of the source has a place. -/
theorem copy_path_exact (device : CopyDevice κ) (param : Option SFileProcessParam)
    (src dst : List Byte) (fs : FileSystem κ) (value : Option UInt64)
    (hbeside : Beside (device.naming.locate src) (device.naming.locate dst))
    (htext : isSubfolder src dst = false) (hshort : ShortPair device.naming src dst fs)
    (hlisted : device.Listed (device.naming.locate src) fs) :
    ∃ ret t, (∃ n, ∀ fuel, n ≤ fuel →
        sCopyPath device param fuel src dst (.start fs value) = some (ret, t)) ∧
      (ret = 1 → Lossless t.log → LaidOver (device.naming.locate src)
        (device.naming.locate dst) fs t.fs) ∧
      (CopyUndisturbed device param → Lossless t.log ∧
        (ret = 1 ↔ Clear (device.naming.locate src) (device.naming.locate dst) fs)) := by
  obtain ⟨ret, t, hends, h⟩ := copied_of_listed param value hbeside htext hshort hlisted
  refine ⟨ret, t, hends, fun hret hlossless => (h.copied hret hlossless).2.1, fun hno => ?_⟩
  obtain ⟨hlossless, hdone⟩ := h.complete hno (by simp [Lossless, Copying.start])
  exact ⟨hlossless, fun hret => (h.copied hret hlossless).1, hdone⟩

/-- The file of one directory replaces the file of the other. -/
theorem copy_path_exact_directory :
    ∃ t n, (∀ fuel, n ≤ fuel → sCopyPath (.knowing namesOfTwoDirectories) none fuel (ascii "ux0:/a")
        (ascii "ux0:/b") (.start twoDirectories none) = some (1, t)) ∧
      t.fs.node [ascii "ux0", ascii "b", ascii "x"] = some (.file [1]) := by
  obtain ⟨hbeside, hshort, hlisted⟩ := twoDirectories_copies
  obtain ⟨ret, t, ⟨n, hn⟩, hlaid, hdone⟩ := copy_path_exact (.knowing namesOfTwoDirectories) none
    (ascii "ux0:/a") (ascii "ux0:/b") twoDirectories none hbeside (by decide +kernel) hshort hlisted
  obtain ⟨hlossless, hret⟩ := hdone (copyUndisturbed_knowing _)
  have hsrc : Naming.caseless.locate (ascii "ux0:/a") = [ascii "ux0", ascii "a"] := by
    decide +kernel
  have hdst : Naming.caseless.locate (ascii "ux0:/b") = [ascii "ux0", ascii "b"] := by
    decide +kernel
  change _ ↔ Clear (Naming.caseless.locate _) (Naming.caseless.locate _) _ at hret
  change _ → _ → LaidOver (Naming.caseless.locate _) (Naming.caseless.locate _) _ _ at hlaid
  rw [hsrc, hdst] at hret hlaid
  obtain rfl := hret.mpr clear_twoDirectories
  refine ⟨t, n, hn, (hlaid rfl hlossless [ascii "x"]).trans ?_⟩
  decide +kernel

end Psp2Shell.File
