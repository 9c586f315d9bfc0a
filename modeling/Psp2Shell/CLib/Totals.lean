import Psp2Shell.CLib.FileTree

/-! Sums over the nodes at and below a location of a tree. -/

namespace Psp2Shell.CLib.FileTree

variable {κ α : Type} [DecidableEq κ] {f : Node α → Nat} {fs t : FileTree κ α} {l : List κ}

/-- The entries at and below a location. -/
def below (fs : FileTree κ α) (l : List κ) : List (List κ × Node α) :=
  fs.entries.filter fun e => l <+: e.1

/-- The sum of `f` over the nodes at and below a location. -/
def total (f : Node α → Nat) (fs : FileTree κ α) (l : List κ) : Nat :=
  ((fs.below l).map fun e => f e.2).sum

theorem mem_below {e : List κ × Node α} : e ∈ fs.below l ↔ fs.node e.1 = some e.2 ∧ l <+: e.1 := by
  rw [below, List.mem_filter, node_eq_some]
  simp

theorem below_nodup (fs : FileTree κ α) (l : List κ) : (fs.below l).Nodup :=
  (List.Nodup.of_map Prod.fst fs.unique).filter _

theorem total_of_perm {es : List (List κ × Node α)} (h : (fs.below l).Perm es) :
    fs.total f l = (es.map fun e => f e.2).sum := by
  rw [total]
  exact (h.map fun e => f e.2).sum_eq

/-- A sum goes by the nodes at and below the location. -/
theorem total_congr (h : ∀ m, l <+: m → t.node m = fs.node m) : t.total f l = fs.total f l := by
  apply total_of_perm
  rw [List.perm_ext_iff_of_nodup (below_nodup t l) (below_nodup fs l)]
  intro e
  rw [mem_below, mem_below]
  constructor
  · rintro ⟨hnode, hpre⟩
    exact ⟨(h e.1 hpre).symm.trans hnode, hpre⟩
  · rintro ⟨hnode, hpre⟩
    exact ⟨(h e.1 hpre).trans hnode, hpre⟩

theorem total_file {c : α} (h : fs.node l = some (.file c)) : fs.total f l = f (.file c) := by
  have hperm : (fs.below l).Perm [(l, .file c)] := by
    rw [List.perm_ext_iff_of_nodup (below_nodup fs l) (List.nodup_singleton _)]
    intro e
    rw [mem_below, List.mem_singleton]
    constructor
    · rintro ⟨hnode, r, hr⟩
      by_cases hnil : r = []
      · rw [hnil, List.append_nil] at hr
        rw [← hr, h] at hnode
        exact Prod.ext hr.symm (Option.some.inj hnode).symm
      · -- nothing is below a file
        have hdir : fs.node l = some .dir := node_above hnil (by rw [hr, hnode]; simp)
        rw [h] at hdir
        cases hdir
    · rintro rfl
      exact ⟨h, List.prefix_refl l⟩
  rw [total_of_perm hperm]
  simp

theorem below_dir {keys : List κ} (hdir : fs.node l = some .dir) (honce : keys.Nodup)
    (hevery : ∀ k, k ∈ keys ↔ fs.node (l ++ [k]) ≠ none) :
    (fs.below l).Perm ((l, .dir) :: keys.flatMap fun k => fs.below (l ++ [k])) := by
  have hout : (l, Node.dir) ∉ keys.flatMap fun k => fs.below (l ++ [k]) := by
    intro hmem
    obtain ⟨k, -, hk⟩ := List.mem_flatMap.mp hmem
    have hlen := (mem_below.mp hk).2.length_le
    simp at hlen
  have hapart : (keys.flatMap fun k => fs.below (l ++ [k])).Nodup := by
    rw [List.nodup_flatMap]
    refine ⟨fun k _ => below_nodup fs _, honce.imp fun {j k} hjk e hj hk => hjk ?_⟩
    have hpre := List.prefix_of_prefix_length_le (mem_below.mp hj).2 (mem_below.mp hk).2 (by simp)
    exact List.singleton_inj.mp (List.append_cancel_left (hpre.eq_of_length (by simp)))
  rw [List.perm_ext_iff_of_nodup (below_nodup fs l) (List.nodup_cons.mpr ⟨hout, hapart⟩)]
  intro e
  rw [mem_below, List.mem_cons, List.mem_flatMap]
  constructor
  · rintro ⟨hnode, r, hr⟩
    cases r with
    | nil =>
      rw [List.append_nil] at hr
      rw [← hr, hdir] at hnode
      exact Or.inl (Prod.ext hr.symm (Option.some.inj hnode).symm)
    | cons k r =>
      have hpre : l ++ [k] <+: e.1 := ⟨r, by rw [← hr, List.append_assoc]; rfl⟩
      refine Or.inr ⟨k, (hevery k).mpr ?_, mem_below.mpr ⟨hnode, hpre⟩⟩
      exact node_isPrefix hpre (by rw [hnode]; simp)
  · rintro (rfl | ⟨k, -, hk⟩)
    · exact ⟨hdir, List.prefix_refl l⟩
    · obtain ⟨hnode, hpre⟩ := mem_below.mp hk
      exact ⟨hnode, (List.prefix_append l [k]).trans hpre⟩

/-- The sum at a directory is that of the directory and the sums at its entries. -/
theorem total_dir {keys : List κ} (hdir : fs.node l = some .dir) (honce : keys.Nodup)
    (hevery : ∀ k, k ∈ keys ↔ fs.node (l ++ [k]) ≠ none) :
    fs.total f l = f .dir + (keys.map fun k => fs.total f (l ++ [k])).sum := by
  rw [total_of_perm (below_dir hdir honce hevery), List.map_cons, List.sum_cons]
  congr 1
  clear honce hevery
  induction keys with
  | nil => rfl
  | cons k keys ih =>
    rw [List.flatMap_cons, List.map_append, List.sum_append, ih, List.map_cons, List.sum_cons]
    rfl

/-- Sums add up node by node. -/
theorem total_add (f g : Node α → Nat) (fs : FileTree κ α) (l : List κ) :
    fs.total (fun n => f n + g n) l = fs.total f l + fs.total g l := by
  rw [total, total, total]
  induction fs.below l with
  | nil => rfl
  | cons e es ih =>
    simp only [List.map_cons, List.sum_cons, ih]
    omega

/-- The sum at a node with nothing below it is that of the node. -/
theorem total_leaf {n : Node α} (h : fs.node l = some n) (hempty : ∀ k, fs.node (l ++ [k]) = none) :
    fs.total f l = f n := by
  cases n with
  | dir => simpa using @total_dir _ _ _ f fs l [] h List.nodup_nil (by simp [hempty])
  | file c => exact total_file h

/-- When all that is at and below `l` goes, the sum over the tree falls by the sum at `l`. -/
theorem total_gone (hout : ∀ m, ¬l <+: m → t.node m = fs.node m)
    (hgone : ∀ r, t.node (l ++ r) = none) :
    fs.total f [] = t.total f [] + fs.total f l := by
  have hnot : ∀ e ∈ t.below [], ¬l <+: e.1 := by
    rintro e he ⟨r, hr⟩
    have hnode := (mem_below.mp he).1
    rw [← hr, hgone] at hnode
    cases hnode
  have hperm : (fs.below []).Perm (t.below [] ++ fs.below l) := by
    rw [List.perm_ext_iff_of_nodup (below_nodup fs [])]
    · intro e
      rw [List.mem_append, mem_below, mem_below, mem_below]
      by_cases hpre : l <+: e.1
      · constructor
        · exact fun h => Or.inr ⟨h.1, hpre⟩
        · rintro (h | h)
          · exact absurd hpre (hnot e (mem_below.mpr h))
          · exact ⟨h.1, List.nil_prefix⟩
      · rw [hout e.1 hpre]
        simp [hpre]
    · rw [List.nodup_append]
      refine ⟨below_nodup t [], below_nodup fs l, ?_⟩
      rintro e he _ hl rfl
      exact hnot e he (mem_below.mp hl).2
  rw [total_of_perm hperm, List.map_append, List.sum_append]
  rfl

end Psp2Shell.CLib.FileTree
