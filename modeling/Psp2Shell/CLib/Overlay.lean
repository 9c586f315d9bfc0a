import Psp2Shell.CLib.FileTree

/-! Additions to a tree: a node put in a directory, and the nodes at one location laid over those at
another. -/

namespace Psp2Shell.CLib

theorem Node.not_isDir_of_ne {α : Type} {o : Option (Node α)} (h : o ≠ some .dir) :
    ¬o.any Node.isDir = true :=
  fun hany => h (FileTree.eq_dir_of_any hany)

namespace FileTree

variable {κ α : Type} [DecidableEq κ]

/-! ### Putting a node -/

theorem put_unique (fs : FileTree κ α) (l : List κ) (n : Node α) :
    (((l, n) :: fs.entries.filter fun e => e.1 ≠ l).map Prod.fst).Nodup := by
  rw [List.map_cons, List.nodup_cons]
  refine ⟨fun hmem => ?_, fs.unique.sublist (List.filter_sublist.map _)⟩
  obtain ⟨e, he, heq⟩ := List.mem_map.mp hmem
  simpa [heq] using (List.mem_filter.mp he).2

theorem put_closed {fs : FileTree κ α} {l : List κ} (n : Node α)
    (hparent : (fs.node l.dropLast).any Node.isDir = true)
    (hfree : ¬(fs.node l).any Node.isDir = true) :
    ∀ e ∈ (l, n) :: fs.entries.filter fun e => e.1 ≠ l, e.1 ≠ [] →
      (e.1.dropLast, Node.dir) ∈ (l, n) :: fs.entries.filter fun e => e.1 ≠ l := by
  have hkeep : ∀ m, fs.node m = some .dir →
      (m, Node.dir) ∈ (l, n) :: fs.entries.filter fun e => e.1 ≠ l := by
    intro m hm
    have hne : m ≠ l := by
      rintro rfl
      simp [hm, Node.isDir] at hfree
    apply List.mem_cons_of_mem
    exact List.mem_filter.mpr ⟨node_eq_some.mp hm, by simpa using hne⟩
  intro e he hne
  apply hkeep
  rcases List.mem_cons.mp he with rfl | hmem
  · exact eq_dir_of_any hparent
  · exact node_eq_some.mpr (fs.closed e (List.mem_filter.mp hmem).1 hne)

/-- Put a node at a location in a directory, in the place of the file that is
there, if there is one. -/
def put (fs : FileTree κ α) (l : List κ) (n : Node α) : FileTree κ α :=
  if parent : (fs.node l.dropLast).any Node.isDir then
    if taken : (fs.node l).any Node.isDir then fs
    else
      { entries := (l, n) :: fs.entries.filter fun e => e.1 ≠ l
        unique := put_unique fs l n
        closed := put_closed n parent taken }
  else fs

theorem node_put {fs : FileTree κ α} {l : List κ} (n : Node α)
    (hparent : fs.node l.dropLast = some .dir) (hfree : fs.node l ≠ some .dir) :
    (fs.put l n).node l = some n := by
  have hany : (fs.node l.dropLast).any Node.isDir = true := by
    rw [hparent]
    rfl
  rw [put, dif_pos hany, dif_neg (Node.not_isDir_of_ne hfree), node_eq_some]
  exact List.mem_cons_self

theorem node_put_of_ne (fs : FileTree κ α) {l m : List κ} (n : Node α) (h : m ≠ l) :
    (fs.put l n).node m = fs.node m := by
  rw [put]
  split
  · split
    · rfl
    · apply node_congr
      intro k
      simp [h]
  · rfl

/-- Beside a location in a directory is the node above it, and it is a directory. -/
theorem node_dropLast {fs : FileTree κ α} {l : List κ} (hl : l ≠ []) (h : fs.node l ≠ none) :
    fs.node l.dropLast = some .dir := by
  obtain ⟨n, hn⟩ := Option.ne_none_iff_exists'.mp h
  exact node_eq_some.mpr (fs.closed _ (node_eq_some.mp hn) hl)

/-! ### Additions at or below a location -/

/-- Nothing has gone or become a node of another kind, and what has changed is at or below `l`. -/
structure Grows (l : List κ) (before after : FileTree κ α) : Prop where
  outside : ∀ m, ¬l <+: m → after.node m = before.node m
  kinds : ∀ m n, before.node m = some n → (after.node m).map Node.isDir = some n.isDir

namespace Grows

variable {l m : List κ} {fs t u : FileTree κ α}

theorem refl (l : List κ) (fs : FileTree κ α) : Grows l fs fs :=
  ⟨fun _ _ => rfl, fun _ _ h => congrArg _ h⟩

theorem trans (h : Grows l fs t) (h' : Grows l t u) : Grows l fs u := by
  refine ⟨fun m hm => (h'.outside m hm).trans (h.outside m hm), fun m n hn => ?_⟩
  obtain ⟨k, hk, hkind⟩ := Option.map_eq_some_iff.mp (h.kinds m n hn)
  rw [h'.kinds m k hk, hkind]

theorem mono (h : Grows m fs t) (hpre : l <+: m) : Grows l fs t :=
  ⟨fun x hx => h.outside x fun hmx => hx (hpre.trans hmx), h.kinds⟩

theorem put (fs : FileTree κ α) {l : List κ} {n : Node α}
    (h : ∀ k, fs.node l = some k → k.isDir = n.isDir) : Grows l fs (fs.put l n) := by
  refine ⟨fun m hm => node_put_of_ne fs n ?_, fun m k hk => ?_⟩
  · rintro rfl
    exact hm (List.prefix_refl m)
  · by_cases hm : m = l
    · subst hm
      rw [FileTree.put]
      split
      · split
        · rw [hk]
          rfl
        · rw [h k hk, Option.map_eq_some_iff]
          exact ⟨n, node_eq_some.mpr List.mem_cons_self, rfl⟩
      · rw [hk]
        rfl
    · rw [node_put_of_ne fs n hm, hk]
      rfl

theorem dir (h : Grows l fs t) {m : List κ} (hm : fs.node m = some .dir) :
    t.node m = some .dir := by
  obtain ⟨n, hn, hkind⟩ := Option.map_eq_some_iff.mp (h.kinds m _ hm)
  rw [hn, Node.eq_dir hkind]

theorem file (h : Grows l fs t) {m : List κ} {c : α} (hm : fs.node m = some (.file c)) :
    ∃ c', t.node m = some (.file c') := by
  obtain ⟨n, hn, hkind⟩ := Option.map_eq_some_iff.mp (h.kinds m _ hm)
  obtain ⟨c', rfl⟩ := Node.exists_file hkind
  exact ⟨c', hn⟩

end Grows

/-! ### One place laid over another -/

/-- A node laid over the node at another location: a directory is merged with what is there. -/
def laid : Option (Node α) → Option (Node α) → Option (Node α)
  | none, old => old
  | some .dir, some old => some old
  | some n, _ => some n

/-- What was at and below `s` has been laid over what was at and below `d`. -/
def LaidOver (s d : List κ) (before after : FileTree κ α) : Prop :=
  ∀ r, after.node (d ++ r) = laid (before.node (s ++ r)) (before.node (d ++ r))

end FileTree

end Psp2Shell.CLib
