import Psp2Shell.File.Move

/-! What the return value of a move says: when `s_movePath` returns 1, and when all of the source is
then at the destination. -/

namespace Psp2Shell.File

open CLib FileTree

variable {κ : Type} [DecidableEq κ]

/-- The move has happened: `s` is gone, all that was at or under it is at the corresponding place
under `d`, and what was under `d` already, in no place of an entry of `s`, is as it was. -/
structure Moved (s d : List κ) (before after : FileSystem κ) : Prop where
  gone : after.node s = none
  arrived : ∀ r n, before.node (s ++ r) = some n → after.node (d ++ r) = some n
  untouched : ∀ r n, ¬s <+: d ++ r → before.node (s ++ r) = none → before.node (d ++ r) = some n →
    after.node (d ++ r) = some n

/-- `s_movePath` reports success only when the move has happened. -/
def Reported (naming : Naming κ) (flags : BitVec 32) (outcomes : Outcomes) (src dst : List Byte)
    (fs : FileSystem κ) : Prop :=
  (sMovePath naming flags outcomes src dst fs).1 = 1 →
    Moved (naming.locate src) (naming.locate dst) fs (sMovePath naming flags outcomes src dst fs).2

/-! ### Conditions -/

/-- The keys of the entries that `sceIoDread` returns. -/
def Reads.keys (naming : Naming κ) : Reads → List κ
  | .stop => []
  | .entry name _ rest =>
    if name.isDot then rest.keys naming else naming.key name :: rest.keys naming

mutual

/-- The text of the paths is refused, there is nothing to move, or the renaming is done; or the
destination is taken and the move stops, replaces a file, or integrates a directory.  That directory
is apart from the destination, all of its entries are read and composed to paths that fit, and their
moves are sound, and `sceIoRmdir` does not fail. -/
def Sound (naming : Naming κ) (flags : BitVec 32) (fs : FileSystem κ) :
    Outcomes → List Byte → List Byte → Prop
  | .mk calls reads, src, dst =>
    Refused src dst ∨ fs.node (naming.locate src) = none ∨
    (calls.rename = none ∧ fs.Renamable (naming.locate src) (naming.locate dst)) ∨
    Taken flags calls (naming.locate dst) fs ∧
      (Stops flags calls (naming.locate src) (naming.locate dst) fs ∨
        Replaces flags (naming.locate src) (naming.locate dst) fs ∨
        Integrates flags (naming.locate src) (naming.locate dst) fs ∧
          Apart (naming.locate src) (naming.locate dst) fs ∧
          (∀ k, fs.node (naming.locate src ++ [k]) ≠ none → k ∈ reads.keys naming) ∧
          SoundReads naming flags fs reads src dst ∧ calls.rmdir = none)

def SoundReads (naming : Naming κ) (flags : BitVec 32) (fs : FileSystem κ) :
    Reads → List Byte → List Byte → Prop
  | .stop, _, _ => True
  | .entry name moved rest, src, dst =>
    (name.isDot = false → (join src name).length < maxPathLength ∧
      (join dst name).length < maxPathLength ∧
      Sound naming flags fs moved (join src name) (join dst name)) ∧
    SoundReads naming flags fs rest src dst

end

/-! ### Moves that happen -/

/-- All of `s` is at `d`, and nothing else has changed than at or under `s` and at the places of its
entries. -/
structure Relocates (s d : List κ) (before after : FileSystem κ) : Prop where
  gone : after.node s = none
  arrived : ∀ r n, before.node (s ++ r) = some n → after.node (d ++ r) = some n
  elsewhere : ∀ l, ¬s <+: l → (∀ r, l = d ++ r → before.node (s ++ r) = none) →
    after.node l = before.node l

namespace Relocates

variable {s d : List κ} {fs t u : FileSystem κ}

theorem moved (h : Relocates s d fs t) : Moved s d fs t := by
  refine ⟨h.gone, h.arrived, fun r n hout hnone hd => ?_⟩
  rw [h.elsewhere _ hout fun r' heq => List.append_cancel_left heq ▸ hnone, hd]

theorem of_missing (h : fs.node s = none) : Relocates s d fs fs := by
  refine ⟨h, fun r n hr => ?_, fun _ _ _ => rfl⟩
  rw [node_below_none h r] at hr
  cases hr

theorem of_rename (h : fs.rename s d = .ok t) : Relocates s d fs t := by
  refine ⟨by simpa using node_rename_old h [], fun r n hr => (node_rename_new h r).trans hr, ?_⟩
  intro l hs hnone
  by_cases hd : d <+: l
  · obtain ⟨r, rfl⟩ := hd
    rw [node_rename_new h, hnone r rfl, node_below_none (rename_ok h).1]
  · exact node_rename_other h hs hd

/-- A file that has been replaced by another. -/
theorem of_replace {c c' : List Byte} (hs : fs.node s = some (.file c))
    (hd : fs.node d = some (.file c')) (ht : t = fs ∨ t = fs.remove d) (hu : t.rename s d = .ok u) :
    Relocates s d fs u := by
  obtain ⟨hfree, hpresent, -, -⟩ := rename_ok hu
  obtain rfl : t = fs.remove d := ht.resolve_left (by rintro rfl; simp [hfree] at hd)
  have hne : s ≠ d := by
    rintro rfl
    exact hpresent hfree
  have hrename := of_rename hu
  have hsame : ∀ r, fs.node (s ++ r) ≠ none → r = [] := fun r hr => below_file hs hr
  refine ⟨hrename.gone, fun r n hr => ?_, fun l hout hnone => ?_⟩
  · obtain rfl := hsame r (by simp [hr])
    rw [List.append_nil] at hr
    apply hrename.arrived
    rw [List.append_nil, node_remove_of_ne fs hne, hr]
  · have hld : l ≠ d := by
      rintro rfl
      have := hnone [] (List.append_nil l).symm
      simp [hs] at this
    rw [← node_remove_of_ne fs hld]
    refine hrename.elsewhere l hout fun r heq => ?_
    exact ((Shrinks.remove fs d).less (s ++ r)).elim id fun hless => hless.trans (hnone r heq)

end Relocates

/-! ### One move -/

section

variable {naming : Naming κ} {flags : BitVec 32} {calls : Calls} {reads : Reads}
  {src dst : List Byte} {fs : FileSystem κ}

/-- A sound move that goes on with a taken destination, and replaces no file,
integrates a directory. -/
theorem Sound.integrates (h : Sound naming flags fs (.mk calls reads) src dst)
    (htext : ¬Refused src dst) (htaken : Taken flags calls (naming.locate dst) fs)
    (hgo : ¬Stops flags calls (naming.locate src) (naming.locate dst) fs)
    (hfile : ¬Replaces flags (naming.locate src) (naming.locate dst) fs) :
    Integrates flags (naming.locate src) (naming.locate dst) fs ∧
      Apart (naming.locate src) (naming.locate dst) fs ∧
      (∀ k, fs.node (naming.locate src ++ [k]) ≠ none → k ∈ reads.keys naming) ∧
      SoundReads naming flags fs reads src dst ∧ calls.rmdir = none := by
  rw [Sound] at h
  rcases h with h | h | ⟨hcall, hren⟩ | ⟨-, h | h | h⟩
  · exact absurd h htext
  · exact absurd (stops_of_missing h) hgo
  · have htaken' := htaken.1
    rw [hcall] at htaken'
    exact absurd hren.free htaken'
  · exact absurd h hgo
  · exact absurd h hfile
  · exact h

theorem relocates_one {t : FileSystem κ} (h : Sound naming flags fs (.mk calls reads) src dst)
    (hone : MovedAs flags calls src dst (naming.locate src) (naming.locate dst) fs (some 1, t)) :
    Relocates (naming.locate src) (naming.locate dst) fs t := by
  cases hone with
  | refused htext hres => exact absurd hres (by decide)
  | renamed hcall hrename => exact .of_rename hrename
  | ignored htext hrename htaken =>
    rw [Sound] at h
    rcases h with h | h | h | h
    · exact absurd h htext
    · exact .of_missing h
    · exact absurd h hrename
    · exact absurd h.1 htaken
  | stopped htaken hstops hres => exact absurd hres (by decide)
  | replaced htaken files hres ht => exact absurd hres (by decide)
  | replacedRenamed htaken files ht hu =>
    obtain ⟨⟨c, hs⟩, ⟨c', hd⟩, -⟩ := files
    exact .of_replace hs hd ht hu
  | left htext htaken hgo hfile hdir =>
    exact absurd (h.integrates htext htaken hgo hfile).1 hdir

end

/-! ### States that agree -/

/-- The nodes that the move of `s` to `d` looks at are the same. -/
structure Agrees (s d : List κ) (fs t : FileSystem κ) : Prop where
  source : ∀ r, t.node (s ++ r) = fs.node (s ++ r)
  target : ∀ r, fs.node (s ++ r) ≠ none → t.node (d ++ r) = fs.node (d ++ r)
  parent : t.node d.dropLast = fs.node d.dropLast

namespace Agrees

variable {s d : List κ} {fs t : FileSystem κ}

theorem source_root (h : Agrees s d fs t) : t.node s = fs.node s := by
  simpa using h.source []

theorem target_root (h : Agrees s d fs t) (hs : fs.node s ≠ none) : t.node d = fs.node d := by
  simpa using h.target [] (by simpa using hs)

theorem child (h : Agrees s d fs t) (hs : fs.node s ≠ none) (k : κ) :
    Agrees (s ++ [k]) (d ++ [k]) fs t := by
  refine ⟨fun r => ?_, fun r hr => ?_, ?_⟩
  · rw [List.append_assoc]
    exact h.source _
  · rw [List.append_assoc] at hr ⊢
    exact h.target _ hr
  · rw [List.dropLast_concat]
    exact h.target_root hs

theorem apart (h : Agrees s d fs t) (ha : Apart s d fs) : Apart s d t := by
  intro r hr
  rw [h.source] at hr
  exact ha r hr

end Agrees

section

variable {naming : Naming κ} {flags : BitVec 32} {fs t : FileSystem κ}

mutual

/-- Whether a move is sound depends on the nodes that it looks at. -/
theorem sound_congr : ∀ (outcomes : Outcomes) {src dst : List Byte},
    Agrees (naming.locate src) (naming.locate dst) fs t → Sound naming flags fs outcomes src dst →
      Sound naming flags t outcomes src dst
  | .mk calls reads, src, dst, hagrees, h => by
    by_cases hs : fs.node (naming.locate src) = none
    · rw [Sound]
      exact Or.inr (Or.inl (hagrees.source_root.trans hs))
    have hsrc := hagrees.source_root
    have hdst := hagrees.target_root hs
    rw [Sound] at h ⊢
    rcases h with h | h | ⟨hcall, hren⟩ | ⟨htaken, h⟩
    · exact Or.inl h
    · exact absurd h hs
    · refine Or.inr (Or.inr (Or.inl ⟨hcall, ?_⟩))
      exact ⟨by rw [hsrc]; exact hren.present, by rw [hdst]; exact hren.free, hren.outside,
        by rw [hagrees.parent]; exact hren.parent⟩
    · refine Or.inr (Or.inr (Or.inr ⟨by rwa [Taken, hdst], ?_⟩))
      rcases h with h | h | ⟨hdirs, hapart, hall, hreads, hrmdir⟩
      · exact Or.inl (by rwa [Stops, Integrates, hsrc, hdst])
      · exact Or.inr (Or.inl (by rwa [Replaces, hsrc, hdst]))
      · refine Or.inr (Or.inr ⟨by rwa [Integrates, hsrc, hdst],
          hagrees.apart hapart, fun k hk => ?_, soundReads_congr reads hs hagrees hreads, hrmdir⟩)
        rw [hagrees.source] at hk
        exact hall k hk

theorem soundReads_congr : ∀ (reads : Reads) {src dst : List Byte},
    fs.node (naming.locate src) ≠ none → Agrees (naming.locate src) (naming.locate dst) fs t →
      SoundReads naming flags fs reads src dst → SoundReads naming flags t reads src dst
  | .stop, _, _, _, _, _ => by rw [SoundReads]; trivial
  | .entry name moved rest, src, dst, hs, hagrees, h => by
    rw [SoundReads] at h ⊢
    refine ⟨fun hname => ?_, soundReads_congr rest hs hagrees h.2⟩
    obtain ⟨hfitsrc, hfitdst, hsound⟩ := h.1 hname
    refine ⟨hfitsrc, hfitdst, sound_congr moved ?_ hsound⟩
    rw [naming.locate_join src name hname, naming.locate_join dst name hname]
    exact hagrees.child hs _

end

end

/-! ### Integrations -/

/-- The entry `k` of `s` has been moved. -/
structure Done (s d : List κ) (k : κ) (start fs : FileSystem κ) : Prop where
  gone : fs.node (s ++ [k]) = none
  arrived : ∀ r n, start.node (s ++ k :: r) = some n → fs.node (d ++ k :: r) = some n

/-- The entry `k` of `s` and the places that its move looks at are as they were. -/
structure Waiting (s d : List κ) (k : κ) (start fs : FileSystem κ) : Prop where
  source : ∀ r, fs.node (s ++ k :: r) = start.node (s ++ k :: r)
  target : ∀ r, start.node (s ++ k :: r) ≠ none → fs.node (d ++ k :: r) = start.node (d ++ k :: r)

/-- The state of an integration of `s` into `d`: each entry has been moved or waits, and
nothing else has changed. -/
structure Integrating (s d : List κ) (start fs : FileSystem κ) : Prop where
  root : fs.node s = start.node s
  each : ∀ k, Done s d k start fs ∨ Waiting s d k start fs
  elsewhere : ∀ l, ¬s <+: l → (∀ k r, l = d ++ k :: r → start.node (s ++ k :: r) = none) →
    fs.node l = start.node l

namespace Integrating

variable {s d : List κ} {k : κ} {start fs t : FileSystem κ}

theorem refl (s d : List κ) (fs : FileSystem κ) : Integrating s d fs fs :=
  ⟨rfl, fun _ => Or.inr ⟨fun _ => rfl, fun _ _ => rfl⟩, fun _ _ _ => rfl⟩

theorem started (h : Integrating s d start fs) {r : List κ} (hr : fs.node (s ++ k :: r) ≠ none) :
    start.node (s ++ k :: r) ≠ none := by
  rcases h.each k with hdone | hwaiting
  · have hbelow := FileTree.node_below_none hdone.gone r
    rw [List.append_assoc] at hbelow
    exact absurd hbelow hr
  · rwa [← hwaiting.source r]

/-- A part of the source is not the place of an entry. -/
theorem source_ne (h : Integrating s d start fs) (ha : Apart s d start) {l r : List κ}
    (heq : s ++ l = d ++ [k] ++ r) : fs.node (s ++ [k] ++ r) = none := by
  by_contra hne
  rw [List.append_assoc] at hne heq
  exact ha (k :: r) (h.started hne) ⟨l, heq⟩

theorem target_root (h : Integrating s d start fs) (ha : Apart s d start)
    (hs : start.node s ≠ none) :
    fs.node d = start.node d := by
  refine h.elsewhere d (by simpa using ha [] (by simpa using hs)) fun k r heq => ?_
  have hlen := congrArg List.length heq
  simp at hlen

theorem agrees (h : Integrating s d start fs) (ha : Apart s d start) (hs : start.node s ≠ none)
    (hwaiting : Waiting s d k start fs) : Agrees (s ++ [k]) (d ++ [k]) start fs := by
  refine ⟨fun r => ?_, fun r hr => ?_, ?_⟩
  · rw [List.append_assoc]
    exact hwaiting.source r
  · rw [List.append_assoc] at hr ⊢
    exact hwaiting.target r hr
  · rw [List.dropLast_concat]
    exact h.target_root ha hs

section Step

variable (ha : Apart s d start) (h : Integrating s d start fs)
  (hmoved : Relocates (s ++ [k]) (d ++ [k]) fs t)
include ha h hmoved

theorem source_same {l : List κ} (hl : ¬s ++ [k] <+: s ++ l) : t.node (s ++ l) = fs.node (s ++ l) :=
  hmoved.elsewhere _ hl fun _ heq => h.source_ne ha heq

omit h in
/-- The place of another entry of `s` stays as it is. -/
theorem target_same {k' : κ} (hk : k' ≠ k) {r : List κ} (hr : start.node (s ++ k' :: r) ≠ none) :
    t.node (d ++ k' :: r) = fs.node (d ++ k' :: r) := by
  refine hmoved.elsewhere _ (fun hpre => ?_) fun r' heq => ?_
  · exact ha (k' :: r) hr ((List.prefix_append s [k]).trans hpre)
  · rw [List.append_assoc] at heq
    exact absurd (List.cons.inj (List.append_cancel_left heq)).1 hk

theorem done : Done s d k start t := by
  refine ⟨hmoved.gone, fun r n hn => ?_⟩
  rcases h.each k with hdone | hwaiting
  · rw [← hdone.arrived r n hn]
    refine hmoved.elsewhere _ (fun hpre => ?_) fun r' _ => FileTree.node_below_none hdone.gone r'
    exact ha (k :: r) (by simp [hn]) ((List.prefix_append s [k]).trans hpre)
  · have harrived := hmoved.arrived r n
    rw [List.append_assoc, List.append_assoc] at harrived
    exact harrived ((hwaiting.source r).trans hn)

theorem other {k' : κ} (hk : k' ≠ k) : Done s d k' start t ∨ Waiting s d k' start t := by
  have hout : ∀ r, ¬s ++ [k] <+: s ++ k' :: r := fun r hpre => by
    rw [List.prefix_append_right_inj, List.cons_prefix_cons] at hpre
    exact hk hpre.1.symm
  have hsource : ∀ r, t.node (s ++ k' :: r) = fs.node (s ++ k' :: r) := fun r =>
    h.source_same ha hmoved (hout r)
  rcases h.each k' with hdone | hwaiting
  · left
    refine ⟨(hsource []).trans hdone.gone, fun r n hn => ?_⟩
    rw [target_same ha hmoved hk (by simp [hn]), hdone.arrived r n hn]
  · right
    refine ⟨fun r => (hsource r).trans (hwaiting.source r), fun r hr => ?_⟩
    rw [target_same ha hmoved hk hr, hwaiting.target r hr]

theorem step : Integrating s d start t := by
  refine ⟨?_, fun k' => ?_, fun l hl hnone => ?_⟩
  · have hroot := h.source_same ha hmoved (l := []) fun hpre => by simpa using hpre.length_le
    rw [List.append_nil] at hroot
    exact hroot.trans h.root
  · by_cases hk : k' = k
    · subst hk
      exact Or.inl (h.done ha hmoved)
    · exact h.other ha hmoved hk
  · rw [← h.elsewhere l hl hnone]
    have hin : ¬s ++ [k] <+: l := fun hpre => hl ((List.prefix_append s [k]).trans hpre)
    refine hmoved.elsewhere l hin fun r heq => ?_
    by_contra hne
    rw [List.append_assoc] at hne heq
    exact h.started hne (hnone k r heq)

end Step

end Integrating

/-- An integration whose entries have all been moved, and whose directory is removed. -/
theorem Integrating.relocates {naming : Naming κ} {src : List Byte} {d : List κ}
    {start fs : FileSystem κ} (ha : Apart (naming.locate src) d start)
    (h : Integrating (naming.locate src) d start fs)
    (hs : start.node (naming.locate src) = some .dir)
    (hd : start.node d = some .dir)
    (hgone : ∀ k, start.node (naming.locate src ++ [k]) ≠ none →
      fs.node (naming.locate src ++ [k]) = none) :
    Relocates (naming.locate src) d start (sceIoRmdir naming none src fs).2 := by
  have hs' : start.node (naming.locate src) ≠ none := by simp [hs]
  have hdir : fs.node (naming.locate src) = some .dir := h.root.trans hs
  have hrmdir : (sceIoRmdir naming none src fs).2 = fs.rmdir (naming.locate src) := by
    rw [sceIoRmdir.eq_def, hdir]
  have hempty : ∀ k, fs.node (naming.locate src ++ [k]) = none := by
    intro k
    by_contra hne
    exact hne (hgone k (h.started hne))
  have hsame : ∀ l, ¬naming.locate src <+: l → (fs.rmdir (naming.locate src)).node l = fs.node l :=
    fun l hl => node_rmdir_of_ne fs fun heq => hl (heq ▸ List.prefix_refl _)
  rw [hrmdir]
  refine ⟨node_rmdir_empty hdir hempty, fun r n hn => ?_, fun l hl hnone => ?_⟩
  · rw [hsame _ (ha r (by simp [hn]))]
    cases r with
    | nil =>
      rw [List.append_nil] at hn ⊢
      rw [h.target_root ha hs', hd, ← hs, hn]
    | cons k r =>
      rcases h.each k with hdone | hwaiting
      · exact hdone.arrived r n hn
      · have hk : start.node (naming.locate src ++ [k]) ≠ none := by
          refine node_isPrefix ⟨r, ?_⟩ (show start.node (naming.locate src ++ k :: r) ≠
            none by simp [hn])
          simp
        rw [← hwaiting.source []] at hk
        exact absurd (hempty k) hk
  · rw [hsame l hl]
    exact h.elsewhere l hl fun k r heq => hnone (k :: r) heq

section

variable {naming : Naming κ} {flags : BitVec 32}

theorem movePath_of_some {calls : Calls} {src dst : List Byte} {fs t : FileSystem κ} {res : Int}
    (h : moveOne naming flags calls src dst fs = (some res, t)) (reads : Reads) :
    sMovePath naming flags (.mk calls reads) src dst fs = (res, t) := by
  rw [sMovePath, h]

theorem movePath_of_none {calls : Calls} {src dst : List Byte} {fs t : FileSystem κ}
    (h : moveOne naming flags calls src dst fs = (none, t)) (reads : Reads) :
    sMovePath naming flags (.mk calls reads) src dst fs =
      match moveEntries naming flags reads src dst t with
      | (some ret, u) => (ret, u)
      | (none, u) => (1, (sceIoRmdir naming calls.rmdir src u).2) := by
  have heq := sMovePath.eq_1 naming flags src dst fs calls reads
  rw [h] at heq
  exact heq

theorem moveEntries_entry {name : Name} (h : name.isDot = false) (moved : Outcomes) (rest : Reads)
    (src dst : List Byte) (fs : FileSystem κ) :
    moveEntries naming flags (.entry name moved rest) src dst fs =
      if (sMovePath naming flags moved (entryPath src name) (entryPath dst name) fs).1 ≤ 0 then
        (some (sMovePath naming flags moved (entryPath src name) (entryPath dst name) fs).1,
          (sMovePath naming flags moved (entryPath src name) (entryPath dst name) fs).2)
      else moveEntries naming flags rest src dst
        (sMovePath naming flags moved (entryPath src name) (entryPath dst name) fs).2 := by
  rw [moveEntries, if_neg (by simp [h])]

theorem moveEntries_dot {name : Name} (h : name.isDot = true) (moved : Outcomes) (rest : Reads)
    (src dst : List Byte) (fs : FileSystem κ) :
    moveEntries naming flags (.entry name moved rest) src dst fs =
      moveEntries naming flags rest src dst fs := by
  rw [moveEntries, if_pos h]

theorem moveEntries_refuses :
    ∀ (reads : Reads) {src dst : List Byte} {fs : FileSystem κ} {ret : Int},
    (moveEntries naming flags reads src dst fs).1 = some ret → ret ≤ 0
  | .stop, src, dst, fs, ret, h => by
    rw [moveEntries] at h
    cases h
  | .entry name moved rest, src, dst, fs, ret, h => by
    cases hdot : name.isDot with
    | true =>
      rw [moveEntries_dot hdot] at h
      exact moveEntries_refuses rest h
    | false =>
      rw [moveEntries_entry hdot] at h
      split at h
      · cases h
        assumption
      · exact moveEntries_refuses rest h

variable (naming flags) in
theorem movePath_returns (outcomes : Outcomes) (src dst : List Byte) (fs : FileSystem κ) :
    (sMovePath naming flags outcomes src dst fs).1 ≤ 0 ∨
      (sMovePath naming flags outcomes src dst fs).1 = 1 := by
  obtain ⟨calls, reads⟩ := outcomes
  have hone := moveOne_movedAs naming flags calls src dst fs
  cases heq : moveOne naming flags calls src dst fs with
  | mk res t =>
    rw [heq] at hone
    cases hone with
    | refused htext hres => exact Or.inl (by simpa [movePath_of_some heq] using hres.le)
    | stopped htaken hstops hres => exact Or.inl (by simpa [movePath_of_some heq] using hres.le)
    | replaced htaken files hres ht => exact Or.inl (by simpa [movePath_of_some heq] using hres.le)
    | renamed hcall hrename => exact Or.inr (by rw [movePath_of_some heq])
    | ignored htext hrename htaken => exact Or.inr (by rw [movePath_of_some heq])
    | replacedRenamed htaken files ht hu => exact Or.inr (by rw [movePath_of_some heq])
    | left htext htaken hgo hfile hdir => exact Or.inr (by rw [movePath_of_some heq])
    | integrate htext htaken hgo dirs =>
      rw [movePath_of_none heq]
      have hrefuses := @moveEntries_refuses _ _ naming flags reads src dst fs
      cases hmoved : moveEntries naming flags reads src dst fs with
      | mk ret u =>
        rw [hmoved] at hrefuses
        cases ret with
        | none => exact Or.inr rfl
        | some ret => exact Or.inl (hrefuses rfl)

mutual

/-- A sound move that returns 1 has happened. -/
theorem movePath_relocates : ∀ (outcomes : Outcomes) {src dst : List Byte} {fs : FileSystem κ},
    Sound naming flags fs outcomes src dst → (sMovePath naming flags outcomes src dst fs).1 = 1 →
      Relocates (naming.locate src) (naming.locate dst) fs
        (sMovePath naming flags outcomes src dst fs).2
  | .mk calls reads, src, dst, fs, h, hret => by
    have hone := moveOne_movedAs naming flags calls src dst fs
    cases heq : moveOne naming flags calls src dst fs with
    | mk res t =>
      rw [heq] at hone
      cases res with
      | some res =>
        rw [movePath_of_some heq] at hret ⊢
        obtain rfl : res = 1 := hret
        exact relocates_one h hone
      | none =>
        cases hone with
        | integrate htext htaken hgo hdirs =>
          have hfile : ¬Replaces flags (naming.locate src) (naming.locate dst) fs := by
            rintro ⟨⟨c, hc⟩, -⟩
            rw [hdirs.1] at hc
            cases hc
          obtain ⟨-, hapart, hall, hreads, hrmdir⟩ := h.integrates htext htaken hgo hfile
          have hs : fs.node (naming.locate src) ≠ none := by simp [hdirs.1]
          have hentries := moveEntries_relocates reads hapart hs hreads
            (.refl (naming.locate src) (naming.locate dst) fs)
          have hrefuses := @moveEntries_refuses _ _ naming flags reads src dst fs
          rw [movePath_of_none heq] at hret ⊢
          cases hmoved : moveEntries naming flags reads src dst fs with
          | mk ret u =>
            rw [hmoved] at hret hentries hrefuses
            cases ret with
            | some ret =>
              have hle := hrefuses rfl
              simp only at hret
              omega
            | none =>
              obtain ⟨hint, hgone⟩ := hentries rfl
              dsimp only
              rw [hrmdir]
              exact hint.relocates hapart hdirs.1 hdirs.2.1 fun k hk => hgone k (Or.inl (hall k hk))

theorem moveEntries_relocates : ∀ (reads : Reads) {src dst : List Byte} {start fs : FileSystem κ},
    Apart (naming.locate src) (naming.locate dst) start → start.node (naming.locate src) ≠ none →
    SoundReads naming flags start reads src dst →
    Integrating (naming.locate src) (naming.locate dst) start fs →
    (moveEntries naming flags reads src dst fs).1 = none →
      Integrating (naming.locate src) (naming.locate dst) start
        (moveEntries naming flags reads src dst fs).2 ∧
      ∀ k, k ∈ reads.keys naming ∨ fs.node (naming.locate src ++ [k]) = none →
        (moveEntries naming flags reads src dst fs).2.node (naming.locate src ++ [k]) = none
  | .stop, src, dst, start, fs, _, _, _, hint, hnone => by
    rw [moveEntries]
    exact ⟨hint, fun k hk => by simpa [Reads.keys] using hk⟩
  | .entry name moved rest, src, dst, start, fs, hapart, hs, hreads, hint, hnone => by
    rw [SoundReads] at hreads
    rw [Reads.keys]
    cases hdot : name.isDot with
    | true =>
      rw [moveEntries_dot hdot] at hnone ⊢
      exact moveEntries_relocates rest hapart hs hreads.2 hint hnone
    | false =>
      obtain ⟨hfitsrc, hfitdst, hsound⟩ := hreads.1 hdot
      have hsrc := naming.locate_join src name hdot
      have hdst := naming.locate_join dst name hdot
      rw [moveEntries_entry hdot, entryPath_eq_iff.mpr hfitsrc,
        entryPath_eq_iff.mpr hfitdst] at hnone ⊢
      have hnow : Sound naming flags fs moved (join src name) (join dst name) := by
        rcases hint.each (naming.key name) with hdone | hwaiting
        · cases moved
          rw [Sound, hsrc]
          exact Or.inr (Or.inl hdone.gone)
        · apply sound_congr moved _ hsound
          rw [hsrc, hdst]
          exact hint.agrees hapart hs hwaiting
      have hmove := movePath_relocates moved hnow
      rw [hsrc, hdst] at hmove
      have hreturns := movePath_returns naming flags moved (join src name) (join dst name) fs
      split at hnone
      · cases hnone
      · rename_i hret
        rw [if_neg hret]
        have hmoved := hmove (hreturns.resolve_left hret)
        obtain ⟨hfinal, hgone⟩ :=
          moveEntries_relocates rest hapart hs hreads.2 (hint.step hapart hmoved) hnone
        refine ⟨hfinal, fun k hk => hgone k ?_⟩
        by_cases hkey : k = naming.key name
        · subst hkey
          exact Or.inr hmoved.gone
        · rcases hk with hk | hk
          · exact Or.inl (by simpa [hkey] using hk)
          · right
            rw [hint.source_same hapart hmoved _, hk]
            simpa [List.prefix_append_right_inj] using Ne.symm hkey

end

end

/-! ### Moves that report success -/

/-- The move reads entries of a directory that it integrates. -/
def ReadsEntries (naming : Naming κ) (flags : BitVec 32) (calls : Calls) (reads : Reads)
    (src dst : List Byte) (fs : FileSystem κ) : Prop :=
  ¬Refused src dst ∧ Taken flags calls (naming.locate dst) fs ∧
    ¬Stops flags calls (naming.locate src) (naming.locate dst) fs ∧
    Integrates flags (naming.locate src) (naming.locate dst) fs ∧ reads.keys naming ≠ []

section

variable {naming : Naming κ} {flags : BitVec 32} {src dst : List Byte} {fs : FileSystem κ}

theorem Moved.apart {s d : List κ} {t : FileSystem κ} (h : Moved s d fs t) : Apart s d fs := by
  rintro r hr ⟨q, hq⟩
  obtain ⟨n, hn⟩ := Option.ne_none_iff_exists'.mp hr
  have harrived := h.arrived r n hn
  rw [← hq, node_below_none h.gone] at harrived
  cases harrived

theorem moveEntries_none : ∀ {reads : Reads}, reads.keys naming = [] →
    moveEntries naming flags reads src dst fs = (none, fs) ∧
      SoundReads naming flags fs reads src dst
  | .stop, _ => ⟨by rw [moveEntries], by rw [SoundReads]; trivial⟩
  | .entry name moved rest, h => by
    rw [Reads.keys] at h
    cases hdot : name.isDot with
    | true =>
      rw [if_pos hdot] at h
      obtain ⟨hmoved, hsound⟩ := moveEntries_none h
      rw [moveEntries_dot hdot, SoundReads]
      exact ⟨hmoved, by simp [hdot], hsound⟩
    | false => simp [hdot] at h

/-- A directory in which nothing has been read and that `sceIoRmdir` has removed. -/
theorem empty_of_gone {calls : Calls} (hdir : fs.node (naming.locate src) = some .dir)
    (hgone : (sceIoRmdir naming calls.rmdir src fs).2.node (naming.locate src) = none) :
    calls.rmdir = none ∧ ∀ k, fs.node (naming.locate src ++ [k]) = none := by
  cases hcall : calls.rmdir with
  | some f =>
    rw [hcall, show (sceIoRmdir naming (some f) src fs).2 = fs from rfl, hdir] at hgone
    cases hgone
  | none =>
    refine ⟨rfl, fun k => ?_⟩
    by_contra hne
    rw [hcall, sceIoRmdir.eq_def, hdir] at hgone
    have hsame : (fs.rmdir (naming.locate src)).node (naming.locate src ++ [k]) =
        fs.node (naming.locate src ++ [k]) := node_rmdir_of_ne fs (by simp)
    rw [← hsame] at hne
    exact node_isPrefix (List.prefix_append _ _) hne hgone

theorem sound_of_reported {calls : Calls} {reads : Reads}
    (hentries : ¬ReadsEntries naming flags calls reads src dst fs)
    (h : Reported naming flags (.mk calls reads) src dst fs) :
    Sound naming flags fs (.mk calls reads) src dst := by
  have hone := moveOne_movedAs naming flags calls src dst fs
  rw [Reported] at h
  rw [Sound]
  cases heq : moveOne naming flags calls src dst fs with
  | mk res t =>
    rw [heq] at hone
    cases hone with
    | refused htext hres => exact Or.inl htext
    | renamed hcall hrename =>
      exact Or.inr (Or.inr (Or.inl ⟨hcall, rename_isOk_iff.mp ⟨t, hrename⟩⟩))
    | ignored htext hrename htaken =>
      rw [movePath_of_some heq] at h
      exact Or.inr (Or.inl (h rfl).gone)
    | stopped htaken hstops hres => exact Or.inr (Or.inr (Or.inr ⟨htaken, Or.inl hstops⟩))
    | replaced htaken files hres ht =>
      exact Or.inr (Or.inr (Or.inr ⟨htaken, Or.inr (Or.inl files)⟩))
    | replacedRenamed htaken files ht hu =>
      exact Or.inr (Or.inr (Or.inr ⟨htaken, Or.inr (Or.inl files)⟩))
    | left htext htaken hgo hfile hdir =>
      rw [movePath_of_some heq] at h
      exact Or.inr (Or.inl (h rfl).gone)
    | integrate htext htaken hgo dirs =>
      have hkeys : reads.keys naming = [] := by
        by_contra hne
        exact hentries ⟨htext, htaken, hgo, dirs, hne⟩
      obtain ⟨hnone, hsound⟩ : moveEntries naming flags reads src dst fs = (none, fs) ∧
          SoundReads naming flags fs reads src dst := moveEntries_none hkeys
      rw [movePath_of_none heq, hnone] at h
      have hmoved := h rfl
      obtain ⟨hrmdir, hempty⟩ := empty_of_gone dirs.1 hmoved.gone
      refine Or.inr (Or.inr (Or.inr ⟨htaken, Or.inr (Or.inr ⟨dirs, hmoved.apart, fun k hk => ?_,
        hsound, hrmdir⟩)⟩))
      exact absurd (hempty k) hk

end

/-- A sound move reports success only when it has happened; and one that always does so, and reads
no entries of a directory to integrate, is sound. -/
theorem move_reports (naming : Naming κ) (flags : BitVec 32) (calls : Calls) (reads : Reads)
    (src dst : List Byte) (fs : FileSystem κ) :
    (Sound naming flags fs (.mk calls reads) src dst →
      Reported naming flags (.mk calls reads) src dst fs) ∧
    (¬ReadsEntries naming flags calls reads src dst fs →
      Reported naming flags (.mk calls reads) src dst fs →
        Sound naming flags fs (.mk calls reads) src dst) :=
  ⟨fun h hret => (movePath_relocates _ h hret).moved, sound_of_reported⟩

/-- One directory is integrated into the other. -/
theorem move_reports_integrated :
    Reported .caseless (moveIntegrate ||| moveReplace) outcomesX (ascii "ux0:/a") (ascii "ux0:/b")
      twoDirectories := by
  have hsrc : Naming.caseless.locate (ascii "ux0:/a") = [ascii "ux0", ascii "a"] := by
    decide +kernel
  have hdst : Naming.caseless.locate (ascii "ux0:/b") = [ascii "ux0", ascii "b"] := by
    decide +kernel
  have hapart : Apart (Naming.caseless.locate (ascii "ux0:/a"))
      (Naming.caseless.locate (ascii "ux0:/b")) twoDirectories := by
    intro r _
    rw [hsrc, hdst, List.cons_append, List.cons_prefix_cons, List.cons_append,
      List.cons_prefix_cons]
    exact fun h => absurd h.2.1 (by decide)
  have hentry : Sound .caseless (moveIntegrate ||| moveReplace) twoDirectories .success
      (join (ascii "ux0:/a") nameX) (join (ascii "ux0:/b") nameX) := by
    rw [Outcomes.success, Sound]
    refine Or.inr (Or.inr (Or.inr ⟨⟨by decide +kernel, by decide⟩, Or.inr (Or.inl ?_)⟩))
    exact ⟨⟨[1], by decide +kernel⟩, ⟨[2], by decide +kernel⟩, by decide⟩
  have hall : ∀ k, twoDirectories.node (Naming.caseless.locate (ascii "ux0:/a") ++ [k]) ≠ none →
      k ∈ Reads.keys .caseless (.entry nameX .success .stop) := by
    intro k hk
    obtain ⟨n, hn⟩ := Option.ne_none_iff_exists'.mp hk
    rw [hsrc] at hn
    have hmem := node_eq_some.mp hn
    have hne : ascii "a" ≠ ascii "b" := by decide
    simp [twoDirectories, hne] at hmem
    rw [hmem.1]
    decide +kernel
  refine (move_reports _ _ _ _ _ _ _).1 ?_
  rw [Sound, SoundReads, SoundReads]
  refine Or.inr (Or.inr (Or.inr
    ⟨⟨by decide +kernel, by decide⟩, Or.inr (Or.inr ⟨?_, hapart, hall, ?_, rfl⟩)⟩))
  · exact ⟨by decide +kernel, by decide +kernel, by decide⟩
  · exact ⟨fun _ => ⟨by decide, by decide, hentry⟩, trivial⟩

/-- `mv a b/c`, where there is no directory `b`: the renaming fails, and the file
is reported as moved. -/
theorem move_reports_missing :
    (∃ t, cmdMv .caseless (ascii "ux0:") (ascii "a") (ascii "b/c") .success oneFile =
        some (.green, ascii "\nmoved `ux0:/a` to `ux0:/b/c`\n\n", t) ∧
      t.entries = oneFile.entries) ∧
    ¬Reported .caseless (moveIntegrate ||| moveReplace) .success (ascii "ux0:/a") (ascii "ux0:/b/c")
      oneFile := by
  refine ⟨⟨_, rfl, by decide +kernel⟩, fun h => ?_⟩
  have hgone := (h (by decide +kernel)).gone
  revert hgone
  decide +kernel

end Psp2Shell.File
