import Psp2Shell.File.CopyPath

/-! Copies onto the place that is copied.  The tests of `s_copyPath` and `s_copyFile` compare the
text of the two paths, and the opening of the destination cuts the file that they both name. -/

namespace Psp2Shell.File

open CLib FileTree

variable {κ : Type} [DecidableEq κ]

/-! ### Files that are emptied -/

/-- All that has changed is that files at or below `l` have been emptied. -/
structure Emptied (l : List κ) (before after : FileSystem κ) : Prop where
  outside : ∀ m, ¬l <+: m → after.node m = before.node m
  within : ∀ m, after.node m = before.node m ∨
    (∃ c, before.node m = some (.file c)) ∧ after.node m = some (.file [])

/-- The files at and below `l` are empty. -/
def AllEmpty (l : List κ) (before after : FileSystem κ) : Prop :=
  ∀ r c, before.node (l ++ r) = some (.file c) → after.node (l ++ r) = some (.file [])

namespace Emptied

variable {l m : List κ} {fs t u : FileSystem κ}

theorem refl (l : List κ) (fs : FileSystem κ) : Emptied l fs fs :=
  ⟨fun _ _ => rfl, fun _ => Or.inl rfl⟩

theorem file (h : Emptied l fs t) {c : List Byte} (hm : fs.node m = some (.file c)) :
    ∃ c', t.node m = some (.file c') := by
  rcases h.within m with hsame | ⟨-, hempty⟩
  · exact ⟨c, hsame.trans hm⟩
  · exact ⟨[], hempty⟩

theorem trans (h : Emptied l fs t) (h' : Emptied l t u) : Emptied l fs u := by
  refine ⟨fun m hm => (h'.outside m hm).trans (h.outside m hm), fun m => ?_⟩
  rcases h.within m with hsame | ⟨hfile, hempty⟩
  · rw [← hsame]
    exact h'.within m
  · refine Or.inr ⟨hfile, ?_⟩
    rcases h'.within m with hsame | ⟨-, hempty'⟩
    · exact hsame.trans hempty
    · exact hempty'

theorem mono (h : Emptied m fs t) (hpre : l <+: m) : Emptied l fs t :=
  ⟨fun x hx => h.outside x fun hmx => hx (hpre.trans hmx), h.within⟩

theorem kinds (h : Emptied l fs t) (m : List κ) :
    (t.node m).map Node.isDir = (fs.node m).map Node.isDir := by
  rcases h.within m with hsame | ⟨⟨c, hfile⟩, hempty⟩
  · rw [hsame]
  · rw [hfile, hempty]
    rfl

theorem put {fs : FileSystem κ} {c : List Byte} (hfile : fs.node l = some (.file c)) :
    Emptied l fs (fs.put l (.file [])) := by
  refine ⟨fun m hm => node_put_of_ne fs _ ?_, fun m => ?_⟩
  · rintro rfl
    exact hm (List.prefix_refl m)
  · by_cases hm : m = l
    · subst hm
      by_cases hparent : fs.node m.dropLast = some .dir
      · exact Or.inr ⟨⟨c, hfile⟩, node_put _ hparent (by simp [hfile])⟩
      · left
        rw [FileTree.put, dif_neg (Node.not_isDir_of_ne hparent)]
    · exact Or.inl (node_put_of_ne fs _ hm)

end Emptied

theorem AllEmpty.trans_emptied {l q : List κ} {fs t u : FileSystem κ} (h : AllEmpty q fs t)
    (h' : Emptied l t u) : AllEmpty q fs u := by
  intro r c hr
  rcases h'.within (q ++ r) with hsame | ⟨-, hempty⟩
  · exact hsame.trans (h r c hr)
  · exact hempty

theorem Emptied.trans_allEmpty {l q : List κ} {fs t u : FileSystem κ} (h : Emptied l fs t)
    (h' : AllEmpty q t u) : AllEmpty q fs u := by
  intro r c hr
  obtain ⟨c', hc'⟩ := h.file hr
  exact h' r c' hc'

/-! ### Whole copies -/

/-- What a copy of what is at `l` onto itself does. -/
structure Onto (device : CopyDevice κ) (param : Option SFileProcessParam) (l : List κ)
    (before : Copying κ) (ret : Int) (after : Copying κ) : Prop where
  emptied : Emptied l before.fs after.fs
  returns : ret ≤ 0 ∨ ret = 1
  complete : CopyUndisturbed device param → before.fs.node l ≠ none →
    ret = 1 ∧ AllEmpty l before.fs after.fs

section

variable {device : CopyDevice κ} {param : Option SFileProcessParam}

variable (device param) in
/-- The loop of `s_copyFile` on an empty file. -/
theorem copyLoop_nil (dst : List Byte) (s : Copying κ) :
    ∃ t, copyLoop device param dst [] s = (1, t) ∧ t.fs = s.fs := by
  rw [copyLoop]
  cases device.failure s.calls with
  | some f => exact ⟨_, rfl, rfl⟩
  | none =>
    dsimp only
    rw [if_pos List.take_nil]
    exact ⟨_, rfl, rfl⟩

variable (device param) in
theorem sCopyFile_onto {src dst : List Byte} (s : Copying κ) (hsrc : src ≠ dst)
    (hplace : device.naming.locate src = device.naming.locate dst)
    (htext : isSubfolder src dst = false)
    (hroot : device.naming.locate src ≠ [])
    (hnodir : CopyUndisturbed device param → s.fs.node (device.naming.locate src) ≠ some .dir) :
    ∃ ret t, sCopyFile device param src dst s = (ret, t) ∧
      Onto device param (device.naming.locate src) s ret t := by
  rw [sCopyFile, if_neg hsrc, if_neg (by simp [htext])]
  obtain ⟨fdsrc, u, hopen, hufs, -, -, -, ⟨hfd, -, hfail⟩ | ⟨hfd, -, c, hfile⟩⟩ :=
    openRead_spec device src s
  · rw [hopen]
    dsimp only
    rw [if_pos hfd]
    refine ⟨_, _, rfl, by rw [hufs]; exact .refl _ _, Or.inl hfd.le, fun hno hpresent => ?_⟩
    obtain ⟨n, hn⟩ := Option.ne_none_iff_exists'.mp hpresent
    cases n with
    | dir => exact absurd hn (hnodir hno)
    | file c => exact absurd hn (hfail (hno.failure _) c)
  rw [hopen]
  dsimp only
  rw [if_neg (by omega)]
  have hparent :=
    node_dropLast hroot (by rw [hfile]; simp : s.fs.node (device.naming.locate src) ≠ none)
  obtain ⟨fddst, v, hwrite, -, -, -, ⟨hfd', hvfs, -, hfail⟩ | ⟨hfd', hvfs, -, hfree, -⟩⟩ :=
    openWrite_spec device dst u
  · rw [hwrite]
    dsimp only
    rw [if_pos hfd']
    refine ⟨_, _, rfl, ?_, Or.inl hfd'.le, fun hno _ => ?_⟩
    · show Emptied _ s.fs v.fs
      rw [hvfs, hufs]
      exact .refl _ _
    · rw [hufs, ← hplace] at hfail
      exact absurd hparent (hfail (hno.failure _) (by simp [hfile]))
  rw [hwrite]
  dsimp only
  rw [if_neg (by omega)]
  rw [hufs, ← hplace] at hvfs
  have hempty : v.fs.node (device.naming.locate src) = some (.file []) := by
    rw [hvfs]
    exact node_put _ hparent (by simp [hfile])
  have hemptied : Emptied (device.naming.locate src) s.fs v.fs := hvfs ▸ .put hfile
  have hall : AllEmpty (device.naming.locate src) s.fs v.fs := by
    intro r c' hr
    by_cases hnil : r = []
    · rwa [hnil, List.append_nil]
    · rw [node_above hnil (by rw [hr]; simp)] at hfile
      cases hfile
  rw [content_eq hempty]
  split
  · obtain ⟨t, heq, hfs⟩ := copyLoop_nil device param dst v.allocate
    exact ⟨1, t, heq, by rw [hfs]; exact hemptied, Or.inr rfl,
      fun _ _ => ⟨rfl, by rw [hfs]; exact hall⟩⟩
  · exact ⟨_, _, rfl, hemptied, Or.inl (by decide), fun hno _ => absurd (hno.malloc _) ‹_›⟩

/-- The path of a directory up to the names of its entries. -/
def dirText (path : List Byte) : List Byte := path ++ if p2sHasEndSlash path then [] else [slash]

theorem join_dirText (path : List Byte) (name : Name) :
    join path name = dirText path ++ name.text :=
  join_eq path name

theorem dirText_join_ne {src dst : List Byte} (h : dirText src ≠ dirText dst) (name : Name) :
    join src name ≠ join dst name ∧ dirText (join src name) ≠ dirText (join dst name) := by
  have hne : join src name ≠ join dst name := by
    rw [join_dirText, join_dirText]
    exact fun heq => h (List.append_cancel_right heq)
  refine ⟨hne, fun heq => hne ?_⟩
  have hplain : ∀ path, p2sHasEndSlash (join path name) = false := by
    intro path
    rw [p2sHasEndSlash, join_dirText, List.getLast?_append_of_ne_nil _ name.nonempty]
    by_contra hend
    exact (name.plain slash (List.mem_of_getLast? (by simpa using hend))).2.1 rfl
  rw [dirText, dirText, hplain, hplain] at heq
  exact List.append_cancel_right heq

/-- The same places are taken, by nodes of the same kinds. -/
def Alike (start fs : FileSystem κ) : Prop :=
  ∀ m, (fs.node m).map Node.isDir = (start.node m).map Node.isDir

theorem Alike.ne_none {start fs : FileSystem κ} (h : Alike start fs) (m : List κ) :
    fs.node m ≠ none ↔ start.node m ≠ none := by
  have := congrArg Option.isSome (h m)
  rw [Option.isSome_map, Option.isSome_map] at this
  rw [← Option.isSome_iff_ne_none, ← Option.isSome_iff_ne_none, this]

theorem Alike.emptied {start fs t : FileSystem κ} {l : List κ} (h : Alike start fs)
    (ht : Emptied l fs t) :
    Alike start t :=
  fun m => (ht.kinds m).trans (h m)

/-- `sceIoDread` goes once through the entries of every directory, as long as the same places
are taken as in `start`. -/
def CopyDevice.ListsAlike (device : CopyDevice κ) (start : FileSystem κ) : Prop :=
  ∀ n path fs, Alike start fs → fs.node (device.naming.locate path) = some .dir →
    Lists device.naming path (device.listing n path fs) fs

/-- What a call of `s_copyPath` for the two spellings of one place finds. -/
structure OntoReaches (naming : Naming κ) (start : FileSystem κ) (fuel : Nat) (src dst : List Byte)
    (fs : FileSystem κ) : Prop where
  place : naming.locate src = naming.locate dst
  differ : src ≠ dst ∧ dirText src ≠ dirText dst
  text : isSubfolder src dst = false
  root : naming.locate src ≠ []
  short : ShortPair naming src dst start
  alike : Alike start fs
  depth : ∀ r, start.node (naming.locate src ++ r) ≠ none → r.length < fuel
  positive : 0 < fuel

theorem OntoReaches.entry {naming : Naming κ} {start fs t : FileSystem κ} {fuel : Nat}
    {src dst : List Byte} (h : OntoReaches naming start (fuel + 1) src dst fs) {name : Name}
    (hname : name.isDot = false)
    (halike : Alike start t)
    (hpresent : start.node (naming.locate src ++ [naming.key name]) ≠ none) :
    OntoReaches naming start fuel (join src name) (join dst name) t where
  place := by rw [naming.locate_join src name hname, naming.locate_join dst name hname, h.place]
  differ := dirText_join_ne h.differ.2 name
  text := by
    by_contra htext
    have := isSubfolder_join (by simpa using htext)
    rw [h.text] at this
    cases this
  root := by
    rw [naming.locate_join src name hname]
    simp
  short := h.short.join hname
  alike := halike
  depth r hr := by
    rw [naming.locate_join src name hname, List.append_assoc] at hr
    have := h.depth _ hr
    rw [List.length_append, List.length_singleton] at this
    omega
  positive := by
    have := h.depth _ hpresent
    rw [List.length_singleton] at this
    omega

/-- What the loop over the entries of the directory at `l` does. -/
structure EntriesOnto (device : CopyDevice κ) (param : Option SFileProcessParam) (l keys : List κ)
    (before : Copying κ) (res : Option Int) (after : Copying κ) : Prop where
  emptied : Emptied l before.fs after.fs
  refused : ∀ ret, res = some ret → ret ≤ 0
  complete : CopyUndisturbed device param →
    res = none ∧ ∀ k ∈ keys, AllEmpty (l ++ [k]) before.fs after.fs

/-- The call for one entry, of the loop or of `s_copyFile`. -/
theorem entry_onto {start : FileSystem κ}
    {copyPath : List Byte → List Byte → Copying κ → Option (Int × Copying κ)} {fuel : Nat}
    (hrec : ∀ src dst s, OntoReaches device.naming start fuel src dst s.fs →
      ∃ ret t, copyPath src dst s = some (ret, t) ∧
        Onto device param (device.naming.locate src) s ret t)
    {src dst : List Byte} {s : Copying κ} {name : Name} (hname : name.isDot = false)
    (hreach : OntoReaches device.naming start (fuel + 1) src dst s.fs)
    (hpresent : start.node (device.naming.locate src ++ [device.naming.key name]) ≠ none) :
    ∃ ret t,
      (if (s.fs.node (device.naming.locate src ++ [device.naming.key name])).any Node.isDir then
        copyPath (entryPath src name) (entryPath dst name) (s.transfer (.dread 1))
      else some (sCopyFile device param (entryPath src name) (entryPath dst name)
        (s.transfer (.dread 1)))) = some (ret, t) ∧
      Onto device param (device.naming.locate src ++ [device.naming.key name]) s ret t := by
  have hentry := hreach.entry hname hreach.alike hpresent
  obtain ⟨hsrc, hdst⟩ := hreach.short.entryPath hname hpresent
  rw [hsrc, hdst, ← device.naming.locate_join src name hname]
  split
  · obtain ⟨ret, t, heq, h⟩ := hrec _ _ (s.transfer (.dread 1)) hentry
    exact ⟨ret, t, heq, h.emptied, h.returns, h.complete⟩
  · rename_i hfile
    obtain ⟨ret, t, heq, h⟩ := sCopyFile_onto device param (s.transfer (.dread 1))
      hentry.differ.1 hentry.place hentry.text hentry.root fun _ hdir => hfile (by
        have hnode : s.fs.node (device.naming.locate (join src name)) = some .dir := hdir
        rw [hnode]
        rfl)
    exact ⟨ret, t, by rw [heq], h.emptied, h.returns, h.complete⟩

theorem copyEntries_onto {start : FileSystem κ}
    {copyPath : List Byte → List Byte → Copying κ → Option (Int × Copying κ)} {fuel : Nat}
    (hrec : ∀ src dst s, OntoReaches device.naming start fuel src dst s.fs →
      ∃ ret t, copyPath src dst s = some (ret, t) ∧
        Onto device param (device.naming.locate src) s ret t)
    {src dst : List Byte} (names : List Name) : ∀ s : Copying κ,
      OntoReaches device.naming start (fuel + 1) src dst s.fs →
      (∀ k ∈ entryKeys device.naming names, start.node (device.naming.locate src ++ [k]) ≠ none) →
      ∃ res t, copyEntries device param copyPath src dst names s = some (res, t) ∧
        EntriesOnto device param (device.naming.locate src)
          (entryKeys device.naming names) s res t := by
  induction names with
  | nil =>
    intro s hreach _
    rw [copyEntries]
    cases device.failure s.calls with
    | some f => exact ⟨none, _, rfl, .refl _ _, by simp, fun _ => ⟨rfl, by simp [entryKeys]⟩⟩
    | none => exact ⟨none, _, rfl, .refl _ _, by simp, fun _ => ⟨rfl, by simp [entryKeys]⟩⟩
  | cons name rest ih =>
    intro s hreach hpresent
    rw [copyEntries]
    cases hfail : device.failure s.calls with
    | some f =>
      refine ⟨none, _, rfl, .refl _ _, by simp, fun hno => ?_⟩
      rw [hno.failure] at hfail
      cases hfail
    | none =>
      dsimp only
      by_cases hdot : name.isDot = true
      · have hkeys : entryKeys device.naming (name :: rest) = entryKeys device.naming rest := by
          simp [entryKeys, hdot]
        rw [hkeys] at hpresent ⊢
        rw [if_pos hdot]
        obtain ⟨res, t, heq, h⟩ := ih (s.transfer (.dread 1)) hreach hpresent
        exact ⟨res, t, heq, h.emptied, h.refused, h.complete⟩
      have hname : name.isDot = false := by simpa using hdot
      rw [Lists.keys_cons hname] at hpresent ⊢
      have hhere := hpresent _ List.mem_cons_self
      have hpresent' := (hreach.alike.ne_none _).mpr hhere
      obtain ⟨ret, u, heq, hone⟩ := entry_onto hrec hname hreach hhere
      have hu : Emptied (device.naming.locate src) s.fs u.fs :=
        hone.emptied.mono (List.prefix_append _ _)
      rw [if_neg hdot, heq]
      dsimp only
      by_cases hret : ret ≤ 0
      · rw [if_pos hret]
        refine ⟨some ret, u, rfl, hu, ?_, fun hno => ?_⟩
        · rintro _ ⟨⟩
          exact hret
        · have := (hone.complete hno hpresent').1
          omega
      rw [if_neg hret]
      obtain ⟨res, t, heq', h⟩ := ih u { hreach with alike := hreach.alike.emptied hu } fun k hk =>
        hpresent k (List.mem_cons_of_mem _ hk)
      refine ⟨res, t, heq', hu.trans h.emptied, h.refused, fun hno => ?_⟩
      obtain ⟨hres, hrest⟩ := h.complete hno
      refine ⟨hres, fun k hk => ?_⟩
      rcases List.mem_cons.mp hk with rfl | hk
      · exact (hone.complete hno hpresent').2.trans_emptied h.emptied
      · exact hu.trans_allEmpty (hrest k hk)

theorem mkdir_there (device : CopyDevice κ) {path : List Byte} {s : Copying κ}
    (h : s.fs.node (device.naming.locate path) = some .dir) :
    ∃ ret t, s.mkdir device path = (ret, t) ∧ t.fs = s.fs ∧ ret < 0 ∧
      (device.failure s.calls = none → ret = sceErrorErrnoEexist) := by
  rw [Copying.mkdir, sceIoMkdir.eq_def]
  cases device.failure s.calls with
  | some f => exact ⟨_, _, rfl, rfl, f.negative, by simp⟩
  | none =>
    rw [h]
    exact ⟨_, _, rfl, rfl, by decide, fun _ => rfl⟩

/-- A directory is at the place that its entries are at. -/
theorem EntriesOnto.directory {l keys : List κ} {before after : Copying κ} {res : Option Int}
    (hdir : before.fs.node l = some .dir) (hkeys : EntriesOf before.fs l keys)
    (h : EntriesOnto device param l keys before res after) :
    Onto device param l before (res.getD 1) after := by
  refine ⟨h.emptied, ?_, fun hno _ => ?_⟩
  · cases res with
    | none => exact Or.inr rfl
    | some ret => exact Or.inl (h.refused ret rfl)
  · obtain ⟨rfl, hall⟩ := h.complete hno
    refine ⟨rfl, fun r c hr => ?_⟩
    cases r with
    | nil =>
      rw [List.append_nil, hdir] at hr
      cases hr
    | cons k r =>
      have hk : k ∈ keys := by
        by_contra hk
        rw [hkeys.below_none hk] at hr
        cases hr
      have := hall k hk r c (by rwa [List.append_assoc])
      rwa [List.append_assoc] at this

theorem sCopyPath_onto {start : FileSystem κ} (hlisted : device.ListsAlike start) (fuel : Nat) :
    ∀ src dst s, OntoReaches device.naming start fuel src dst s.fs →
      ∃ ret t, sCopyPath device param fuel src dst s = some (ret, t) ∧
        Onto device param (device.naming.locate src) s ret t := by
  induction fuel with
  | zero =>
    intro src dst s h
    exact absurd h.positive (lt_irrefl 0)
  | succ fuel ih =>
    intro src dst s h
    rw [sCopyPath, if_neg h.differ.1, if_neg (by simp [h.text])]
    obtain ⟨dfd, u, hopen, hufs, -, -, -, ⟨hfd, -, hfail⟩ | ⟨hfd, -, hdir⟩⟩ :=
      dopen_spec device src s
    · rw [hopen]
      dsimp only
      rw [if_neg (by omega)]
      obtain ⟨ret, t, heq, hone⟩ := sCopyFile_onto device param u h.differ.1 h.place
        h.text h.root fun hno => by
          rw [hufs]
          exact hfail (hno.failure _)
      exact ⟨ret, t, by rw [heq], hufs ▸ hone.emptied, hone.returns, hufs ▸ hone.complete⟩
    rw [hopen]
    dsimp only
    rw [if_pos hfd]
    -- the directory is there already
    have hexists : u.fs.node (device.naming.locate dst) = some .dir := by rw [hufs, ← h.place, hdir]
    obtain ⟨ret, v, hmkdir, hvfs, hret, hcode⟩ := mkdir_there device hexists
    rw [hmkdir]
    dsimp only
    have hwfs : (v.report param 1).2.fs = s.fs := by rw [Copying.report_fs, hvfs, hufs]
    split
    · rename_i hstop
      refine ⟨ret, _, rfl, ?_, Or.inl hret.le, fun hno _ => absurd (hcode (hno.failure _)) hstop.2⟩
      show Emptied _ s.fs v.fs
      rw [hvfs, hufs]
      exact .refl _ _
    split
    · rename_i hcancelled
      refine ⟨0, _, rfl, ?_, Or.inl le_rfl, fun hno => ?_⟩
      · show Emptied _ s.fs (v.report param 1).2.fs
        rw [hwfs]
        exact .refl _ _
      · rw [Copying.report_never hno.never] at hcancelled
        cases hcancelled
    have hlists := hlisted s.calls src s.fs h.alike hdir
    obtain ⟨res, t, heq, hentries⟩ := copyEntries_onto ih (device.listing s.calls src s.fs)
      (v.report param 1).2 (hwfs ▸ h) fun k hk => (h.alike.ne_none _).mp ((hlists.every k).mp hk)
    rw [heq]
    have honto := hentries.directory (hwfs ▸ hdir) (hwfs ▸ hlists.every)
    cases res with
    | none => exact ⟨1, t.close, rfl, hwfs ▸ honto.emptied, honto.returns, hwfs ▸ honto.complete⟩
    | some ret =>
      exact ⟨ret, t.close, rfl, hwfs ▸ honto.emptied, honto.returns, hwfs ▸ honto.complete⟩

end

/-- A spelling of the same length is no text below the other one. -/
theorem isSubfolder_spelling {src dst : List Byte} (hlength : src.length = dst.length)
    (hne : src ≠ dst) : isSubfolder src dst = false := by
  by_contra hno
  rcases isSubfolder_iff.mp (by simpa using hno) with hslash | ⟨hinitial, -⟩
  · have hle := hslash.length_le
    rw [List.length_append, List.length_singleton] at hle
    omega
  · exact hne (hinitial.eq_of_length hlength)

theorem dirText_spelling {src dst : List Byte} (hlength : src.length = dst.length)
    (hne : src ≠ dst) : dirText src ≠ dirText dst := by
  intro heq
  have hend : p2sHasEndSlash src = p2sHasEndSlash dst := by
    have htotal := congrArg List.length heq
    rw [dirText, dirText, List.length_append, List.length_append, hlength] at htotal
    cases hsrc : p2sHasEndSlash src <;> cases hdst : p2sHasEndSlash dst <;>
      simp [hsrc, hdst] at htotal ⊢
  rw [dirText, dirText, hend] at heq
  exact hne (List.append_cancel_right heq)

/-- `s_copyPath` to another spelling of the path that it copies, of the same length as one in
capitals is, gets past its tests.  It changes nothing but that it empties files at and below the
path.  Without disturbance it returns 1, and has emptied them all. -/
theorem copy_path_onto_itself (device : CopyDevice κ) (param : Option SFileProcessParam)
    (src dst : List Byte) (fs : FileSystem κ) (value : Option UInt64)
    (hplace : device.naming.locate src = device.naming.locate dst)
    (hroot : device.naming.locate src ≠ []) (hlength : src.length = dst.length) (hne : src ≠ dst)
    (hshort : ShortPair device.naming src dst fs) (hlisted : device.ListsAlike fs)
    (hexists : fs.node (device.naming.locate src) ≠ none) :
    isSubfolder src dst = false ∧
      ∃ ret t, (∃ n, ∀ fuel, n ≤ fuel →
          sCopyPath device param fuel src dst (.start fs value) = some (ret, t)) ∧
        Emptied (device.naming.locate src) fs t.fs ∧
        (CopyUndisturbed device param → ret = 1 ∧ AllEmpty (device.naming.locate src) fs t.fs) := by
  have htext := isSubfolder_spelling hlength hne
  obtain ⟨n, hn⟩ := fs.exists_depth
  have hreach : OntoReaches device.naming fs (n + 1) src dst (Copying.start fs value).fs := by
    refine ⟨hplace, ⟨hne, dirText_spelling hlength hne⟩, htext, hroot, hshort, fun _ => rfl,
      fun r hr => ?_, Nat.succ_pos n⟩
    have := hn _ hr
    rw [List.length_append] at this
    omega
  obtain ⟨ret, t, heq, h⟩ := sCopyPath_onto hlisted (n + 1) src dst _ hreach
  refine ⟨htext, ret, t, ⟨n + 1, fun fuel hfuel => sCopyPath_mono hfuel _ _ _ _ heq⟩, h.emptied, ?_⟩
  exact fun hno => h.complete hno hexists

/-- A copy of a directory to the same path in capitals empties its file. -/
theorem copy_path_onto_itself_capitals :
    ∃ t n, (∀ fuel, n ≤ fuel → sCopyPath (.knowing namesOfTwoDirectories) none fuel (ascii "ux0:/a")
        (ascii "ux0:/A") (.start twoDirectories none) = some (1, t)) ∧
      t.fs.node [ascii "ux0", ascii "a", ascii "x"] = some (.file []) := by
  have hlocate : Naming.caseless.locate (ascii "ux0:/a") = [ascii "ux0", ascii "a"] := by
    decide +kernel
  have hlisted : (CopyDevice.knowing namesOfTwoDirectories).ListsAlike twoDirectories := by
    intro n path fs halike hdir
    refine lists_knowing (by decide +kernel) (by decide +kernel) (fun k hk => ?_) n
    obtain ⟨node, hnode⟩ := Option.ne_none_iff_exists'.mp ((halike.ne_none _).mp hk)
    have hall : ∀ e ∈ twoDirectories.entries, ∀ k ∈ e.1,
        k ∈ namesOfTwoDirectories.map Naming.caseless.key := by
      decide +kernel
    exact hall _ (node_eq_some.mp hnode) k (by simp)
  have hshort : ShortPair .caseless (ascii "ux0:/a") (ascii "ux0:/A") twoDirectories := by
    refine shortPair_caseless fun r hr => ?_
    rw [hlocate] at hr
    rcases below_a hr with rfl | rfl <;> decide +kernel
  obtain ⟨-, ret, t, ⟨n, hn⟩, -, hdone⟩ := copy_path_onto_itself (.knowing namesOfTwoDirectories)
    none (ascii "ux0:/a") (ascii "ux0:/A") twoDirectories none (by decide +kernel)
    (by decide +kernel) (by decide +kernel) (by decide +kernel) hshort hlisted (by decide +kernel)
  obtain ⟨rfl, hall⟩ := hdone (copyUndisturbed_knowing _)
  change AllEmpty (Naming.caseless.locate (ascii "ux0:/a")) _ _ at hall
  rw [hlocate] at hall
  exact ⟨t, n, hn, hall [ascii "x"] [1] (by decide +kernel)⟩

end Psp2Shell.File
