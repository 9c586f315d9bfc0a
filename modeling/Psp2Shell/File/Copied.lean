import Psp2Shell.CLib.Totals
import Psp2Shell.File.Confined
import Psp2Shell.File.Copy

/-! What a copy does: it is confined to the destination, closes what it opens, and when it returns 1
and nothing was lost on the way the source has been laid over the destination. -/

namespace Psp2Shell.File

open CLib Upload

variable {κ : Type} [DecidableEq κ]

/-! ### Parts of a copy -/

/-- The call came to less than it was for, and the copy goes on as if it had not. -/
def Transfer.Lossy : Transfer → Prop
  | .read res => res < 0
  | .write asked res => 0 ≤ res ∧ res < asked
  | .dread res => res < 0

def Lossless (log : List Transfer) : Prop := ∀ e ∈ log, ¬e.Lossy

theorem Lossless.of_isPrefix {log log' : List Transfer} (h : Lossless log') (hpre : log <+: log') :
    Lossless log :=
  fun e he => h e (hpre.subset he)

theorem Lossless.append {log : List Transfer} {e : Transfer} (h : Lossless log) (he : ¬e.Lossy) :
    Lossless (log ++ [e]) := by
  intro e' he'
  rcases List.mem_append.mp he' with hlog | hlast
  · exact h e' hlog
  · rw [List.mem_singleton.mp hlast]
    exact he

/-- What every part of a copy to `d` keeps. -/
structure Goes (d : List κ) (s t : Copying κ) : Prop where
  grows : FileTree.Grows d s.fs t.fs
  log : s.log <+: t.log

namespace Goes

variable {d : List κ} {s t u : Copying κ}

theorem of_eq (hfs : t.fs = s.fs) (hlog : s.log <+: t.log) : Goes d s t :=
  ⟨by rw [hfs]; exact .refl _ _, hlog⟩

theorem refl (d : List κ) (s : Copying κ) : Goes d s s := of_eq rfl (List.prefix_refl _)

theorem trans (h : Goes d s t) (h' : Goes d t u) : Goes d s u :=
  ⟨h.grows.trans h'.grows, h.log.trans h'.log⟩

theorem mono {l : List κ} (h : Goes d s t) (hpre : l <+: d) : Goes l s t :=
  ⟨h.grows.mono hpre, h.log⟩

end Goes

/-- `*value` after steps that it counts as `n`. -/
def counted (param : Option SFileProcessParam) (n : Nat) (value : Option UInt64) : Option UInt64 :=
  match param with
  | none => value
  | some _ => value.map (· + UInt64.ofNat n)

theorem counted_zero (param : Option SFileProcessParam) (value : Option UInt64) :
    counted param 0 value = value := by
  cases param with
  | none => rfl
  | some p => cases value <;> simp [counted]

theorem counted_counted (param : Option SFileProcessParam) (m n : Nat) (value : Option UInt64) :
    counted param n (counted param m value) = counted param (m + n) value := by
  cases param with
  | none => rfl
  | some p => cases value <;> simp [counted, UInt64.ofNat_add, add_assoc]

/-- No call fails, nothing is cut short and nothing cancels. -/
structure CopyUndisturbed (device : CopyDevice κ) (param : Option SFileProcessParam) : Prop where
  failure : ∀ n, device.failure n = none
  takes : ∀ n, p2sSizeData ≤ device.takes n
  malloc : ∀ n, device.malloc n = true
  never : NeverCancels param

section Report

variable (param : Option SFileProcessParam) (n : Nat) (s : Copying κ)

omit [DecidableEq κ]

@[simp] theorem Copying.report_fs : (s.report param n).2.fs = s.fs := by cases param <;> rfl

@[simp] theorem Copying.report_log : (s.report param n).2.log = s.log := by cases param <;> rfl

@[simp] theorem Copying.report_descriptors : (s.report param n).2.descriptors = s.descriptors := by
  cases param <;> rfl

@[simp] theorem Copying.report_buffers : (s.report param n).2.buffers = s.buffers := by
  cases param <;> rfl

@[simp] theorem Copying.report_value : (s.report param n).2.value = counted param n s.value := by
  cases param <;> rfl

theorem Copying.report_never {param : Option SFileProcessParam} (h : NeverCancels param) (n : Nat)
    (s : Copying κ) : (s.report param n).1 = false := by
  cases param with
  | none => rfl
  | some p => exact h s.calls

end Report

/-! ### Files -/

/-- What the loop of `s_copyFile` does from `s` on, when `l` holds what has
been copied of a file. -/
structure Copies (device : CopyDevice κ) (param : Option SFileProcessParam) (l : List κ)
    (whole : List Byte) (n : Nat) (s : Copying κ) (ret : Int) (t : Copying κ) : Prop where
  goes : Goes l s t
  returns : ret ≤ 0 ∨ ret = 1
  descriptors : t.descriptors = s.descriptors - 2
  buffers : t.buffers = s.buffers - 1
  copied : ret = 1 → Lossless t.log →
    t.fs.node l = some (.file whole) ∧ t.value = counted param n s.value
  complete : CopyUndisturbed device param → Lossless s.log → ret = 1 ∧ Lossless t.log

section Loop

variable {device : CopyDevice κ} {param : Option SFileProcessParam} {dst : List Byte}

theorem content_eq {fs : FileSystem κ} {l : List κ} {c : List Byte}
    (h : fs.node l = some (.file c)) :
    content fs l = c := by
  rw [content, h]

/-- A `sceIoWrite` that does not fail appends what it takes. -/
theorem write_spec (device : CopyDevice κ) (data : List Byte) {s : Copying κ} {old : List Byte}
    (hparent : s.fs.node (device.naming.locate dst).dropLast = some .dir)
    (hfile : s.fs.node (device.naming.locate dst) = some (.file old)) :
    ∃ res t, s.write device dst data = (res, t) ∧ Goes (device.naming.locate dst) s t ∧
      t.log = s.log ++ [.write data.length res] ∧ t.descriptors = s.descriptors ∧
      t.buffers = s.buffers ∧ t.value = s.value ∧
      (0 ≤ res → ∃ taken, t.fs.node (device.naming.locate dst) = some (.file (old ++ taken)) ∧
        (data.length ≤ res → taken = data)) ∧
      (device.failure s.calls = none → data.length ≤ device.takes s.calls → res = data.length) := by
  cases hfail : device.failure s.calls with
  | some f =>
    have hneg := f.negative
    refine ⟨f.code, s.transfer (.write data.length f.code), by rw [Copying.write, hfail], ?_, rfl,
      rfl, rfl, rfl, by omega, by simp⟩
    exact .of_eq rfl (List.prefix_append _ _)
  | none =>
    have hkind : ∀ k, s.fs.node (device.naming.locate dst) = some k →
        k.isDir = (Node.file (content s.fs (device.naming.locate dst) ++
          data.take (device.takes s.calls))).isDir := by
      intro k hk
      rw [hfile] at hk
      cases hk
      rfl
    rw [Copying.write, hfail]
    refine ⟨_, _, rfl, ⟨.put _ hkind, List.prefix_append _ _⟩, rfl, rfl, rfl, rfl,
      fun _ => ⟨data.take (device.takes s.calls), ?_, fun hlen => ?_⟩, fun _ hlen => ?_⟩
    · show (s.fs.put _ _).node _ = _
      rw [content_eq hfile]
      exact FileTree.node_put _ hparent (by simp [hfile])
    · apply List.take_of_length_le
      rw [List.length_take] at hlen
      omega
    · rw [List.take_of_length_le hlen]

omit [DecidableEq κ] in
/-- One `sceIoRead` gives no more than the buffer holds. -/
theorem data_length_le {rest data : List Byte} {n : Nat}
    (h : rest.take (min p2sSizeData n) = data) :
    data.length ≤ p2sSizeData := by
  rw [← h, List.length_take]
  omega

omit [DecidableEq κ] in
/-- A `sceIoRead` that gives nothing is at the end of the file. -/
theorem eq_nil_of_read {rest : List Byte} {n : Nat} (h : rest.take (min p2sSizeData (n + 1)) = []) :
    rest = [] := by
  by_contra hne
  have hlen := congrArg List.length h
  have hpos := List.length_pos_iff.mpr hne
  rw [List.length_take, p2sSizeData, List.length_nil] at hlen
  omega

omit [DecidableEq κ] in
theorem read_lossless (n : Nat) : ¬(Transfer.read n).Lossy := by
  rw [Transfer.Lossy]
  omega

theorem Copies.release {l : List κ} {whole : List Byte} {n : Nat} {s t : Copying κ} {ret : Int}
    (hgoes : Goes l s t) (hret : ret ≤ 0 ∨ ret = 1) (hdesc : t.descriptors = s.descriptors)
    (hbuf : t.buffers = s.buffers)
    (hcopied : ret = 1 → Lossless t.log →
      t.fs.node l = some (.file whole) ∧ t.value = counted param n s.value)
    (hdone : CopyUndisturbed device param → Lossless s.log → ret = 1 ∧ Lossless t.log) :
    Copies device param l whole n s ret t.release where
  goes := ⟨hgoes.grows, hgoes.log⟩
  returns := hret
  descriptors := by rw [← hdesc]; rfl
  buffers := by rw [← hbuf]; rfl
  copied := hcopied
  complete := hdone

/-- The loop at the end of the file. -/
theorem Copies.atEnd {l : List κ} {whole : List Byte} {s : Copying κ}
    (hfile : s.fs.node l = some (.file whole)) :
    Copies device param l whole 0 s 1 (s.transfer (.read 0)).release := by
  refine .release (.of_eq rfl (List.prefix_append _ _)) (Or.inr rfl) rfl rfl
    (fun _ _ => ⟨hfile, ?_⟩) fun _ h => ⟨rfl, h.append (read_lossless 0)⟩
  exact (counted_zero _ _).symm

/-- `data` has been read, given to `sceIoWrite`, which has not failed, and counted. -/
structure ChunkCopied (device : CopyDevice κ) (param : Option SFileProcessParam) (l : List κ)
    (old data : List Byte) (s u : Copying κ) : Prop where
  goes : Goes l s u
  descriptors : u.descriptors = s.descriptors
  buffers : u.buffers = s.buffers
  value : u.value = counted param data.length s.value
  file : ∃ taken, u.fs.node l = some (.file (old ++ taken)) ∧ (Lossless u.log → taken = data)
  complete : CopyUndisturbed device param → Lossless s.log → Lossless u.log

variable (device param) in
/-- A chunk is copied, or its `sceIoWrite` fails and ends the loop. -/
theorem chunk_spec (rest : List Byte) (s : Copying κ) {old data : List Byte} {n : Nat}
    (hparent : s.fs.node (device.naming.locate dst).dropLast = some .dir)
    (hfile : s.fs.node (device.naming.locate dst) = some (.file old))
    (hlen : data.length ≤ p2sSizeData) :
    ∃ res t, (s.transfer (.read data.length)).write device dst data = (res, t) ∧
      (res < 0 ∧ Copies device param (device.naming.locate dst) (old ++ rest) n s res t.release ∨
        0 ≤ res ∧ ChunkCopied device param (device.naming.locate dst) old data s
          (t.report param data.length).2) := by
  obtain ⟨res, t, hwrite, ht, hlog, hdesc, hbuf, hvalue, htaken, hwhole⟩ :=
    write_spec device data (s := s.transfer (.read data.length)) hparent hfile
  have hread : Goes (device.naming.locate dst) s (s.transfer (.read data.length)) :=
    .of_eq rfl (List.prefix_append _ _)
  have hgoes := hread.trans ht
  refine ⟨res, t, hwrite, ?_⟩
  by_cases hres : res < 0
  · refine Or.inl ⟨hres, .release hgoes (Or.inl hres.le) hdesc hbuf (by omega) fun hno _ => ?_⟩
    have := hwhole (hno.failure _) (hlen.trans (hno.takes _))
    omega
  obtain ⟨taken, hnode, hall⟩ := htaken (by omega)
  refine Or.inr ⟨by omega, hgoes.trans (.of_eq (by simp) (by simp)), ?_, ?_, ?_,
    ⟨taken, ?_, ?_⟩, ?_⟩
  · exact (Copying.report_descriptors ..).trans hdesc
  · exact (Copying.report_buffers ..).trans hbuf
  · rw [Copying.report_value, hvalue]
    rfl
  · rw [Copying.report_fs]
    exact hnode
  · intro hlossless
    have hkept : ¬(Transfer.write data.length res).Lossy := by
      apply hlossless
      simp [hlog]
    rw [Transfer.Lossy] at hkept
    exact hall (by omega)
  · intro hno hlossless
    have hwritten : ¬(Transfer.write data.length res).Lossy := by
      rw [hwhole (hno.failure _) (hlen.trans (hno.takes _)), Transfer.Lossy]
      omega
    rw [Copying.report_log, hlog]
    exact (hlossless.append (read_lossless _)).append hwritten

/-- A chunk, and then the rest of the file. -/
theorem ChunkCopied.followed {l : List κ} {old data taken rest : List Byte} {s u t : Copying κ}
    {ret : Int} (hchunk : ChunkCopied device param l old data s u)
    (htaken : Lossless u.log → taken = data)
    (h : Copies device param l (old ++ taken ++ rest) rest.length u ret t) :
    Copies device param l (old ++ (data ++ rest)) (data ++ rest).length s ret t where
  goes := hchunk.goes.trans h.goes
  returns := h.returns
  descriptors := by rw [h.descriptors, hchunk.descriptors]
  buffers := by rw [h.buffers, hchunk.buffers]
  copied hret hlossless := by
    obtain ⟨hfinal, hcount⟩ := h.copied hret hlossless
    rw [htaken (hlossless.of_isPrefix h.goes.log), List.append_assoc] at hfinal
    refine ⟨hfinal, ?_⟩
    rw [hcount, hchunk.value, counted_counted, List.length_append]
  complete hno hlossless := h.complete hno (hchunk.complete hno hlossless)

variable (device param) in
theorem copyLoop_spec (rest : List Byte) (s : Copying κ) {old : List Byte}
    (hparent : s.fs.node (device.naming.locate dst).dropLast = some .dir)
    (hfile : s.fs.node (device.naming.locate dst) = some (.file old)) :
    ∃ ret t, copyLoop device param dst rest s = (ret, t) ∧
      Copies device param (device.naming.locate dst) (old ++ rest) rest.length s ret t := by
  induction hn : rest.length using Nat.strong_induction_on generalizing rest s old with
  | _ n ih =>
    subst hn
    rw [copyLoop]
    cases hfail : device.failure s.calls with
    | some f =>
      refine ⟨1, _, rfl, .release (.of_eq rfl (List.prefix_append _ _)) (Or.inr rfl) rfl rfl ?_ ?_⟩
      · intro _ hlossless
        exact absurd f.negative (hlossless (.read f.code) (by simp [Copying.transfer]))
      · intro hno
        rw [hno.failure] at hfail
        cases hfail
    | none =>
      dsimp only
      generalize hdata : rest.take (min p2sSizeData (device.gives s.calls + 1)) = data
      by_cases hnil : data = []
      · obtain rfl := hnil
        obtain rfl := eq_nil_of_read hdata
        rw [if_pos rfl, List.append_nil]
        exact ⟨1, _, rfl, .atEnd hfile⟩
      rw [if_neg hnil]
      obtain ⟨res, u, hwrite, ⟨hres, hstopped⟩ | ⟨hres, hchunk⟩⟩ :=
        chunk_spec device param rest s hparent hfile (data_length_le hdata)
      · rw [hwrite]
        dsimp only
        rw [if_pos hres]
        exact ⟨res, _, rfl, hstopped⟩
      rw [hwrite]
      dsimp only
      rw [if_neg (by omega)]
      split
      · rename_i hcancelled
        refine ⟨0, _, rfl, .release hchunk.goes (Or.inl le_rfl) hchunk.descriptors hchunk.buffers
          (by omega) fun hno _ => ?_⟩
        rw [Copying.report_never hno.never] at hcancelled
        cases hcancelled
      · -- the rest is shorter, as something has been read
        have hsplit : data ++ rest.drop data.length = rest :=
          List.prefix_iff_eq_append.mp (hdata ▸ List.take_prefix _ rest)
        have hlen := congrArg List.length hsplit
        have hpos := List.length_pos_iff.mpr hnil
        rw [List.length_append] at hlen
        obtain ⟨taken, hnode, htaken⟩ := hchunk.file
        obtain ⟨ret, t, heq, h⟩ := ih _ (by omega) (rest.drop data.length) _
          (hchunk.goes.grows.dir hparent) hnode rfl
        have hall := hchunk.followed htaken h
        rw [hsplit] at hall
        exact ⟨ret, t, heq, hall⟩

end Loop

/-- `s` and `d` are two places, and neither is in the other. -/
def Beside (s d : List κ) : Prop := ∀ m, s <+: m → ¬d <+: m

/-- Something is at `s`, and a copy of it has a place at `d`: in a directory, with no directory
where a file is to be, and no file where a directory with entries is to be. -/
structure Clear (s d : List κ) (fs : FileSystem κ) : Prop where
  present : fs.node s ≠ none
  parent : fs.node d.dropLast = some .dir
  files : ∀ r c, fs.node (s ++ r) = some (.file c) → fs.node (d ++ r) ≠ some .dir
  directories : ∀ r k c, fs.node (s ++ (r ++ [k])) ≠ none → fs.node (d ++ r) ≠ some (.file c)

/-- What `*value` counts of a node that is copied. -/
def copyWeight : Node (List Byte) → Nat
  | .dir => 1
  | .file c => c.length

/-- What a copy of what is at `s` to `d` does. -/
structure Copied (device : CopyDevice κ) (param : Option SFileProcessParam) (s d : List κ)
    (before : Copying κ) (ret : Int) (after : Copying κ) : Prop where
  goes : Goes d before after
  returns : ret ≤ 0 ∨ ret = 1
  descriptors : after.descriptors = before.descriptors ∨
    ret = -3 ∧ after.descriptors = before.descriptors + 2 ∧ ∃ n, device.malloc n = false
  buffers : after.buffers = before.buffers
  copied : ret = 1 → Lossless after.log → Clear s d before.fs ∧
    FileTree.LaidOver s d before.fs after.fs ∧
    after.value = counted param (before.fs.total copyWeight s) before.value
  complete : CopyUndisturbed device param → Lossless before.log →
    Lossless after.log ∧ (Clear s d before.fs → ret = 1)

/-- A copy that has come to its end before it changed anything. -/
theorem Copied.refused {device : CopyDevice κ} {param : Option SFileProcessParam} {s d : List κ}
    {before after : Copying κ} {ret : Int} (hfs : after.fs = before.fs)
    (hlog : after.log = before.log)
    (hdesc : after.descriptors = before.descriptors) (hbuf : after.buffers = before.buffers)
    (hret : ret < 0) (hclear : CopyUndisturbed device param → ¬Clear s d before.fs) :
    Copied device param s d before ret after where
  goes := .of_eq hfs (by rw [hlog])
  returns := Or.inl hret.le
  descriptors := Or.inl hdesc
  buffers := hbuf
  copied h := by omega
  complete hno hlossless := ⟨hlog ▸ hlossless, fun h => absurd h (hclear hno)⟩

section File

variable {device : CopyDevice κ} {param : Option SFileProcessParam}

theorem openRead_spec (device : CopyDevice κ) (path : List Byte) (s : Copying κ) :
    ∃ fd t, s.openRead device path = (fd, t) ∧ t.fs = s.fs ∧ t.log = s.log ∧ t.buffers = s.buffers ∧
      t.value = s.value ∧
      (fd < 0 ∧ t.descriptors = s.descriptors ∧ (device.failure s.calls = none →
        ∀ c, s.fs.node (device.naming.locate path) ≠ some (.file c)) ∨
      0 ≤ fd ∧ t.descriptors = s.descriptors + 1 ∧
        ∃ c, s.fs.node (device.naming.locate path) = some (.file c)) := by
  rw [Copying.openRead, sceIoOpenRead.eq_def]
  cases device.failure s.calls with
  | some f =>
    have hneg := f.negative
    refine ⟨_, _, rfl, ?_⟩
    simp [not_le.mpr hneg, Copying.advance, hneg]
  | none =>
    cases hnode : s.fs.node (device.naming.locate path) with
    | none => exact ⟨_, _, rfl, rfl, rfl, rfl, rfl, Or.inl ⟨by decide, rfl, by simp⟩⟩
    | some n =>
      cases n with
      | dir => exact ⟨_, _, rfl, rfl, rfl, rfl, rfl, Or.inl ⟨by decide, rfl, by simp⟩⟩
      | file c => exact ⟨_, _, rfl, rfl, rfl, rfl, rfl, Or.inr ⟨le_rfl, rfl, c, rfl⟩⟩

theorem openWrite_spec (device : CopyDevice κ) (path : List Byte) (s : Copying κ) :
    ∃ fd t, s.openWrite device path = (fd, t) ∧ t.log = s.log ∧ t.buffers = s.buffers ∧
      t.value = s.value ∧
      (fd < 0 ∧ t.fs = s.fs ∧ t.descriptors = s.descriptors ∧ (device.failure s.calls = none →
        s.fs.node (device.naming.locate path) ≠ some .dir →
          s.fs.node (device.naming.locate path).dropLast ≠ some .dir) ∨
      0 ≤ fd ∧ t.fs = s.fs.put (device.naming.locate path) (.file []) ∧
        t.descriptors = s.descriptors + 1 ∧ s.fs.node (device.naming.locate path) ≠ some .dir ∧
        s.fs.node (device.naming.locate path).dropLast = some .dir) := by
  rw [Copying.openWrite, sceIoOpenWrite.eq_def]
  cases device.failure s.calls with
  | some f =>
    have hneg := f.negative
    refine ⟨_, _, rfl, ?_⟩
    simp [not_le.mpr hneg, Copying.advance, hneg]
  | none =>
    by_cases hdir : s.fs.node (device.naming.locate path) = some .dir
    · rw [hdir]
      exact ⟨_, _, rfl, rfl, rfl, rfl, Or.inl ⟨by decide, rfl, rfl, by simp⟩⟩
    · have hother : sceIoOpenWrite device.naming none path s.fs =
          if (s.fs.node (device.naming.locate path).dropLast).any Node.isDir then
            (0, s.fs.put (device.naming.locate path) (.file []))
          else (sceErrorErrnoEnoent, s.fs) := by
        rw [sceIoOpenWrite.eq_def]
        cases hnode : s.fs.node (device.naming.locate path) with
        | none => rfl
        | some n =>
          cases n with
          | dir => exact absurd hnode hdir
          | file c => rfl
      rw [← sceIoOpenWrite.eq_def, hother]
      by_cases hparent : (s.fs.node (device.naming.locate path).dropLast).any Node.isDir = true
      · rw [if_pos hparent]
        exact ⟨_, _, rfl, rfl, rfl, rfl,
          Or.inr ⟨le_rfl, rfl, rfl, hdir, FileTree.eq_dir_of_any hparent⟩⟩
      · rw [if_neg hparent]
        refine ⟨_, _, rfl, rfl, rfl, rfl, Or.inl ⟨by decide, rfl, rfl, fun _ _ h => hparent ?_⟩⟩
        rw [h]
        rfl

/-- A file laid over a place that is not a directory. -/
theorem laidOver_file {s d : List κ} {fs t : FileSystem κ} {c : List Byte}
    (hfile : fs.node s = some (.file c)) (hfree : fs.node d ≠ some .dir)
    (hcopy : t.node d = some (.file c)) : FileTree.LaidOver s d fs t := by
  have hnone : ∀ {u : FileSystem κ} {l : List κ}, u.node l ≠ some .dir → ∀ r, r ≠ [] →
      u.node (l ++ r) = none := by
    intro u l hl r hr
    by_contra hne
    exact hl (FileTree.node_above hr hne)
  intro r
  by_cases hr : r = []
  · rw [hr, List.append_nil, List.append_nil, hcopy, hfile]
    rfl
  · rw [hnone (by simp [hcopy]) r hr, hnone (by simp [hfile]) r hr, hnone hfree r hr]
    rfl

theorem clear_file {s d : List κ} {fs : FileSystem κ} {c : List Byte}
    (hfile : fs.node s = some (.file c)) (hparent : fs.node d.dropLast = some .dir)
    (hfree : fs.node d ≠ some .dir) : Clear s d fs := by
  have habove : ∀ r, r ≠ [] → fs.node (s ++ r) = none := by
    intro r hr
    by_contra hne
    rw [FileTree.node_above hr hne] at hfile
    cases hfile
  refine ⟨by simp [hfile], hparent, fun r c' hr => ?_,
    fun r k c' hr => absurd (habove _ (by simp)) hr⟩
  by_cases hnil : r = []
  · rwa [hnil, List.append_nil]
  · rw [habove r hnil] at hr
    cases hr

/-- `s_copyFile` with both files open: the loop copies, or there is no buffer. -/
theorem opened_copied {src dst : List Byte} {s v : Copying κ} {c : List Byte}
    (hne : device.naming.locate src ≠ device.naming.locate dst)
    (hfile : s.fs.node (device.naming.locate src) = some (.file c))
    (hparent : s.fs.node (device.naming.locate dst).dropLast = some .dir)
    (hfree : s.fs.node (device.naming.locate dst) ≠ some .dir)
    (hfs : v.fs = s.fs.put (device.naming.locate dst) (.file [])) (hlog : v.log = s.log)
    (hdesc : v.descriptors = s.descriptors + 2) (hbuf : v.buffers = s.buffers)
    (hvalue : v.value = s.value) :
    ∃ ret t, (if device.malloc v.calls then
        copyLoop device param dst (content v.fs (device.naming.locate src)) v.allocate
      else (-3, v)) = (ret, t) ∧
      Copied device param (device.naming.locate src) (device.naming.locate dst) s ret t := by
  have hkind : ∀ k, s.fs.node (device.naming.locate dst) = some k →
      k.isDir = (Node.file (α := List Byte) []).isDir := by
    intro k hk
    cases k with
    | dir => exact absurd hk hfree
    | file c => rfl
  have hgrows : FileTree.Grows (device.naming.locate dst) s.fs v.fs := hfs ▸ .put s.fs hkind
  have hv : Goes (device.naming.locate dst) s v := ⟨hgrows, by rw [hlog]⟩
  split
  · have hcontent : content v.fs (device.naming.locate src) = c := by
      rw [hfs]
      exact content_eq ((FileTree.node_put_of_ne _ _ hne).trans hfile)
    have hempty : v.fs.node (device.naming.locate dst) = some (.file []) := by
      rw [hfs]
      exact FileTree.node_put _ hparent hfree
    obtain ⟨ret, t, heq, h⟩ := copyLoop_spec device param c v.allocate (hgrows.dir hparent) hempty
    have hdesc' := h.descriptors
    have hbuf' := h.buffers
    simp only [Copying.allocate] at hdesc' hbuf'
    refine ⟨ret, t, by rw [hcontent, heq], ⟨hv.grows.trans h.goes.grows, hv.log.trans h.goes.log⟩,
      h.returns, Or.inl (by omega), by omega, fun hret hlossless => ?_, fun hno hlossless => ?_⟩
    · obtain ⟨hcopy, hcounted⟩ := h.copied hret hlossless
      refine ⟨clear_file hfile hparent hfree, laidOver_file hfile hfree hcopy, ?_⟩
      rw [hcounted, FileTree.total_file hfile]
      show counted param c.length v.value = _
      rw [hvalue]
      rfl
    · obtain ⟨hret, hlossless'⟩ := h.complete hno (by rw [Copying.allocate, hlog]; exact hlossless)
      exact ⟨hlossless', fun _ => hret⟩
  · rename_i hmalloc
    exact ⟨_, _, rfl, hv, Or.inl (by decide), Or.inr ⟨rfl, hdesc, v.calls, by simpa using hmalloc⟩,
      hbuf, by omega, fun hno _ => absurd (hno.malloc _) hmalloc⟩

variable (device param) in
theorem sCopyFile_spec {src dst : List Byte} (s : Copying κ)
    (hne : device.naming.locate src ≠ device.naming.locate dst)
    (htext : isSubfolder src dst = false)
    (hnodir : CopyUndisturbed device param → s.fs.node (device.naming.locate src) ≠ some .dir) :
    ∃ ret t, sCopyFile device param src dst s = (ret, t) ∧
      Copied device param (device.naming.locate src) (device.naming.locate dst) s ret t := by
  have hsrc : src ≠ dst := by
    rintro rfl
    exact hne rfl
  rw [sCopyFile, if_neg hsrc, if_neg (by simp [htext])]
  obtain ⟨fdsrc, u, hopen, hufs, hulog, hubuf, huvalue,
    ⟨hfd, hudesc, hfail⟩ | ⟨hfd, hudesc, c, hfile⟩⟩ :=
    openRead_spec device src s
  · rw [hopen]
    dsimp only
    rw [if_pos hfd]
    refine ⟨_, _, rfl, .refused hufs hulog hudesc hubuf hfd fun hno hclear => ?_⟩
    obtain ⟨n, hn⟩ := Option.ne_none_iff_exists'.mp hclear.present
    cases n with
    | dir => exact hnodir hno hn
    | file c => exact hfail (hno.failure _) c hn
  rw [hopen]
  dsimp only
  rw [if_neg (by omega)]
  obtain ⟨fddst, v, hwrite, hvlog, hvbuf, hvvalue, ⟨hfd', hvfs, hvdesc, hfail⟩ |
    ⟨hfd', hvfs, hvdesc, hfree, hparent⟩⟩ := openWrite_spec device dst u
  · rw [hwrite]
    dsimp only
    rw [if_pos hfd']
    refine ⟨_, _, rfl, .refused (hvfs.trans hufs) (hvlog.trans hulog) ?_ (hvbuf.trans hubuf) hfd'
      fun hno hclear => ?_⟩
    · show v.descriptors - 1 = s.descriptors
      omega
    · have hnofile := hclear.files [] c (by rwa [List.append_nil])
      rw [List.append_nil] at hnofile
      rw [hufs] at hfail
      exact hfail (hno.failure _) hnofile hclear.parent
  rw [hufs] at hvfs hfree hparent
  rw [hwrite]
  dsimp only
  rw [if_neg (by omega)]
  exact opened_copied hne hfile hparent hfree hvfs (hvlog.trans hulog) (by omega)
    (hvbuf.trans hubuf) (hvvalue.trans huvalue)

end File

end Psp2Shell.File
