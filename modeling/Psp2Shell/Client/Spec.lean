import Psp2Shell.Client.Model

/-! The handlers on texts: what they do when the client's directory is the string `d`, and when
they run over a buffer. -/

namespace Psp2Shell.Client

open CLib File

/-! ### Paths -/

theorem p2sRemoveEndSlash_spec {n : Nat} {path : Buffer n} {s : List Byte} (h : path.str = some s) :
    ∃ c, p2sRemoveEndSlash path = some (c, (s.length : Int) - 1) ∧
      c.str = some (File.p2sRemoveEndSlash s) := by
  by_cases hend : p2sHasEndSlash s = true
  · obtain ⟨c, hc, hstr⟩ := Buffer.str_setByte h (Nat.sub_le s.length 1)
    refine ⟨c, by simp [p2sRemoveEndSlash, h, hend, hc], ?_⟩
    rw [hstr, File.p2sRemoveEndSlash, if_pos hend, List.dropLast_eq_take]
  · refine ⟨path, by simp [p2sRemoveEndSlash, h, hend], ?_⟩
    rw [File.p2sRemoveEndSlash, if_neg hend, h]

theorem format_path (d t : List Byte) :
    format (ascii "%s/%s") [.str d, .str t] = d ++ slash :: t := by
  simp [format, ascii, slash]

theorem mem_removeEndSlash {b : Byte} {s : List Byte} (h : b ∈ File.p2sRemoveEndSlash s) :
    b ∈ s := by
  unfold File.p2sRemoveEndSlash at h
  split at h
  · exact List.mem_of_mem_dropLast h
  · exact h

theorem toAbsolutePath_spec (env : Environment) {dir path : PathBuffer} {d s : List Byte}
    (hd : dir.str = some d) (hs : path.str = some s) :
    ∃ c, toAbsolutePath env dir path = some (c, (s.length : Int) - 1) ∧
      c.str = some (File.toAbsolutePath d s) := by
  obtain ⟨path', hpath, hcut⟩ := p2sRemoveEndSlash_spec hs
  obtain ⟨h0, hlen, -⟩ := Buffer.str_eq_some hcut
  by_cases hcolon : colon ∈ File.p2sRemoveEndSlash s
  · obtain ⟨i, hi⟩ : ∃ i, strrchr (File.p2sRemoveEndSlash s) colon = some i :=
      ⟨_, if_pos hcolon⟩
    refine ⟨path', by simp [toAbsolutePath, hpath, hcut, hi], ?_⟩
    simp only [File.toAbsolutePath, if_pos hcolon, hcut]
  · have hnone := strrchr_eq_none.mpr hcolon
    have hnp := Buffer.str_strncpy_of_lt (b := env.stack) h0 hlen
    have htext : 0 ∉ format (ascii "%s/%s") [.str d, .str (File.p2sRemoveEndSlash s)] := by
      rw [format_path]
      simp [(Buffer.str_eq_some hd).1, h0, slash]
    obtain ⟨c, hc, hstr⟩ := Buffer.snprintf_full (b := path') (by decide) htext
    refine ⟨c, ?_, ?_⟩
    · simp [toAbsolutePath, hpath, hcut, hnone, Buffer.strncpy_full, hnp, hd, hc]
    · rw [hstr, File.toAbsolutePath]
      simp only [if_neg hcolon]

section

variable (env : Environment) {fileList : SFileList} {d arg : List Byte}
  (hd : fileList.path.str = some d) (harg : 0 ∉ arg)
include hd harg

theorem newPath_of_lt (h : arg.length < maxPathLength) :
    ∃ c, newPath env fileList arg = some (c, (arg.length : Int) - 1) ∧
      c.str = some (File.toAbsolutePath d arg) := by
  have hcopy := Buffer.str_strncpy_of_lt (b := env.stack) harg h
  obtain ⟨c, hc, hstr⟩ := toAbsolutePath_spec env hd hcopy
  refine ⟨c, ?_, hstr⟩
  rw [newPath, Buffer.strncpy_full]
  exact hc

omit hd in
variable (fileList) in
/-- An argument that fills the buffer leaves it without a NUL, and the next
function reads past it. -/
theorem newPath_of_le (h : maxPathLength ≤ arg.length) : newPath env fileList arg = none := by
  have hcopy := Buffer.str_strncpy_of_le (b := env.stack) harg h
  rw [newPath, Buffer.strncpy_full]
  simp [toAbsolutePath, p2sRemoveEndSlash, hcopy]

end

/-! ### Handlers that go through one path -/

/-- The file that `cmd_put` opens for a path: the one of the source's name in a
directory, and else the path. -/
def putTarget (env : Environment) (name path : List Byte) : List Byte :=
  if env.isDir path then path ++ ascii "/" ++ name else path

/-- A text that `cmd_put` copies fits its path, and so does the source's name when the text names a
directory. -/
def PutFits (env : Environment) (d name text : List Byte) : Prop :=
  text.length < maxPathLength ∧
    (env.isDir (File.toAbsolutePath d text) = true →
      (File.toAbsolutePath d text).length + 1 + name.length < maxPathLength)

instance (env : Environment) (d name text : List Byte) : Decidable (PutFits env d name text) :=
  inferInstanceAs (Decidable (_ ∧ (_ → _)))

/-- The directory that `cmd_ls` lists for a path other than `root`. -/
def lsTarget (d path : List Byte) : List Byte :=
  if d = homePath then path else File.toAbsolutePath d path

/-- `strcat` of a slash and a name. -/
theorem strcat_name {path : PathBuffer} {p name : List Byte} (hp : path.str = some p)
    (hname : 0 ∉ name) :
    (∃ c, (path.strcat (ascii "/")).bind (·.strcat name) = some c ∧
        c.str = some (p ++ ascii "/" ++ name)) ∧ p.length + 1 + name.length < maxPathLength ∨
      (path.strcat (ascii "/")).bind (·.strcat name) = none ∧
        ¬p.length + 1 + name.length < maxPathLength := by
  cases hslash : path.strcat (ascii "/") with
  | none =>
    have h := (Buffer.strcat_isSome hp (ascii "/")).not.mp (by simp [hslash])
    refine Or.inr ⟨rfl, ?_⟩
    simp only [ascii] at h
    simp at h
    omega
  | some c =>
    have hc := Buffer.str_strcat hp (by decide) hslash
    have hfits := Buffer.strcat_isSome hc name
    have hlen : (p ++ ascii "/").length = p.length + 1 := by simp [ascii]
    rw [hlen] at hfits
    cases hcat : c.strcat name with
    | none => exact Or.inr ⟨hcat, hfits.not.mp (by simp [hcat])⟩
    | some c' =>
      exact Or.inl ⟨⟨c', hcat, Buffer.str_strcat hc hname hcat⟩, hfits.mp (by simp [hcat])⟩

section

variable (env : Environment) {fileList : SFileList} {d : List Byte}
  (hd : fileList.path.str = some d)
include hd

theorem cmdRm_eq {file : List Byte} (hfile : 0 ∉ file) : cmdRm env fileList file =
    if file.length < maxPathLength then
      some ⟨if !env.isDir
        (File.toAbsolutePath d file) then [.remove (File.toAbsolutePath d file)] else [],
        [(file.length : Int) - 1], fileList⟩
    else none := by
  split
  · obtain ⟨c, hc, hstr⟩ := newPath_of_lt env hd hfile ‹_›
    simp [cmdRm, hc, hstr]
  · simp [cmdRm, newPath_of_le env fileList hfile (by omega)]

theorem cmdRmdir_eq {path : List Byte} (hpath : 0 ∉ path) : cmdRmdir env fileList path =
    if path.length < maxPathLength then
      some ⟨[.remove (File.toAbsolutePath d path)], [(path.length : Int) - 1], fileList⟩
    else none := by
  split
  · obtain ⟨c, hc, hstr⟩ := newPath_of_lt env hd hpath ‹_›
    simp [cmdRmdir, hc, hstr]
  · simp [cmdRmdir, newPath_of_le env fileList hpath (by omega)]

theorem cmdMv_eq {src dst : List Byte} (hsrc : 0 ∉ src) (hdst : 0 ∉ dst) :
    cmdMv env fileList src dst = if src.length < maxPathLength ∧ dst.length < maxPathLength then
      some ⟨[.move (File.toAbsolutePath d src) (File.toAbsolutePath d dst)],
        [(src.length : Int) - 1, (dst.length : Int) - 1], fileList⟩
    else none := by
  by_cases hs : src.length < maxPathLength
  · obtain ⟨c, hc, hstr⟩ := newPath_of_lt env hd hsrc hs
    by_cases ht : dst.length < maxPathLength
    · obtain ⟨c', hc', hstr'⟩ := newPath_of_lt env hd hdst ht
      simp [cmdMv, hc, hstr, hc', hstr', hs, ht]
    · simp [cmdMv, hc, newPath_of_le env fileList hdst (by omega), ht]
  · simp [cmdMv, newPath_of_le env fileList hsrc (by omega), hs]

theorem cmdLs_eq {path : List Byte} (hpath : 0 ∉ path) : cmdLs env fileList path =
    if path = homePath ∨ path.length < maxPathLength then
      some ⟨[.list (if path = homePath then d else lsTarget d path)],
        if path = homePath ∨ d = homePath then [] else [(path.length : Int) - 1], fileList⟩
    else none := by
  by_cases hhome : path = homePath
  · have hcopy := Buffer.str_strncpy_of_lt (b := env.stack) (Buffer.str_eq_some hd).1
      (Buffer.str_eq_some hd).2.1
    simp [cmdLs, hd, hhome, Buffer.strncpy_full, hcopy]
  · by_cases hlen : path.length < maxPathLength
    · by_cases hroot : d = homePath
      · have hcopy := Buffer.str_strncpy_of_lt (b := env.stack) hpath hlen
        simp [cmdLs, hd, hhome, hroot, lsTarget, hlen, Buffer.strncpy_full, hcopy]
      · obtain ⟨c, hc, hstr⟩ := newPath_of_lt env hd hpath hlen
        have hcopy := Buffer.str_strncpy_of_lt (b := env.stack) (Buffer.str_eq_some hstr).1
          (Buffer.str_eq_some hstr).2.1
        simp [cmdLs, hd, hhome, hroot, lsTarget, hlen, Buffer.strncpy_full, hc, hstr, hcopy]
    · rw [if_neg (not_or.mpr ⟨hhome, hlen⟩)]
      by_cases hroot : d = homePath
      · have hcopy := Buffer.str_strncpy_of_le (b := env.stack) hpath (by omega)
        simp [cmdLs, hd, hhome, hroot, Buffer.strncpy_full, hcopy]
      · simp [cmdLs, hd, hhome, hroot, newPath_of_le env fileList hpath (by omega)]

omit hd in
variable (fileList) in
theorem cmdLoad_eq {tid : List Byte} (htid : 0 ∉ tid) : cmdLoad env fileList tid =
    if tid.length < 237 then
      some ⟨[.openFile (ascii "ux0:/app/" ++ tid ++ ascii "/eboot.bin")], [], fileList⟩
    else none := by
  have htext : format (ascii "ux0:/app/%s/eboot.bin") [.str tid] =
      ascii "ux0:/app/" ++ tid ++ ascii "/eboot.bin" := by
    simp [format, ascii]
  have hlen : (ascii "ux0:/app/" ++ tid ++ ascii "/eboot.bin").length = tid.length + 19 := by
    simp [ascii]
  have hfits := Buffer.strcpy_zero_isSome (b := env.stack)
    (ascii "ux0:/app/" ++ tid ++ ascii "/eboot.bin")
  rw [hlen] at hfits
  split
  · obtain ⟨c, hc⟩ := Option.isSome_iff_exists.mp (hfits.mpr (by simp only [maxPathLength]; omega))
    have h0 : 0 ∉ ascii "ux0:/app/" ++ tid ++ ascii "/eboot.bin" := by
      simp [ascii, htid]
    simp only [cmdLoad, htext, hc, Option.bind_eq_bind, Option.bind_some,
      Buffer.str_strcpy_zero h0 hc]
    rfl
  · have hnone : env.stack.strcpy 0 (ascii "ux0:/app/" ++ tid ++ ascii "/eboot.bin") = none := by
      rw [← Option.not_isSome_iff_eq_none, hfits]
      simp only [maxPathLength]
      omega
    simp only [cmdLoad, htext, hnone]
    rfl

omit hd in
theorem nul_not_mem_putSource {dst : List Byte} (hd : 0 ∉ d) (hdst : 0 ∉ dst) :
    0 ∉ putSource d dst := by
  unfold putSource
  split
  · exact hd
  · exact hdst

theorem cmdPut_eq {name dst : List Byte} (hname : 0 ∉ name) (hdst : 0 ∉ dst) :
    cmdPut env fileList name dst =
      if PutFits env d name (putSource d dst) then
        some ⟨[.openFile (putTarget env name (File.toAbsolutePath d (putSource d dst)))],
          [((putSource d dst).length : Int) - 1], fileList⟩
      else none := by
  have hsource := nul_not_mem_putSource (Buffer.str_eq_some hd).1 hdst
  by_cases hlen : (putSource d dst).length < maxPathLength
  · obtain ⟨c, hc, hstr⟩ := newPath_of_lt env hd hsource hlen
    by_cases his : env.isDir (File.toAbsolutePath d (putSource d dst)) = true
    · rcases strcat_name hstr hname with ⟨⟨c', hc', hstr'⟩, hfits⟩ | ⟨hnone, hno⟩
      · rw [if_pos ⟨hlen, fun _ => hfits⟩, putTarget, if_pos his]
        simp [cmdPut, hd, hc, hstr, his, hc', hstr']
      · rw [if_neg fun h => hno (h.2 his)]
        simp [cmdPut, hd, hc, hstr, his, hnone]
    · rw [if_pos ⟨hlen, fun h => absurd h his⟩, putTarget, if_neg his]
      simp [cmdPut, hd, hc, hstr, his]
  · rw [if_neg fun h => hlen h.1]
    simp [cmdPut, hd, newPath_of_le env fileList hsource (by omega)]

end

/-! ### The target of a `cd` -/

/-- The directory above `d`. -/
def parent (d : List Byte) : List Byte :=
  match strrchr d slash with
  | some i => d.take (i + 1)
  | none =>
    match strrchr d colon with
    | some i => if d.length - (i + 1) > 0 then d.take (i + 1) else homePath
    | none => homePath

/-- The text that `cmd_cd` composes of the client's path and the argument. -/
def below (d path : List Byte) : List Byte :=
  snprintf maxPathLength (format (ascii "%s/%s") [.str d, .str path])

/-- The path that `cmd_cd` tries to list, for the path and the argument
without their end slashes. -/
def cdTarget (env : Environment) (d path : List Byte) : List Byte :=
  if path = ascii ".." then parent d
  else if env.exist path then path
  else if env.exist (below d path) then below d path
  else d

/-- The path that the client had and the argument, each without its end slash. -/
def target (env : Environment) (d path : List Byte) : List Byte :=
  cdTarget env (File.p2sRemoveEndSlash d) (File.p2sRemoveEndSlash path)

/-- A path that exists, and does not fit the client's path. -/
def TooLong (env : Environment) (path : List Byte) : Prop :=
  path ≠ ascii ".." ∧ env.exist path = true ∧ maxPathLength ≤ path.length

instance (env : Environment) (path : List Byte) : Decidable (TooLong env path) :=
  inferInstanceAs (Decidable (_ ∧ _ ∧ _))

theorem strcpy_home (cur : PathBuffer) :
    ∃ c, cur.strcpy 0 homePath = some c ∧ c.str = some homePath := by
  obtain ⟨c, hc⟩ := Option.isSome_iff_exists.mp
    (Buffer.strcpy_zero_isSome (b := cur) homePath |>.mpr (by decide))
  exact ⟨c, hc, Buffer.str_strcpy_zero (by decide) hc⟩

theorem cdPath_parent {env : Environment} {cur : PathBuffer} {d : List Byte}
    (hd : cur.str = some d) :
    ∃ c, cdPath env cur d (ascii "..") = some c ∧ c.str = some (parent d) := by
  unfold cdPath parent
  rw [if_pos rfl]
  cases hslash : strrchr d slash with
  | some i => exact Buffer.str_setByte hd (Nat.succ_le_of_lt (strrchr_lt hslash))
  | none =>
    cases hcolon : strrchr d colon with
    | none => exact strcpy_home cur
    | some i =>
      simp only
      split
      · exact Buffer.str_setByte hd (Nat.succ_le_of_lt (strrchr_lt hcolon))
      · exact strcpy_home cur

theorem nul_not_mem_below {d path : List Byte} (hd : 0 ∉ d) (hpath : 0 ∉ path) :
    0 ∉ format (ascii "%s/%s") [.str d, .str path] := by
  rw [format_path]
  simp [hd, hpath, slash]

theorem below_length (d path : List Byte) : (below d path).length < maxPathLength := by
  have : (below d path).length ≤ maxPathLength - 1 := List.length_take_le _ _
  simp only [maxPathLength] at *
  omega

theorem cdPath_too_long {env : Environment} (cur : PathBuffer) (d : List Byte) {path : List Byte}
    (h : TooLong env path) : cdPath env cur d path = none := by
  obtain ⟨hup, hexist, hlen⟩ := h
  rw [cdPath, if_neg hup, if_pos hexist, ← Option.not_isSome_iff_eq_none, Buffer.strcpy_zero_isSome]
  omega

theorem cdPath_fits (env : Environment) {cur : PathBuffer} {d path : List Byte}
    (hd : cur.str = some d) (hpath : 0 ∉ path) (hfits : ¬TooLong env path) :
    ∃ c, cdPath env cur d path = some c ∧ c.str = some (cdTarget env d path) := by
  by_cases hup : path = ascii ".."
  · rw [cdTarget, if_pos hup, hup]
    exact cdPath_parent hd
  · by_cases hexist : env.exist path = true
    · have hlen : path.length < maxPathLength := by
        by_contra hle
        exact hfits ⟨hup, hexist, by omega⟩
      obtain ⟨c, hc⟩ := Option.isSome_iff_exists.mp
        ((Buffer.strcpy_zero_isSome (b := cur) path).mpr hlen)
      rw [cdPath, if_neg hup, if_pos hexist, cdTarget, if_neg hup, if_pos hexist]
      exact ⟨c, hc, Buffer.str_strcpy_zero hpath hc⟩
    · obtain ⟨tmp, htmp, hstr⟩ :=
        Buffer.snprintf_full (b := env.stack) (n := maxPathLength) (by decide)
        (nul_not_mem_below (Buffer.str_eq_some hd).1 hpath)
      rw [← below] at hstr
      rw [cdPath, if_neg hup, if_neg hexist, cdTarget, if_neg hup, if_neg hexist]
      by_cases hbelow : env.exist (below d path) = true
      · have hcopy := Buffer.str_strncpy_of_lt (b := cur) (Buffer.str_eq_some hstr).1
          (below_length d path)
        refine ⟨_, ?_, by rw [if_pos hbelow]; exact hcopy⟩
        simp [htmp, hstr, hbelow, Buffer.strncpy_full]
      · refine ⟨cur, ?_, by rw [if_neg hbelow]; exact hd⟩
        simp [htmp, hstr, hbelow]

/-- `s_fileListGetEntries` does not fail. -/
def Listable (env : Environment) (path : List Byte) : Prop := sFileListGetEntries env path ≠ none

instance (env : Environment) (path : List Byte) : Decidable (Listable env path) :=
  inferInstanceAs (Decidable (_ ≠ _))

/-- What a `cd` leaves: the target and its entries, or, when that cannot be listed, the argument and
what a listing of the argument gives. -/
structure CdDone (env : Environment) (d path : List Byte) (done : Done) : Prop where
  tried : done.acts.head? = some (.list (target env d path))
  listed : Listable env (target env d path) → done.fileList.path.str = some (target env d path)
  failed : ¬Listable env (target env d path) →
    done.fileList.path.str = (if path.length < maxPathLength then some path else none) ∧
      done.fileList.entries = (sFileListGetEntries env path).getD []

section

variable {env : Environment} {fileList : SFileList} {d path : List Byte}
  (hd : fileList.path.str = some d)
include hd

theorem cmdCd_too_long (h : TooLong env (File.p2sRemoveEndSlash path)) :
    cmdCd env fileList path = none := by
  obtain ⟨cur, hcur, hcut⟩ := p2sRemoveEndSlash_spec hd
  simp [cmdCd, Buffer.strncpy_full, hcur, cdPath_too_long _ _ h]

section

variable (hpath : 0 ∉ path) (h : ¬TooLong env (File.p2sRemoveEndSlash path))
include hpath h

theorem cdPath_target :
    ∃ cur cut c, p2sRemoveEndSlash fileList.path = some (cur, (d.length : Int) - 1) ∧
    cur.str = some cut ∧ cdPath env cur cut (File.p2sRemoveEndSlash path) = some c ∧
      c.str = some (target env d path) := by
  obtain ⟨cur, hcur, hcut⟩ := p2sRemoveEndSlash_spec hd
  obtain ⟨c, hc, hstr⟩ := cdPath_fits env hcut (fun h0 => hpath (mem_removeEndSlash h0)) h
  exact ⟨cur, _, c, hcur, hcut, hc, hstr⟩

theorem cmdCd_spec (hold : Listable env (target env d path) ∨ path.length < 1024) :
    ∃ done, cmdCd env fileList path = some done ∧ CdDone env d path done := by
  obtain ⟨cur, cut, c, hcur, hcut, hc, hstr⟩ := cdPath_target hd hpath h
  cases hlist : sFileListGetEntries env (target env d path) with
  | some entries =>
    have hlistable : Listable env (target env d path) := by simp [Listable, hlist]
    exact ⟨_, by simp [cmdCd, Buffer.strncpy_full, hcur, hcut, hc, hstr, hlist]; rfl,
      rfl, fun _ => hstr, fun hno => absurd hlistable hno⟩
  | none =>
    have hno : ¬Listable env (target env d path) := by simp [Listable, hlist]
    have hcopy := Buffer.str_strncpy_of_lt (b := Buffer.zero 1024) hpath (hold.resolve_left hno)
    exact ⟨_, by simp [cmdCd, Buffer.strncpy_full, hcur, hcut, hc, hstr, hlist, hcopy]; rfl,
      rfl, fun hyes => absurd hyes hno, fun _ => ⟨Buffer.str_strncpy hpath, rfl⟩⟩

/-- An argument that fills the saved copy leaves it without a NUL. -/
theorem cmdCd_unsaved (hno : ¬Listable env (target env d path)) (hlen : 1024 ≤ path.length) :
    cmdCd env fileList path = none := by
  obtain ⟨cur, cut, c, hcur, hcut, hc, hstr⟩ := cdPath_target hd hpath h
  have hlist : sFileListGetEntries env (target env d path) = none := by simpa [Listable] using hno
  have hcopy := Buffer.str_strncpy_of_le (b := Buffer.zero 1024) hpath hlen
  simp [cmdCd, Buffer.strncpy_full, hcur, hcut, hc, hstr, hlist, hcopy]

end

end

/-! ### A client on a console without files -/

def bareEnvironment : Environment :=
  ⟨Buffer.zero _, fun _ => false, fun _ => false, fun _ => none, []⟩

/-- A client in the directory `d`. -/
def fileListAt (d : List Byte) : SFileList := ⟨(Buffer.zero _).blit 0 d, []⟩

end Psp2Shell.Client
