import Psp2Shell.CLib.Runs
import Psp2Shell.Client.Defaults
import Psp2Shell.Client.Named
import Psp2Shell.File.Copy
import Psp2Shell.File.Within
import Psp2Shell.Upload.Model

/-! A session of commands that work on paths, over the file system: what it changes there. -/

namespace Psp2Shell.Client

open CLib Cmd File Psp2Shell.Server

/-- The client's file list, whose path is a string, and the file system. -/
structure Files (κ : Type) where
  fileList : SFileList
  dir : List Byte
  terminated : fileList.path.str = some dir
  fs : FileSystem κ

/-- A command, what its handler finds, and what the calls of the handler come to: the failure of
`s_open` and what is written to the file that it opens, the moves of `s_movePath`, and the failures
and the names that `s_removePath` gets, with fuel for its depth. -/
structure Request (κ : Type) where
  cmd : P2sCmd
  env : Environment
  opens : Option Failure
  written : List Byte
  moves : Outcomes
  failure : Nat → Option Failure
  listing : Nat → List Byte → FileSystem κ → List Name
  fuel : Nat

def Request.device {κ : Type} (r : Request κ) (naming : Naming κ) : Device κ :=
  ⟨naming, r.failure, r.listing⟩

variable {κ : Type} [DecidableEq κ]

/-- What a call of a handler leaves, and `none` when a removal does not end. -/
def Act.perform (naming : Naming κ) (r : Request κ) (fs : FileSystem κ) :
    Act → Option (FileSystem κ)
  | .openFile path =>
    let (fd, fs) := sceIoOpenWrite naming r.opens path fs
    some (if fd < 0 then fs else fs.put (naming.locate path) (.file r.written))
  | .list _ => some fs
  | .move src dst => some (sMovePath naming (moveIntegrate ||| moveReplace) r.moves src dst fs).2
  | .remove path =>
    (sRemovePath (r.device naming) none r.fuel path (.start fs none)).map fun removed =>
      removed.2.fs

def performAll (naming : Naming κ) (r : Request κ) : List Act → FileSystem κ → Option (FileSystem κ)
  | [], fs => some fs
  | act :: acts, fs => (act.perform naming r fs).bind (performAll naming r acts)

/-- A command on paths, and `none` when it is another one, when a handler leaves a buffer, and when
the client's path is no string any more. -/
def Files.step (naming : Naming κ) (s : Files κ) (r : Request κ) : Option (Files κ) :=
  match p2sCmdParse r.cmd with
  | some [op] =>
    (handle r.env s.fileList op).bind fun done =>
      (performAll naming r done.acts s.fs).bind fun fs =>
        match terminated : done.fileList.path.str with
        | some dir => some ⟨done.fileList, dir, terminated, fs⟩
        | none => none
  | _ => none

/-! ### Handlers in two parts

`cmd_mv` is also modelled with its messages, and `cmd_put` and `cmd_load` from their `s_open` on. -/

section Parts

variable (naming : Naming κ) (r : Request κ) (fs : FileSystem κ)
  {fileList : SFileList} {d : List Byte}

/-- `s_movePath` gets the paths that the buffers of `cmd_mv` hold. -/
theorem performAll_cmdMv (hd : fileList.path.str = some d) {src dst : List Byte} (hsrc : 0 ∉ src)
    (hdst : 0 ∉ dst) :
    (cmdMv r.env fileList src dst).bind (fun done => performAll naming r done.acts fs) =
      (File.cmdMv naming d src dst r.moves fs).map fun printed => printed.2.2 := by
  rw [cmdMv_eq r.env hd hsrc hdst, File.cmdMv]
  split
  · simp only [performAll, Act.perform, Option.bind_some, Option.map_some]
    split <;> rfl
  · rfl

/-- What the handler that has opened `path` for an upload leaves there: what it has received. -/
def receivedAt (handling : Upload.Handling) (path : List Byte) : FileSystem κ :=
  let opened := (sceIoOpenWrite naming r.opens path fs).2
  if handling.receives.isSome then opened.put (naming.locate path) (.file r.written) else opened

theorem perform_openFile {path : List Byte} {console : Upload.Console}
    (hopened : console.opened = decide (0 ≤ (sceIoOpenWrite naming r.opens path fs).1))
    (size : Nat) :
    (Act.openFile path).perform naming r fs =
      some (receivedAt naming r fs (Upload.receiveUpload console size) path) := by
  rw [Act.perform, receivedAt, Upload.receiveUpload, hopened]
  by_cases hfd : (sceIoOpenWrite naming r.opens path fs).1 < 0
  · have hno : ¬0 ≤ (sceIoOpenWrite naming r.opens path fs).1 := by omega
    simp [hfd, hno]
  · simp [hfd, Int.not_lt.mp hfd]

/-- `cmd_put` up to its `s_open` asks for the file that it opens there, and from
there on receives it. -/
theorem performAll_cmdPut (hd : fileList.path.str = some d) {name dst : List Byte}
    (hname : 0 ∉ name) (hdst : 0 ∉ dst) {done : Done}
    (h : cmdPut r.env fileList name dst = some done) :
    ∃ path, done.acts = [.openFile path] ∧ ∀ (console : Upload.Console) (size : Nat),
      console.opened = decide (0 ≤ (sceIoOpenWrite naming r.opens path fs).1) →
        performAll naming r done.acts fs =
          some (receivedAt naming r fs (Upload.cmdPut console size) path) := by
  rw [cmdPut_eq r.env hd hname hdst] at h
  split at h
  · cases h
    refine ⟨_, rfl, fun console size hopened => ?_⟩
    rw [performAll, perform_openFile naming r fs hopened size]
    rfl
  · cases h

theorem performAll_cmdLoad {tid : List Byte} (htid : 0 ∉ tid) {done : Done}
    (h : cmdLoad r.env fileList tid = some done) :
    ∃ path, done.acts = [.openFile path] ∧ ∀ (console : Upload.Console) (size : Nat),
      console.opened = decide (0 ≤ (sceIoOpenWrite naming r.opens path fs).1) →
        performAll naming r done.acts fs =
          some (receivedAt naming r fs (Upload.cmdLoad console size) path) := by
  rw [cmdLoad_eq r.env fileList htid] at h
  split at h
  · cases h
    refine ⟨_, rfl, fun console size hopened => ?_⟩
    rw [performAll, perform_openFile naming r fs hopened size]
    rfl
  · cases h

end Parts

/-! ### The paths of a command -/

/-- The paths that a handler is to change, for a client in the directory `d`. -/
def targets (env : Environment) (d : List Byte) : Operation → List (List Byte)
  | .cmdRm a | .cmdRmdir a => [File.toAbsolutePath d a]
  | .cmdMv a b => [File.toAbsolutePath d a, File.toAbsolutePath d b]
  | .cmdPut _ name dst => [putTarget env name (File.toAbsolutePath d (putSource d dst))]
  | .cmdLoad _ tid => [ascii "ux0:/app/" ++ tid ++ ascii "/eboot.bin"]
  | _ => []

/-- The paths that a command is to change. -/
def Files.paths (s : Files κ) (r : Request κ) : List (List Byte) :=
  ((p2sCmdParse r.cmd).getD []).flatMap (targets r.env s.dir)

/-- The paths of a call that changes something. -/
def Act.paths : Act → List (List Byte)
  | .openFile path | .remove path => [path]
  | .move src dst => [src, dst]
  | .list _ => []

/-- The entries that a call reads have paths that fit. -/
def Act.Fits (naming : Naming κ) (r : Request κ) (fs : FileSystem κ) : Act → Prop
  | .move src dst =>
    ∀ v, MoveVisits naming (moveIntegrate ||| moveReplace) r.moves src dst fs v → v.Fits
  | .remove path => ∀ v, RemoveVisits (r.device naming) none path (.start fs none) v → v.Fits
  | .openFile _ | .list _ => True

def FitsAll (naming : Naming κ) (r : Request κ) : List Act → FileSystem κ → Prop
  | [], _ => True
  | act :: acts, fs =>
    act.Fits naming r fs ∧ ∀ t, act.perform naming r fs = some t → FitsAll naming r acts t

/-- The entries that a command reads have paths that fit. -/
def Files.Fits (naming : Naming κ) (s : Files κ) (r : Request κ) : Prop :=
  ∀ op done, p2sCmdParse r.cmd = some [op] → handle r.env s.fileList op = some done →
    FitsAll naming r done.acts s.fs

/-! ### Calls -/

section Calls

variable {naming : Naming κ} {r : Request κ} {fs t : FileSystem κ} {m : List κ}

theorem openWrite_outside (failure : Option Failure) {path : List Byte}
    (hm : ¬naming.locate path <+: m) :
    (sceIoOpenWrite naming failure path fs).2.node m = fs.node m := by
  unfold sceIoOpenWrite
  split
  · rfl
  · rfl
  · split
    · exact FileTree.node_put_of_ne fs _ (ne_of_not_below hm)
    · rfl

theorem perform_outside {act : Act} (hfits : act.Fits naming r fs)
    (hm : ∀ p ∈ act.paths, ¬naming.locate p <+: m) (h : act.perform naming r fs = some t) :
    t.node m = fs.node m := by
  cases act with
  | openFile path =>
    have hpath := hm path (List.mem_singleton_self path)
    have hopen : (sceIoOpenWrite naming r.opens path fs).2.node m = fs.node m :=
      openWrite_outside r.opens hpath
    rw [Act.perform, Option.some.injEq] at h
    rw [← h]
    split
    · exact hopen
    · rw [FileTree.node_put_of_ne _ _ (ne_of_not_below hpath), hopen]
  | list path =>
    cases h
    rfl
  | move src dst =>
    cases h
    exact movePath_outside r.moves hfits (hm src (by simp [Act.paths]))
      (hm dst (by simp [Act.paths]))
  | remove path =>
    obtain ⟨⟨ret, u⟩, hremoved, rfl⟩ := Option.map_eq_some_iff.mp h
    have hvisits : ∀ v, RemoveVisits (r.device naming) none path (.start fs none) v → v.Fits :=
      hfits
    exact removePath_outside r.fuel hvisits (hm path (List.mem_singleton_self path)) hremoved

theorem performAll_outside {acts : List Act} (hfits : FitsAll naming r acts fs)
    (hm : ∀ act ∈ acts, ∀ p ∈ act.paths, ¬naming.locate p <+: m)
    (h : performAll naming r acts fs = some t) :
    t.node m = fs.node m := by
  induction acts generalizing fs with
  | nil =>
    cases h
    rfl
  | cons act acts ih =>
    obtain ⟨u, hact, hacts⟩ := Option.bind_eq_some_iff.mp h
    have hu := perform_outside hfits.1 (hm act List.mem_cons_self) hact
    have hrest :=
      ih (hfits.2 u hact) (fun act' hact' => hm act' (List.mem_cons_of_mem _ hact')) hacts
    exact hrest.trans hu

end Calls

/-! ### Commands -/

/-- The texts that a call takes from the command for a path. -/
def texts : Operation → List (List Byte)
  | .cmdLs a | .cmdRm a | .cmdRmdir a | .cmdLoad _ a => [a]
  | .cmdMv a b | .cmdPut _ a b => [a, b]
  | _ => []

section Texts

variable {cmd : P2sCmd} {op : Operation}

theorem texts_withArg {calls : List Byte → Operation} (hcalls : ∀ a, ∀ x ∈ texts (calls a), x = a)
    (h : Server.withArg cmd (fun a => [calls a]) = some [op]) : ∀ a ∈ texts op, 0 ∉ a := by
  obtain ⟨a, harg, hop⟩ := Option.map_eq_some_iff.mp h
  cases hop
  intro x hx
  rw [hcalls a x hx]
  exact nul_not_mem_cstring harg

theorem texts_withArgs {calls : List Byte → List Byte → Operation}
    (hcalls : ∀ a b, ∀ x ∈ texts (calls a b), x = a ∨ x = b)
    (h : Server.withArgs cmd (fun a b => [calls a b]) = some [op]) : ∀ a ∈ texts op, 0 ∉ a := by
  obtain ⟨a, harg, h⟩ := Option.bind_eq_some_iff.mp h
  obtain ⟨b, harg', hop⟩ := Option.map_eq_some_iff.mp h
  cases hop
  intro x hx
  obtain rfl | rfl := hcalls a b x hx
  · exact nul_not_mem_cstring harg
  · exact nul_not_mem_cstring harg'

theorem texts_const {other : Operation} (hother : texts other = []) (h : some [other] = some [op]) :
    ∀ a ∈ texts op, 0 ∉ a := by
  cases h
  rw [hother]
  exact nofun

theorem parse_texts (h : p2sCmdParse cmd = some [op]) : ∀ a ∈ texts op, 0 ∉ a := by
  unfold p2sCmdParse at h
  split at h
  all_goals try exact texts_withArg (by simp [texts]) h
  all_goals try exact texts_withArgs (by simp [texts]) h
  all_goals try exact texts_const rfl h
  -- the size of a `put`, the two calls of a `title`, and the destination of a `moddump`
  · obtain ⟨size, -, h⟩ := Option.bind_eq_some_iff.mp h
    exact texts_withArgs (by simp [texts]) h
  · obtain ⟨a, -, hops⟩ := Option.map_eq_some_iff.mp h
    cases hops
  · obtain ⟨dst, -, h⟩ := Option.bind_eq_some_iff.mp h
    exact texts_withArgs (by simp [texts]) h

end Texts

theorem cmdCd_acts {env : Environment} {fileList : SFileList} {path : List Byte} {done : Done}
    (h : cmdCd env fileList path = some done) : ∀ act ∈ done.acts, act.paths = [] := by
  simp only [cmdCd, Option.bind_eq_bind, Option.bind_eq_some_iff] at h
  obtain ⟨oldPath, -, ⟨cur, read⟩, -, d, -, cur', -, target, -, h⟩ := h
  split at h
  · cases h
    simp [Act.paths]
  · obtain ⟨old, -, h⟩ := Option.bind_eq_some_iff.mp h
    cases h
    simp [Act.paths]

/-- The handlers change the paths that the call names. -/
theorem handle_paths {env : Environment} {fileList : SFileList} {d : List Byte}
    {op : Operation} {done : Done} (hd : fileList.path.str = some d) (hop : ∀ a ∈ texts op, 0 ∉ a)
    (h : handle env fileList op = some done) :
    ∀ act ∈ done.acts, ∀ p ∈ act.paths, p ∈ targets env d op := by
  cases op with
  | cmdCd path => exact fun act hact p hp => by simp [cmdCd_acts h act hact] at hp
  | cmdLs path =>
    rw [handle, cmdLs_eq env hd (hop path (by simp [texts]))] at h
    split at h
    · cases h
      simp [Act.paths]
    · cases h
  | cmdRm file =>
    rw [handle, cmdRm_eq env hd (hop file (by simp [texts]))] at h
    split at h
    · cases h
      cases hdir : env.isDir (File.toAbsolutePath d file) <;> simp [Act.paths, targets]
    · cases h
  | cmdRmdir path =>
    rw [handle, cmdRmdir_eq env hd (hop path (by simp [texts]))] at h
    split at h
    · cases h
      simp [Act.paths, targets]
    · cases h
  | cmdMv src dst =>
    rw [handle, cmdMv_eq env hd (hop src (by simp [texts])) (hop dst (by simp [texts]))] at h
    split at h
    · cases h
      simp [Act.paths, targets]
    · cases h
  | cmdPut size name dst =>
    rw [handle, cmdPut_eq env hd (hop name (by simp [texts])) (hop dst (by simp [texts]))] at h
    split at h
    · cases h
      simp [Act.paths, targets]
    · cases h
  | cmdLoad size tid =>
    rw [handle, cmdLoad_eq env fileList (hop tid (by simp [texts]))] at h
    split at h
    · cases h
      simp [Act.paths, targets]
    · cases h
  | _ => cases h

section Steps

variable {naming : Naming κ} {s t : Files κ} {r : Request κ} {m : List κ}

theorem Files.step_spec (h : s.step naming r = some t) : ∃ op done, p2sCmdParse r.cmd = some [op] ∧
    handle r.env s.fileList op = some done ∧ performAll naming r done.acts s.fs = some t.fs ∧
    t.fileList = done.fileList := by
  unfold Files.step at h
  split at h
  · rename_i op hparse
    obtain ⟨done, hdone, h⟩ := Option.bind_eq_some_iff.mp h
    obtain ⟨fs, hfs, h⟩ := Option.bind_eq_some_iff.mp h
    split at h
    · cases h
      exact ⟨op, done, hparse, hdone, hfs, rfl⟩
    · cases h
  · cases h

theorem Files.exists_step {op : Operation} {done : Done} {fs : FileSystem κ} {dir : List Byte}
    (hparse : p2sCmdParse r.cmd = some [op]) (hdone : handle r.env s.fileList op = some done)
    (hacts : performAll naming r done.acts s.fs = some fs)
    (hdir : done.fileList.path.str = some dir) :
    ∃ t, s.step naming r = some t ∧ t.fs = fs := by
  refine ⟨⟨done.fileList, dir, hdir, fs⟩, ?_, rfl⟩
  simp only [Files.step, hparse, hdone, Option.bind_some, hacts]
  split
  · rename_i dir' hdir'
    cases hdir'.symm.trans hdir
    rfl
  · rename_i hnone
    cases hnone.symm.trans hdir

/-- A command leaves what is not at or below one of its paths. -/
theorem Files.step_outside (h : s.step naming r = some t) (hfits : s.Fits naming r)
    (hm : ∀ p ∈ s.paths r, ¬naming.locate p <+: m) : t.fs.node m = s.fs.node m := by
  obtain ⟨op, done, hparse, hdone, hacts, -⟩ := Files.step_spec h
  have hpaths := handle_paths s.terminated (parse_texts hparse) hdone
  refine performAll_outside (hfits op done hparse hdone) (fun act hact p hp => hm p ?_) hacts
  simpa [Files.paths, hparse] using hpaths act hact p hp

/-- What has changed on the file system after a session is at or below a path of one of
its commands, for the directory that the client was in, when the entries that the commands
read have paths that fit. -/
theorem session_confined {es : List (Request κ)} (hrun : run (Files.step naming) s es = some t)
    (hfits : EachStep (Files.step naming) (Files.Fits naming) s es)
    (hm : t.fs.node m ≠ s.fs.node m) :
    ∃ before r u, before ++ [r] <+: es ∧ run (Files.step naming) s before = some u ∧
      ∃ p ∈ u.paths r, naming.locate p <+: m := by
  obtain ⟨before, r, u, v, hprefix, hbefore, hstep, hchanged⟩ :=
    exists_step_of_ne (fun s : Files κ => s.fs.node m) hrun hm
  refine ⟨before, r, u, hprefix, hbefore, ?_⟩
  by_contra hnone
  refine hchanged (Files.step_outside hstep (hfits before r hprefix u hbefore) fun p hp hpre => ?_)
  exact hnone ⟨p, hp, hpre⟩

end Steps

/-- `rm x`, of a file. -/
def rmX : Request (List Byte) where
  cmd := ⟨CmdType.rm.code, (Buffer.zero _).blit 0 (ascii "x")⟩
  env := bareEnvironment
  opens := none
  written := []
  moves := .success
  failure := fun _ => none
  listing := fun _ _ _ => []
  fuel := 1

/-- The file that is removed is below a path of the command. -/
theorem session_confined_rm : ∃ s t : Files (List Byte), s.dir = ascii "ux0:/a" ∧
    run (Files.step .caseless) s [rmX] = some t ∧
    ∃ before r u, before ++ [r] <+: [rmX] ∧ run (Files.step .caseless) s before = some u ∧
      ∃ p ∈ u.paths r, Naming.caseless.locate p <+: [ascii "ux0", ascii "a", ascii "x"] := by
  have hdir : (fileListAt (ascii "ux0:/a")).path.str = some (ascii "ux0:/a") := by decide +kernel
  have hparse : p2sCmdParse rmX.cmd = some [.cmdRm (ascii "x")] := by decide +kernel
  have hpath : File.toAbsolutePath (ascii "ux0:/a") (ascii "x") = ascii "ux0:/a/x" := by
    decide +kernel
  have hdone : handle rmX.env (fileListAt (ascii "ux0:/a")) (.cmdRm (ascii "x")) =
      some ⟨[.remove (ascii "ux0:/a/x")], [0], fileListAt (ascii "ux0:/a")⟩ := by
    rw [handle, cmdRm_eq _ hdir (by decide), hpath]
    rfl
  have hremoved :
      (performAll .caseless rmX [.remove (ascii "ux0:/a/x")] twoDirectories).map (fun fs =>
        fs.node [ascii "ux0", ascii "a", ascii "x"]) = some none := by
    decide +kernel
  have hthere : twoDirectories.node [ascii "ux0", ascii "a", ascii "x"] ≠ none := by decide +kernel
  have hclosed : ¬0 ≤ sceIoDopen .caseless none (ascii "ux0:/a/x") twoDirectories := by
    decide +kernel
  obtain ⟨fs, hacts, hgone⟩ := Option.map_eq_some_iff.mp hremoved
  let s : Files (List Byte) := ⟨fileListAt (ascii "ux0:/a"), _, hdir, twoDirectories⟩
  obtain ⟨t, hstep, hfs⟩ := Files.exists_step (s := s) hparse hdone hacts hdir
  have hrun : run (Files.step .caseless) s [rmX] = some t := run_cons hstep []
  refine ⟨s, t, rfl, hrun, session_confined hrun (eachStep_singleton.mpr ?_) ?_⟩
  · intro op done hop hhandle
    cases hparse.symm.trans hop
    cases hdone.symm.trans hhandle
    exact ⟨fun v hv => absurd hv.1 hclosed, fun _ _ => trivial⟩
  · rw [hfs, hgone]
    exact hthere.symm

/-! ### A path that does not fit -/

/-- The location that the components of a path lead to, where `.` stays and `..` goes up. -/
def follow (l : List (List Byte)) (c : List Byte) : List (List Byte) :=
  if c = ascii "." then l else if c = ascii ".." then l.dropLast else l ++ [c]

theorem lower_eq_dot {b : Byte} (h : lower b = 46) : b = 46 := by
  unfold lower at h
  split at h
  · rename_i hletter
    obtain ⟨hlow, hhigh⟩ := hletter
    exfalso
    rw [UInt8.le_iff_toNat_le] at hlow hhigh
    have hval := congrArg UInt8.toNat h
    rw [UInt8.toNat_add] at hval
    simp at hlow hhigh hval
    omega
  · exact h

theorem map_lower_eq {s t : List Byte} (ht : ∀ b ∈ t, b = 46) (h : s.map lower = t) : s = t := by
  subst h
  induction s with
  | nil => rfl
  | cons b s ih =>
    have hb := lower_eq_dot (ht (lower b) (by simp))
    rw [List.map_cons, ← ih fun x hx => ht x (by simp [hx])]
    rw [hb]
    rfl

theorem follow_name {name : Name} (hname : name.isDot = false) (l : List (List Byte)) :
    follow l (name.text.map lower) = l ++ [name.text.map lower] := by
  have hplain : ∀ t, (∀ b ∈ t, b = (46 : Byte)) → name.text ≠ t → name.text.map lower ≠ t :=
    fun t ht hne heq => hne (map_lower_eq ht heq)
  simp only [Name.isDot, Bool.or_eq_false_iff, decide_eq_false_iff_not] at hname
  rw [follow, if_neg (hplain _ (by decide +kernel) hname.1),
    if_neg (hplain _ (by decide +kernel) hname.2)]

/-- A file system that takes names in either case for the same, and `..` for the directory above. -/
def dotted : Naming (List Byte) where
  locate path := (components path).foldl follow []
  key name := name.text.map lower
  locate_join path name hname := by
    rw [components_join, List.foldl_append, List.foldl_cons, List.foldl_nil, follow_name hname]

/-- A path of 252 bytes. -/
def longSource : List Byte := ascii "ux0:/p/" ++ List.replicate 245 97

/-- A file beside a directory with such a path, in which there is an entry `..x`. -/
def besideLong : FileSystem (List Byte) where
  entries := [([], .dir), ([ascii "ux0"], .dir), ([ascii "ux0", ascii "p"], .dir),
    ([ascii "ux0", ascii "p", ascii "x"], .file [1]),
    ([ascii "ux0", ascii "p", List.replicate 245 97], .dir),
    ([ascii "ux0", ascii "p", List.replicate 245 97, ascii "..x"], .dir),
    ([ascii "ux0", ascii "q"], .dir)]
  unique := by decide +kernel
  closed := by decide +kernel

/-- `mv` of the directory, whose one entry is read, to `ux0:/q`. -/
def mvLong : Request (List Byte) where
  cmd := .ofArgs CmdType.mv.code [longSource, ascii "ux0:/q"]
  env := bareEnvironment
  opens := none
  written := []
  moves := .mk ⟨none, none, none, none, none, none, none⟩
    (.entry ⟨ascii "..x", by decide +kernel, by decide +kernel, by decide +kernel⟩ .success .stop)
  failure := fun _ => none
  listing := fun _ _ _ => []
  fuel := 0

/-- The path of the entry is cut to `..`, and what is beside the directory moves. -/
theorem session_not_confined :
    ∃ s t : Files (List Byte), run (Files.step dotted) s [mvLong] = some t ∧
    t.fs.node [ascii "ux0", ascii "p", ascii "x"] ≠ s.fs.node [ascii "ux0", ascii "p", ascii "x"] ∧
    ∀ p ∈ s.paths mvLong, ¬dotted.locate p <+: [ascii "ux0", ascii "p", ascii "x"] := by
  have hdir : (fileListAt homePath).path.str = some homePath := by decide +kernel
  have hparse : p2sCmdParse mvLong.cmd = some [.cmdMv longSource (ascii "ux0:/q")] := by
    decide +kernel
  have hsrc : File.toAbsolutePath homePath longSource = longSource := by decide +kernel
  have hdst : File.toAbsolutePath homePath (ascii "ux0:/q") = ascii "ux0:/q" := by decide +kernel
  have hdone : handle mvLong.env (fileListAt homePath) (.cmdMv longSource (ascii "ux0:/q")) =
      some ⟨[.move longSource (ascii "ux0:/q")],
        [(longSource.length : Int) - 1, ((ascii "ux0:/q").length : Int) - 1],
        fileListAt homePath⟩ := by
    rw [handle, cmdMv_eq _ hdir (by decide +kernel) (by decide +kernel), hsrc, hdst,
      if_pos ⟨by decide +kernel, by decide +kernel⟩]
  have hmoved :
      (performAll dotted mvLong [.move longSource (ascii "ux0:/q")] besideLong).map (fun fs =>
        fs.node [ascii "ux0", ascii "p", ascii "x"]) = some none := by
    decide +kernel
  have hthere : besideLong.node [ascii "ux0", ascii "p", ascii "x"] ≠ none := by decide +kernel
  obtain ⟨fs, hacts, hgone⟩ := Option.map_eq_some_iff.mp hmoved
  let s : Files (List Byte) := ⟨fileListAt homePath, _, hdir, besideLong⟩
  obtain ⟨t, hstep, hfs⟩ := Files.exists_step (s := s) hparse hdone hacts hdir
  refine ⟨s, t, run_cons hstep [], ?_, fun p hp => ?_⟩
  · rw [hfs, hgone]
    exact hthere.symm
  · have hpaths : s.paths mvLong = [longSource, ascii "ux0:/q"] := by
      simp [Files.paths, hparse, targets, s, hsrc, hdst]
    rw [hpaths] at hp
    obtain rfl | rfl : p = longSource ∨ p = ascii "ux0:/q" := by simpa using hp
    · decide +kernel
    · decide +kernel

end Psp2Shell.Client
