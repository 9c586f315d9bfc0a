import Psp2Shell.Client.Spec
import Psp2Shell.Server.Dispatch

/-! The words that the client sends in place of a missing argument: `0` for the destination of a
`put`, and `root` for the directory of an `ls`.  Which arguments the server takes for them. -/

namespace Psp2Shell.Client

open CLib Cmd File Psp2Shell.Server
open Cli (Command Host basename)

/-- What a handler on paths does for an operation. -/
def handle (env : Environment) (fileList : SFileList) : Operation → Option Done
  | .cmdCd path => cmdCd env fileList path
  | .cmdLs path => cmdLs env fileList path
  | .cmdRm file => cmdRm env fileList file
  | .cmdRmdir path => cmdRmdir env fileList path
  | .cmdMv src dst => cmdMv env fileList src dst
  | .cmdPut _ name dst => cmdPut env fileList name dst
  | .cmdLoad _ tid => cmdLoad env fileList tid
  | _ => none

/-- The calls on the file system for the bytes of a command, which is decoded into `cmd`. -/
def served (env : Environment) (fileList : SFileList) (cmd : P2sCmd) (bytes : List Byte) :
    Option (List Act) := do
  let decoded ← p2sCmdToCmd cmd bytes
  match ← p2sCmdParse decoded.cmd with
  | [op] => (handle env fileList op).map Done.acts
  | _ => none

/-- The calls that the words of a `put` or an `ls` ask for, in the client's directory `d`. -/
def asked (env : Environment) (d : List Byte) (argv : List (List Byte)) :
    Command → Option (List Act)
  | .put => some [.openFile (putTarget env (basename (word argv 1))
      (File.toAbsolutePath d (if argv.length < 3 then d else word argv 2)))]
  | .ls => some [.list (if argv.length < 2 then d else lsTarget d (word argv 1))]
  | _ => none

/-- A destination that fits, and that does not start with `0` unless it names the file that a `put`
without a destination opens. -/
def PutClear (env : Environment) (d name dst : List Byte) : Prop :=
  PutFits env d name (putSource d dst) ∧
    (dst.take 1 = ascii "0" →
      putTarget env name (File.toAbsolutePath d d) = putTarget env name (File.toAbsolutePath d dst))

/-- A path that fits, and that is not `root` unless the client is there, or has a path so long that
nothing can follow it. -/
def LsClear (d path : List Byte) : Prop :=
  if path = homePath then d = homePath ∨ d.length = maxPathLength - 1
  else path.length < maxPathLength

/-- The arguments of a `put` or an `ls` are taken for what they are. -/
def Clear (env : Environment) (d : List Byte) (argv : List (List Byte)) : Command → Prop
  | .put =>
    if argv.length < 3 then PutFits env d (basename (word argv 1)) d
    else PutClear env d (basename (word argv 1)) (word argv 2)
  | .ls => 2 ≤ argv.length → LsClear d (word argv 1)
  | _ => False

/-! ### Handlers -/

section

variable (env : Environment) {fileList : SFileList} {d : List Byte}
  (hd : fileList.path.str = some d)
include hd

theorem cmdPut_opens_iff {name dst : List Byte} (hname : 0 ∉ name) (hdst : 0 ∉ dst)
    (p : List Byte) :
    (cmdPut env fileList name dst).map Done.acts = some [.openFile p] ↔
      PutFits env d name (putSource d dst) ∧
        putTarget env name (File.toAbsolutePath d (putSource d dst)) = p := by
  rw [cmdPut_eq env hd hname hdst]
  split <;> simp [*]

theorem cmdLs_lists_iff {path : List Byte} (hpath : 0 ∉ path) (p : List Byte) :
    (cmdLs env fileList path).map Done.acts = some [.list p] ↔
      (path = homePath ∨ path.length < maxPathLength) ∧
        (if path = homePath then d else lsTarget d path) = p := by
  rw [cmdLs_eq env hd hpath]
  split <;> simp [*]

theorem cmdPut_clear {name dst : List Byte} (hname : 0 ∉ name) (hdst : 0 ∉ dst) :
    (cmdPut env fileList name dst).map Done.acts =
      some [.openFile (putTarget env name (File.toAbsolutePath d dst))] ↔
        PutClear env d name dst := by
  rw [cmdPut_opens_iff env hd hname hdst, PutClear]
  refine and_congr_right fun _ => ?_
  by_cases hzero : dst.take 1 = ascii "0"
  · simp [putSource, hzero]
  · simp [putSource, hzero]

omit hd in
theorem toAbsolutePath_home (d : List Byte) :
    File.toAbsolutePath d homePath = (d ++ ascii "/root").take (maxPathLength - 1) := by
  have hcut : File.p2sRemoveEndSlash homePath = homePath := by decide
  have hcolon : colon ∉ homePath := by decide
  rw [File.toAbsolutePath, hcut, if_neg hcolon, format_path]
  rfl

/-- `root` is taken for the client's directory, which it also names in few of them. -/
theorem lsTarget_home : d = lsTarget d homePath ↔ d = homePath ∨ d.length = maxPathLength - 1 := by
  have hlen := (Buffer.str_eq_some hd).2.1
  by_cases hroot : d = homePath
  · simp [lsTarget, hroot]
  · rw [lsTarget, if_neg hroot, toAbsolutePath_home, or_iff_right hroot]
    constructor
    · intro h
      have := congrArg List.length h
      simp only [List.length_take, List.length_append, ascii, maxPathLength] at this hlen ⊢
      simp at this
      omega
    · intro h
      rw [← h, List.take_left]

theorem cmdLs_clear {path : List Byte} (hpath : 0 ∉ path) :
    (cmdLs env fileList path).map Done.acts = some [.list (lsTarget d path)] ↔ LsClear d path := by
  rw [cmdLs_lists_iff env hd hpath, LsClear]
  by_cases hhome : path = homePath
  · simp only [hhome, true_or, true_and, if_true]
    exact lsTarget_home hd
  · simp [hhome]

end

/-! ### Commands -/

section

variable (env : Environment) {fileList : SFileList} {host : Host}
  {argv : List (List Byte)} {s : Send} (hplain : ∀ w ∈ argv.tail, Plain w)
include hplain

theorem plain_argument (i : Nat) : Plain (word argv (i + 1)) := by
  cases h : argv[i + 1]? with
  | some w => exact word_eq h ▸ plain_word hplain h
  | none =>
    rw [word, List.getD_eq_getElem?_getD, h]
    exact plain_nil

theorem served_put (h : (Cli.cmdPut host argv).sent = some s) (cmd : P2sCmd) (rest : List Byte) :
    served env fileList cmd (s.bytes ++ 0 :: rest) =
      (cmdPut env fileList (basename (word argv 1))
        (if argv.length < 3 then ascii "0" else word argv 2)).map Done.acts := by
  obtain ⟨decoded, op, hdecode, -, hparse, file, size, -, -, rfl⟩ :=
    dispatched_put hplain h cmd rest
  simp [served, hdecode, hparse, handle]

theorem served_ls (h : (Cli.cmdLs host argv).sent = some s) (cmd : P2sCmd) (rest : List Byte) :
    served env fileList cmd (s.bytes ++ 0 :: rest) =
      (cmdLs env fileList (if argv.length < 2 then homePath else word argv 1)).map Done.acts := by
  obtain ⟨decoded, op, hdecode, -, hparse, rfl⟩ := dispatched_ls hplain h cmd rest
  simp [served, hdecode, hparse, handle, homePath]

omit hplain in
/-- What is served does not depend on what was decoded before, nor on what follows the command. -/
theorem served_iff {acts result : Option (List Act)}
    (h : ∀ cmd rest, served env fileList cmd (s.bytes ++ 0 :: rest) = acts) :
    (∀ cmd rest, served env fileList cmd (s.bytes ++ 0 :: rest) = result) ↔ acts = result :=
  ⟨fun hserved => (h P2sCmd.cleared []).symm.trans (hserved P2sCmd.cleared []),
    fun heq cmd rest => (h cmd rest).trans heq⟩

variable {d : List Byte} (hd : fileList.path.str = some d)
include hd

theorem put_clear_iff (h : (Cli.cmdPut host argv).sent = some s) :
    (∀ cmd rest, served env fileList cmd (s.bytes ++ 0 :: rest) = asked env d argv .put) ↔
      Clear env d argv .put := by
  have hname : 0 ∉ basename (word argv 1) := (plain_basename (plain_argument hplain 0)).no_nul
  rw [served_iff env (served_put env hplain h)]
  simp only [asked, Clear]
  by_cases hlen : argv.length < 3
  · have hzero : putSource d (ascii "0") = d := by simp [putSource, ascii]
    rw [if_pos hlen, if_pos hlen, if_pos hlen, cmdPut_opens_iff env hd hname (by decide), hzero]
    exact and_iff_left rfl
  · rw [if_neg hlen, if_neg hlen, if_neg hlen]
    exact cmdPut_clear env hd hname (plain_argument hplain 1).no_nul

theorem ls_clear_iff (h : (Cli.cmdLs host argv).sent = some s) :
    (∀ cmd rest, served env fileList cmd (s.bytes ++ 0 :: rest) = asked env d argv .ls) ↔
      Clear env d argv .ls := by
  rw [served_iff env (served_ls env hplain h)]
  simp only [asked, Clear]
  by_cases hlen : argv.length < 2
  · rw [if_pos hlen, if_pos hlen, cmdLs_lists_iff env hd (by decide)]
    exact iff_of_true ⟨Or.inl rfl, if_pos rfl⟩ fun hge => absurd hlen (by omega)
  · have hge : 2 ≤ argv.length := by omega
    rw [if_neg hlen, if_neg hlen, forall_prop_of_true hge]
    exact cmdLs_clear env hd (plain_argument hplain 0).no_nul

/-- A `put` or an `ls` whose arguments are clear is served as it asks, and no other one is. -/
theorem defaults_iff {c : Command} (hc : c = .put ∨ c = .ls)
    (h : (c.func host argv).sent = some s) :
    (∀ cmd rest, served env fileList cmd (s.bytes ++ 0 :: rest) = asked env d argv c) ↔
      Clear env d argv c := by
  rcases hc with rfl | rfl
  · exact put_clear_iff env hplain hd h
  · have hls : (Cli.cmdLs host argv).sent = some s := h
    exact ls_clear_iff env hplain hd hls

end

/-- `ls a` in `ux0:/data`. -/
theorem defaults_ls_a :
    served bareEnvironment (fileListAt (ascii "ux0:/data")) P2sCmd.cleared
      ((Send.string CmdType.ls.code (ascii "a")).bytes ++ [0]) =
        some [.list (ascii "ux0:/data/a")] := by
  have hplain : ∀ w ∈ [ascii "ls", ascii "a"].tail, Plain w := fun w hw => by
    rw [List.mem_singleton.mp hw]
    decide
  have hd : (fileListAt (ascii "ux0:/data")).path.str = some (ascii "ux0:/data") := by
    decide +kernel
  have hsent : (Command.ls.func ⟨121, fun _ => none⟩ [ascii "ls", ascii "a"]).sent =
      some (.string CmdType.ls.code (ascii "a")) := rfl
  have hclear : Clear bareEnvironment (ascii "ux0:/data") [ascii "ls", ascii "a"] .ls :=
    fun _ => (show (ascii "a").length < maxPathLength by decide)
  exact (defaults_iff bareEnvironment hplain hd (Or.inr rfl) hsent).mpr hclear P2sCmd.cleared []

/-- `put f 0dir/x` and `ls root` in the directory `ux0:/data`. -/
theorem defaults_captured :
    let env : Environment := { bareEnvironment with isDir := (· = ascii "ux0:/data") }
    let answer := fun (c : Command) (argv : List (List Byte)) =>
      (c.func ⟨121, fun _ => some ⟨0, []⟩⟩ argv).sent.bind fun s =>
        served env (fileListAt (ascii "ux0:/data")) P2sCmd.cleared (s.bytes ++ [0])
    answer .put [ascii "put", ascii "f", ascii "0dir/x"] = some [.openFile (ascii "ux0:/data/f")] ∧
    asked env (ascii "ux0:/data") [ascii "put", ascii "f", ascii "0dir/x"] .put =
      some [.openFile (ascii "ux0:/data/0dir/x")] ∧
    answer .ls [ascii "ls", ascii "root"] = some [.list (ascii "ux0:/data")] ∧
    asked env (ascii "ux0:/data") [ascii "ls", ascii "root"] .ls =
      some [.list (ascii "ux0:/data/root")] := by
  decide +kernel

end Psp2Shell.Client
