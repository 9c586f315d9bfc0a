import Psp2Shell.Cmd.Model

/-! The server's dispatch, `p2s_cmd_parse` of `psp2shell_m/source/cmd.c`: the calls that it makes
for a decoded command. -/

namespace Psp2Shell.Server

open CLib Cmd

/-- A call that `p2s_cmd_parse` makes, with its arguments besides the client and the socket. -/
inductive Operation
  | cmdCd (path : List Byte)
  | cmdLs (path : List Byte)
  | cmdPwd
  | cmdRm (file : List Byte)
  | cmdRmdir (path : List Byte)
  | cmdMv (src dst : List Byte)
  | cmdPut (size : Int32) (name dst : List Byte)
  | p2sLaunchAppByUri (tid : List Byte)
  | cmdTitle
  | cmdMount (tid : List Byte)
  | cmdUmount (device : List Byte)
  | cmdLoad (size : Int32) (tid : List Byte)
  | cmdReload (size : Int32)
  | cmdReset
  | cmdReboot
  | cmdMemr (address size : List Byte)
  | cmdMemw (address data : List Byte)
  | p2sModuleList
  | p2sModuleListForPid (pid : Int32)
  | p2sModuleInfo (uid : Int32)
  | p2sModuleInfoForPid (pid uid : Int32)
  | p2sModuleLoadStart (path : List Byte)
  | p2sModuleLoadStartForPid (pid : Int32) (path : List Byte)
  | p2sModuleStopUnload (uid : Int32)
  | p2sModuleStopUnloadForPid (pid uid : Int32)
  | p2sKmoduleLoadStart (path : List Byte)
  | p2sKmoduleStopUnload (uid : Int32)
  | p2sModuleDumpForPid (pid uid : Int32) (dst : List Byte)
  | psThreadList
  /-- `PRINT_ERR("Unrecognized command\n")`. -/
  | unrecognized
deriving DecidableEq

/-- `(SceUID) strtoul(arg, NULL, 16)`. -/
def sceUid (arg : List Byte) : Int32 := Int32.ofNat (strtoul 32 16 arg)

/-- `strtoul(arg, NULL, 0)` as a `long`. -/
def longSize (arg : List Byte) : Int32 := Int32.ofNat (strtoul 32 0 arg)

def cmdTypes : List CmdType :=
  [.start, .ls, .cd, .rm, .rmdir, .mkdir, .mv, .pwd, .get, .put, .launch, .load,
    .reload, .test, .mount, .umount, .title, .ovadd, .ovdel, .ovls, .fioscp, .modls, .modlsPid,
    .modinfo, .modinfoPid, .modloadstart, .modloadstartPid, .modstopunload, .modstopunloadPid,
    .kmodloadstart, .kmodstopunload, .moddump, .thls, .thpause, .thresume, .memr, .memw, .reset,
    .reboot, .exit, .help, .ok, .nok]

/-- The label of `p2s_cmd_t` that a value has, if any. -/
def ofCode (type : Int) : Option CmdType := cmdTypes.find? (·.code = type)

/-- The calls that pass `args[0]`. -/
def withArg (cmd : P2sCmd) (calls : List Byte → List Operation) : Option (List Operation) :=
  (cmd.arg 0).map calls

/-- The calls that pass `args[0]` and `args[1]`. -/
def withArgs (cmd : P2sCmd) (calls : List Byte → List Byte → List Operation) :
    Option (List Operation) :=
  (cmd.arg 0).bind fun a => (cmd.arg 1).map (calls a)

/-- `p2s_cmd_parse`: the calls that it makes, one after the other; `none` when an argument that it
passes has no NUL. -/
def p2sCmdParse (cmd : P2sCmd) : Option (List Operation) :=
  match ofCode cmd.type with
  | some .cd => withArg cmd fun a => [.cmdCd a]
  | some .ls => withArg cmd fun a => [.cmdLs a]
  | some .pwd => some [.cmdPwd]
  | some .rm => withArg cmd fun a => [.cmdRm a]
  | some .rmdir => withArg cmd fun a => [.cmdRmdir a]
  | some .mv => withArgs cmd fun a b => [.cmdMv a b]
  | some .put => (cmd.arg 2).bind fun size => withArgs cmd fun a b => [.cmdPut (longSize size) a b]
  | some .launch => withArg cmd fun a => [.p2sLaunchAppByUri a]
  -- the case ends without a `break`
  | some .title => withArg cmd fun a => [.cmdTitle, .cmdMount a]
  | some .mount => withArg cmd fun a => [.cmdMount a]
  | some .umount => withArg cmd fun a => [.cmdUmount a]
  | some .load => withArgs cmd fun a b => [.cmdLoad (longSize b) a]
  | some .reload => withArg cmd fun a => [.cmdReload (longSize a)]
  | some .reset => some [.cmdReset]
  | some .reboot => some [.cmdReboot]
  | some .memr => withArgs cmd fun a b => [.cmdMemr a b]
  | some .memw => withArgs cmd fun a b => [.cmdMemw a b]
  | some .modls => some [.p2sModuleList]
  | some .modlsPid => withArg cmd fun a => [.p2sModuleListForPid (sceUid a)]
  | some .modinfo => withArg cmd fun a => [.p2sModuleInfo (sceUid a)]
  | some .modinfoPid => withArgs cmd fun a b => [.p2sModuleInfoForPid (sceUid a) (sceUid b)]
  | some .modloadstart => withArg cmd fun a => [.p2sModuleLoadStart a]
  | some .modloadstartPid => withArgs cmd fun a b => [.p2sModuleLoadStartForPid (sceUid a) b]
  | some .modstopunload => withArg cmd fun a => [.p2sModuleStopUnload (sceUid a)]
  | some .modstopunloadPid =>
    withArgs cmd fun a b => [.p2sModuleStopUnloadForPid (sceUid a) (sceUid b)]
  | some .kmodloadstart => withArg cmd fun a => [.p2sKmoduleLoadStart a]
  | some .kmodstopunload => withArg cmd fun a => [.p2sKmoduleStopUnload (sceUid a)]
  | some .moddump =>
    (cmd.arg 2).bind fun dst =>
      withArgs cmd fun a b => [.p2sModuleDumpForPid (sceUid a) (sceUid b) dst]
  | some .thls => some [.psThreadList]
  | _ => some [.unrecognized]

theorem ofCode_code (t : CmdType) : ofCode t.code = some t := by
  cases t <;> rfl

end Psp2Shell.Server
