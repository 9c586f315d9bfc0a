import Psp2Shell.Cmd.Send

/-! The commands of the client, `psp2shell_cli/source/cmd.c`: what each handler of the table `cmd[]`
sends for the words that the user typed. -/

namespace Psp2Shell.Cli

open CLib Cmd

/-- A local file that can be opened: what `ftell` returns at its end, and what `fread` gives. -/
structure LocalFile where
  size : Int64
  content : List Byte

/-- What a handler takes from its own side: the character in `c` after `scanf("%c", &c)`, and the
local files that `fopen` opens. -/
structure Host where
  answer : Byte
  fopen : List Byte → Option LocalFile

/-- What a handler does: it reads `argv` past its end, sends nothing, sends a command, or sends a
command and then the file if the reply says so. -/
inductive Outcome
  | undefined
  | nothing
  | call (s : Send)
  | upload (s : Send) (file : LocalFile)

abbrev Handler := Host → List (List Byte) → Outcome

/-- The command that a handler sends. -/
def Outcome.sent : Outcome → Option Send
  | undefined | nothing => none
  | call s | upload s _ => some s

/-- `argv[i]`, which ends at `argc`. -/
def withArg (argv : List (List Byte)) (i : Nat) (k : List Byte → Outcome) : Outcome :=
  match argv[i]? with
  | none => .undefined
  | some w => k w

/-- `basename`: the part of a path after its last slash, less the slashes that end the path. -/
def basename (path : List Byte) : List Byte :=
  if path = [] then ascii "."
  else
    let p := path.rdropWhile (· = 47)
    if p = [] then ascii "/" else p.rtakeWhile (· ≠ 47)

/-! ### Families of handlers -/

/-- A handler that sends a command without words. -/
def sendNone (type : CmdType) : Handler := fun _ _ => .call (.send type.code)

/-- A handler that sends one word. -/
def sendOne (type : CmdType) : Handler := fun _ argv =>
  if argv.length < 2 then .nothing
  else withArg argv 1 fun w => .call (.string type.code w)

/-- A handler that sends one word when the user confirms with `y`. -/
def sendConfirmed (type : CmdType) : Handler := fun host argv =>
  if argv.length < 2 then .nothing
  else withArg argv 1 fun w =>
    if host.answer = 121 then .call (.string type.code w) else .nothing

/-- A handler that sends two words with format `%i"%s"%s"`. -/
def sendTwo (type : CmdType) : Handler := fun _ argv =>
  if argv.length < 3 then .nothing
  else withArg argv 1 fun a => withArg argv 2 fun b => .call (.fmt type.code [.str a, .str b])

/-! ### Handlers -/

def cmdCd : Handler := sendOne .cd

def cmdLs : Handler := fun _ argv =>
  if argv.length < 2 then .call (.string CmdType.ls.code (ascii "root"))
  else withArg argv 1 fun w => .call (.string CmdType.ls.code w)

def cmdPwd : Handler := sendNone .pwd
def cmdRm : Handler := sendConfirmed .rm
def cmdRmdir : Handler := sendConfirmed .rmdir
def cmdMv : Handler := sendTwo .mv

/-- `cmd_put` does not look at `argc` before it opens `argv[1]`. -/
def cmdPut : Handler := fun host argv =>
  withArg argv 1 fun path =>
    match host.fopen path with
    | none => .nothing
    | some file =>
      let put := fun dst : List Byte => Outcome.upload (.fmt CmdType.put.code
        [.str (basename path), .str dst, .long file.size.toInt]) file
      if argv.length < 3 then put (ascii "0") else withArg argv 2 put

def cmdLaunch : Handler := sendOne .launch
def cmdReset : Handler := sendNone .reset

def cmdLoad : Handler := fun host argv =>
  if argv.length < 3 then .nothing
  else withArg argv 2 fun path =>
    match host.fopen path with
    | none => .nothing
    | some file => withArg argv 1 fun tid =>
      .upload (.fmt CmdType.load.code [.str tid, .long file.size.toInt]) file

/-- `cmd_reload` does not look at `argc` either. -/
def cmdReload : Handler := fun host argv =>
  withArg argv 1 fun path =>
    match host.fopen path with
    | none => .nothing
    | some file => .upload (.long CmdType.reload.code file.size) file

def cmdTitle : Handler := sendNone .title
def cmdReboot : Handler := sendNone .reboot
def cmdModls : Handler := sendNone .modls
def cmdModlsp : Handler := sendOne .modlsPid
def cmdModinfo : Handler := sendOne .modinfo
def cmdModinfop : Handler := sendTwo .modinfoPid
def cmdModloadstart : Handler := sendOne .modloadstart
def cmdModloadstartp : Handler := sendTwo .modloadstartPid
def cmdModstopunload : Handler := sendOne .modstopunload
def cmdModstopunloadp : Handler := sendTwo .modstopunloadPid
def cmdKmodloadstart : Handler := sendOne .kmodloadstart
def cmdKmodstopunload : Handler := sendOne .kmodstopunload

def cmdModdump : Handler := fun _ argv =>
  if argv.length < 4 then .nothing
  else withArg argv 1 fun a => withArg argv 2 fun b => withArg argv 3 fun c =>
    .call (.fmt CmdType.moddump.code [.str a, .str b, .str c])

def cmdThls : Handler := sendNone .thls
def cmdMemr : Handler := sendTwo .memr
def cmdMemw : Handler := sendTwo .memw
def cmdHelp : Handler := fun _ _ => .nothing

/-- `cmd_exit` closes the sockets and ends the client. -/
def cmdExit : Handler := fun _ _ => .nothing

/-! ### The table -/

/-- The rows of `cmd[]`. -/
inductive Command
  | cd | ls | pwd | rm | rmdir | mv | put | reset | load | reload | launch | reboot | title
  | modlist | modlistp | modinfo | modinfop | modstart | modstartp | modstop | modstopp
  | kmodstart | kmodstop | moddump | thlist | memr | memw | question | help | exit
deriving DecidableEq

namespace Command

/-- `cmd[]`. -/
def table : List Command :=
  [cd, ls, pwd, rm, rmdir, mv, put, reset, load, reload, launch, reboot, title, modlist, modlistp,
    modinfo, modinfop, modstart, modstartp, modstop, modstopp, kmodstart, kmodstop, moddump, thlist,
    memr, memw, question, help, exit]

def name : Command → List Byte
  | cd => ascii "cd"
  | ls => ascii "ls"
  | pwd => ascii "pwd"
  | rm => ascii "rm"
  | rmdir => ascii "rmdir"
  | mv => ascii "mv"
  | put => ascii "put"
  | reset => ascii "reset"
  | load => ascii "load"
  | reload => ascii "reload"
  | launch => ascii "launch"
  | reboot => ascii "reboot"
  | title => ascii "title"
  | modlist => ascii "modlist"
  | modlistp => ascii "modlistp"
  | modinfo => ascii "modinfo"
  | modinfop => ascii "modinfop"
  | modstart => ascii "modstart"
  | modstartp => ascii "modstartp"
  | modstop => ascii "modstop"
  | modstopp => ascii "modstopp"
  | kmodstart => ascii "kmodstart"
  | kmodstop => ascii "kmodstop"
  | moddump => ascii "moddump"
  | thlist => ascii "thlist"
  | memr => ascii "memr"
  | memw => ascii "memw"
  | question => ascii "?"
  | help => ascii "help"
  | exit => ascii "exit"

def func : Command → Handler
  | cd => cmdCd
  | ls => cmdLs
  | pwd => cmdPwd
  | rm => cmdRm
  | rmdir => cmdRmdir
  | mv => cmdMv
  | put => cmdPut
  | reset => cmdReset
  | load => cmdLoad
  | reload => cmdReload
  | launch => cmdLaunch
  | reboot => cmdReboot
  | title => cmdTitle
  | modlist => cmdModls
  | modlistp => cmdModlsp
  | modinfo => cmdModinfo
  | modinfop => cmdModinfop
  | modstart => cmdModloadstart
  | modstartp => cmdModloadstartp
  | modstop => cmdModstopunload
  | modstopp => cmdModstopunloadp
  | kmodstart => cmdKmodloadstart
  | kmodstop => cmdKmodstopunload
  | moddump => cmdModdump
  | thlist => cmdThls
  | memr => cmdMemr
  | memw => cmdMemw
  | question => cmdHelp
  | help => cmdHelp
  | exit => cmdExit

end Command

/-- `cmd_find`. -/
def cmdFind (name : List Byte) : Option Command := Command.table.find? (·.name = name)

end Psp2Shell.Cli
