import Psp2Shell.CLib.Buffer
import Psp2Shell.CLib.Format

/-! The command channel of `common/p2s_cmd.c`: the command structure, the client's senders, the
decoder, and the functions that receive from the socket. -/

namespace Psp2Shell.Cmd

open CLib

/-- `p2s_cmd_t`. -/
inductive CmdType
  | start | ls | cd | rm | rmdir | mkdir | mv | pwd | get | put | launch | load | reload | test
  | mount | umount | title | ovadd | ovdel | ovls | fioscp | modls | modlsPid | modinfo | modinfoPid
  | modloadstart | modloadstartPid | modstopunload | modstopunloadPid | kmodloadstart
  | kmodstopunload | moddump | thls | thpause | thresume | memr | memw | reset | reboot | exit
  | help | ok | nok
deriving DecidableEq

/-- The values of `p2s_cmd_t`: consecutive from 10 on, but for the two replies. -/
def CmdType.code : CmdType → Int
  | .ok => 64
  | .nok => 65
  | t => 10 + t.ctorIdx

def p2sErrSocket : Int := 0x80000001 - 2 ^ 32

def p2sErrInvalidCmd : Int := 0x80000002 - 2 ^ 32

def p2sSizeString : Nat := 512

def p2sMaxArgs : Nat := 3

/-- `P2S_SIZE_CMD`: `sizeof(P2S_CMD)`, a 4-byte type and the arguments, and ten bytes for each
argument. -/
def p2sSizeCmd : Nat := 4 + p2sMaxArgs * p2sSizeString + p2sMaxArgs * 10

/-- The double quote that encloses an argument. -/
def quote : Byte := 34

/-- The memory of `args`, its slots one after the other. -/
abbrev ArgsBuffer := Buffer (p2sMaxArgs * p2sSizeString)

/-- `P2S_CMD`. -/
structure P2sCmd where
  type : Int
  args : ArgsBuffer
deriving DecidableEq

/-- A command after `memset(cmd, 0, sizeof(P2S_CMD))`. -/
def P2sCmd.cleared : P2sCmd := ⟨0, Buffer.zero _⟩

/-- The bytes of `args[i]`. -/
def P2sCmd.slot (cmd : P2sCmd) (i : Nat) : List Byte :=
  cmd.args.window (i * p2sSizeString) p2sSizeString

/-- The string that starts at `args[i]`; past its slot it goes on in the next one. -/
def P2sCmd.arg (cmd : P2sCmd) (i : Nat) : Option (List Byte) :=
  cstring (cmd.args.bytes.drop (i * p2sSizeString))

/-! ### Senders -/

/-- The format string of a command whose arguments are printed as `args`: `%i`, then a quote and a
conversion for each argument, then a quote. -/
def cmdFormat (args : List FmtArg) : List Byte :=
  [37, 105] ++ args.flatMap (fun a => quote :: a.conversion) ++ [quote]

/-- `p2s_cmd_send`: the whole buffer of 4 bytes is sent. -/
def p2sCmdSend (cmdType : Int) : List Byte :=
  ((Buffer.zero 4).blit 0 (snprintf 4 (format [37, 105] [.int cmdType]))).bytes

/-- `p2s_cmd_send_fmt`. -/
def p2sCmdSendFmt (fmt : List Byte) (args : List FmtArg) : List Byte :=
  snprintf p2sSizeCmd (format fmt args)

/-- `p2s_cmd_send_string`: format `%i"%s"`. -/
def p2sCmdSendString (cmdType : Int) (value : List Byte) : List Byte :=
  snprintf (p2sSizeString + 6) (format [37, 105, 34, 37, 115, 34] [.int cmdType, .str value])

/-- `p2s_cmd_send_int`: format `%i"%i"`. -/
def p2sCmdSendInt (cmdType : Int) (value : Int32) : List Byte :=
  snprintf 16 (format [37, 105, 34, 37, 105, 34] [.int cmdType, .int value.toInt])

/-- `p2s_cmd_send_long`: format `%i"%ld"`. -/
def p2sCmdSendLong (cmdType : Int) (value : Int64) : List Byte :=
  snprintf 32 (format [37, 105, 34, 37, 108, 100, 34] [.int cmdType, .long value.toInt])

/-- The loop of `p2s_cmd_to_string` over the arguments from `i` on, `left` of them: each is appended
to the text so far with format `"%s`. -/
def appendArgs (cmd : P2sCmd) : Nat → Nat → List Byte → Option (List Byte)
  | 0, _, text => some text
  | left + 1, i, text =>
    match cmd.arg i with
    | none => none
    | some a =>
      appendArgs cmd left (i + 1) (text ++ snprintf p2sSizeCmd (format [34, 37, 115] [.str a]))

/-- `p2s_cmd_to_string`: the string left in the buffer, and `none` when an argument has no NUL. -/
def p2sCmdToString (cmd : P2sCmd) : Option (List Byte) :=
  match appendArgs cmd p2sMaxArgs 0 (format [37, 105] [.int cmd.type]) with
  | none => none
  | some text => some (text ++ [quote])

/-! ### The decoder -/

/-- The outcome of a decoder: its return value, what it leaves in `*cmd`, and the slot and count of
each `strncpy` it made. -/
structure Decoded where
  ret : Int
  cmd : P2sCmd
  copies : List (Nat × Nat)
deriving DecidableEq

/-- The argument loop of `p2s_cmd_to_cmd` from argument `i` on with `left` iterations to go, where
`end` points to `endp`. -/
def argLoop : Nat → Nat → List Byte → ArgsBuffer → ArgsBuffer × List (Nat × Nat)
  | 0, _, _, args => (args, [])
  | left + 1, i, endp, args =>
    match strstr [quote] endp with
    | none => (args, [])
    | some p =>
      let start := p.drop 1
      match strstr [quote] start with
      | none => (args, [])
      | some endp' =>
        let n := start.length - endp'.length
        let r := argLoop left (i + 1) endp' (args.blit (i * p2sSizeString) (strncpy start n))
        (r.1, (i, n) :: r.2)

/-- `p2s_cmd_to_cmd` on the memory that starts at `buffer`; `none` when it reads past the end of
that memory in search of a NUL.  Its callers pass the addresses of objects, never `NULL`. -/
def p2sCmdToCmd (cmd : P2sCmd) (buffer : List Byte) : Option Decoded :=
  match cstring buffer with
  | none => none
  | some s =>
    if s.length < 2 then some ⟨-1, cmd, []⟩
    else
      let type := strtol 32 (strncpy s 2)
      if type < CmdType.start.code then some ⟨-1, P2sCmd.cleared, []⟩
      else
        let r := argLoop p2sMaxArgs 0 s P2sCmd.cleared.args
        some ⟨0, ⟨type, r.1⟩, r.2⟩

/-! ### Receiving -/

/-- What one `recv` gives: a negative error code, or the bytes that it stored, none
when the peer has closed. -/
inductive Recv
  | error (code : Int)
  | bytes (bs : List Byte)

/-- The zeroed buffer of `P2S_SIZE_CMD` bytes after `recv` has stored `bs` in it. -/
def recvBuffer (bs : List Byte) : Buffer p2sSizeCmd := (Buffer.zero p2sSizeCmd).blit 0 bs

/-- `p2s_cmd_receive`. -/
def p2sCmdReceive (cmd : P2sCmd) : Recv → Option Decoded
  | .error _ => some ⟨p2sErrSocket, cmd, []⟩
  | .bytes bs =>
    if bs.length < 2 then
      some ⟨if bs.length = 0 then p2sErrSocket else p2sErrInvalidCmd, cmd, []⟩
    else
      match p2sCmdToCmd cmd (recvBuffer bs).bytes with
      | none => none
      | some d => some { d with ret := if d.ret = 0 then 0 else p2sErrInvalidCmd }

/-- `p2s_cmd_wait_result`. -/
def p2sCmdWaitResult : Recv → Option Int
  | .error _ => some (-1)
  | .bytes bs =>
    if bs.length < 2 then some (-1)
    else
      match p2sCmdToCmd P2sCmd.cleared (recvBuffer bs).bytes with
      | none => none
      | some d => some (if d.ret ≠ 0 then -1 else if d.cmd.type ≠ CmdType.ok.code then -1 else 0)

end Psp2Shell.Cmd
