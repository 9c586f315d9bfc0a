import Psp2Shell.Cli.Model

/-! The transfer of a file after `CMD_PUT`, `CMD_LOAD` and `CMD_RELOAD`: the server's handlers in
`psp2shell_m/source/cmd.c`, the receiving loops of `psp2shell_m/source/utility.c`, and the client's
`send_file`. -/

namespace Psp2Shell.Upload

open CLib Cmd

def p2sSizeData : Nat := 8 * 1024

/-! ### Receiving -/

/-- What `p2s_recvall` returns, the stores into its buffer by offset, and
what is left to receive. -/
structure RecvAll where
  ret : Nat
  stores : List (Int × List Byte)
  rest : List Recv

/-- The loop of `p2s_recvall`, with `left` in `sizeLeft` and `buffer` moved by `off`, over what the
socket gives.  A call for fewer bytes than a piece leaves the rest of the piece, and a closed socket
stays closed.  `none` when the loop waits for more. -/
def recvallLoop (size : Nat) : List Recv → Nat → Int → Option RecvAll
  | net, 0, _ => some ⟨size, [], net⟩
  | [], _ + 1, _ => none
  | .bytes [] :: net, _ + 1, _ => some ⟨0, [], .bytes [] :: net⟩
  | .bytes (b :: bs) :: net, left + 1, off =>
    if left < bs.length then
      some ⟨size, [(off, (b :: bs).take (left + 1))], .bytes (bs.drop left) :: net⟩
    else
      match recvallLoop size net (left - bs.length) (off + (bs.length + 1)) with
      | none => none
      | some r => some { r with stores := (off, b :: bs) :: r.stores }
  | .error code :: net, left + 1, off =>
    if code = -1 then some ⟨size, [], net⟩
    else recvallLoop size net ((left + 1 - code) % 2 ^ 32).toNat (off + code)

def p2sRecvall (size : Nat) (net : List Recv) : Option RecvAll := recvallLoop size net size 0

/-- What `p2s_recv_file` returns, what it writes to the file, and what is left to receive. -/
structure RecvFile where
  received : Nat
  written : List Byte
  rest : List Recv

/-- The loop of `p2s_recv_file`; `none` when it has not ended after `fuel` rounds. -/
def recvFileLoop : Nat → Nat → Nat → Nat → Buffer p2sSizeData → List Recv → Option RecvFile
  | 0, _, _, _, _, _ => none
  | fuel + 1, left, bufSize, received, buffer, net =>
    if left = 0 then some ⟨received, [], net⟩
    else
      let bufSize := if left < bufSize then left else bufSize
      match p2sRecvall bufSize net with
      | none => none
      | some r =>
        let buffer := r.stores.foldl (fun b s => b.store s.1 s.2) buffer
        match recvFileLoop fuel (left - r.ret) bufSize (received + r.ret) buffer r.rest with
        | none => none
        | some f => some { f with written := buffer.bytes.take r.ret ++ f.written }

/-- `p2s_recv_file`, where `malloc` says whether `p2s_malloc` gives a buffer. -/
def p2sRecvFile (malloc : Bool) (size : Nat) (fuel : Nat) (net : List Recv) : Option RecvFile :=
  if malloc then recvFileLoop fuel size p2sSizeData 0 (Buffer.zero _) net
  else some ⟨0, [], net⟩

/-! ### The server's handlers -/

/-- What the handlers find: whether `s_open` opens the destination, whether there is a running
application to reload, and whether `p2s_malloc` gives a buffer. -/
structure Console where
  opened : Bool
  title : Bool
  malloc : Bool

/-- What a handler does with the command socket: its replies, and then the size that it gives to
`p2s_recv_file`, if it calls it. -/
structure Handling where
  replies : List Send
  receives : Option Nat

/-- The part that `cmd_put` and `cmd_load` share, from `s_open` on. -/
def receiveUpload (console : Console) (size : Nat) : Handling :=
  if console.opened then ⟨[.send CmdType.ok.code], some size⟩
  else ⟨[.send CmdType.nok.code], none⟩

/-- `cmd_put`, once it has built the path of the destination. -/
def cmdPut (console : Console) (size : Nat) : Handling := receiveUpload console size

/-- `cmd_load`, once it has built the path of the executable. -/
def cmdLoad (console : Console) (size : Nat) : Handling := receiveUpload console size

def cmdReload (console : Console) (size : Nat) : Handling :=
  if console.title then cmdLoad console size else ⟨[.send CmdType.nok.code], none⟩

/-- The commands that are followed by a file. -/
inductive Kind
  | put | load | reload

namespace Kind

def type : Kind → CmdType
  | put => .put
  | load => .load
  | reload => .reload

/-- The argument that announces the size of the file. -/
def sizeArg : Kind → Nat
  | put => 2
  | load => 1
  | reload => 0

def handle : Kind → Console → Nat → Handling
  | put => cmdPut
  | load => cmdLoad
  | reload => cmdReload

end Kind

/-- The size that a command announces: `strtoul(args[i], NULL, 0)`, where `long` has 32 bits. -/
def announced (text : List Byte) : Nat := strtoul 32 0 text

/-- The cases of `p2s_cmd_parse` for the commands that are followed by a file. -/
def p2sCmdParseUpload (console : Console) (cmd : P2sCmd) : Option Handling :=
  if cmd.type = CmdType.put.code then
    (cmd.arg 2).map fun size => cmdPut console (announced size)
  else if cmd.type = CmdType.load.code then
    (cmd.arg 1).map fun size => cmdLoad console (announced size)
  else if cmd.type = CmdType.reload.code then
    (cmd.arg 0).map fun size => cmdReload console (announced size)
  else none

/-- The handler gets to the loop that reads the file. -/
def Handling.reads (h : Handling) (console : Console) : Bool :=
  h.receives.isSome && console.malloc

/-- A handler's part after its replies. -/
def Handling.run (h : Handling) (console : Console) (fuel : Nat) (net : List Recv) :
    Option RecvFile :=
  match h.receives with
  | none => some ⟨0, [], net⟩
  | some size => p2sRecvFile console.malloc size fuel net

/-! ### The client -/

/-- `send_file` when no `send` fails: what each `fread` of `P2S_SIZE_DATA` bytes gives,
until one gives none. -/
def sendFile (content : List Byte) : List (List Byte) :=
  if content = [] then []
  else content.take p2sSizeData :: sendFile (content.drop p2sSizeData)
termination_by content.length
decreasing_by
  have := List.length_pos_iff.mpr ‹content ≠ []›
  simp only [List.length_drop, p2sSizeData]
  omega

/-- What the client puts on the wire after the first `recv` of its reply. -/
def payload (reply content : List Byte) : List Byte :=
  if p2sCmdWaitResult (.bytes reply) = some 0 then (sendFile content).flatten else []

end Psp2Shell.Upload
