import Psp2Shell.CLib.Runs
import Psp2Shell.Cli.Line
import Psp2Shell.Upload.Size

/-! The two programs over the command connection: the client's prompt and its uploads,
`psp2shell_cli/source/main.c` and `cmd.c`, and the loop of `cmd_thread` with the handlers of
uploads, `psp2shell_m/source/main.c` and `cmd.c`.  The bytes between them arrive in whatever
pieces `recv` returns. -/

namespace Psp2Shell.Dialog

open CLib Cmd Cli Upload Server

/-- A call of a command function that has sent a command, and the file that goes with an upload. -/
structure Typed where
  command : Command
  host : Host
  argv : List (List Byte)
  file : Option LocalFile

/-- What the server has done for a command: the calls of `p2s_cmd_parse`, the replies of their
handler, and what it has written to the file that it has opened. -/
structure Done where
  ops : List Operation
  replies : List Send
  file : Option (List Byte)

/-- Where the client is. -/
inductive Client
  /-- At its prompt. -/
  | prompt
  /-- In `p2s_cmd_wait_result`, with the file that it is about to send. -/
  | waiting (file : LocalFile)

/-- Where the `cmd_thread` is. -/
inductive Serving
  /-- In `p2s_cmd_receive`. -/
  | receiving
  /-- In `p2s_recv_file`, with the pieces that it has received. -/
  | filing (ops : List Operation) (h : Handling) (console : Console) (pieces : List (List Byte))
  /-- It has left its loop, after `psp2shell_exit`. -/
  | ended

/-- The two programs, `client->cmd`, and the bytes that are on their way to the
server and to the client. -/
structure Programs where
  client : Client
  server : Serving
  cmd : P2sCmd
  wire : List Byte
  replies : List Byte
  typed : List Typed
  done : List Done

def Programs.start : Programs := ⟨.prompt, .receiving, .cleared, [], [], [], []⟩

/-- The bytes that a `recv` has stored. -/
def data : Recv → List Byte
  | .bytes bs => bs
  | .error _ => []

/-- A handler on the pieces of the file that it has received: it waits for
more, or it has returned. -/
def Programs.file (s : Programs) (ops : List Operation) (h : Handling) (console : Console)
    (pieces : List (List Byte)) : Programs :=
  match h.run console (h.receives.getD 0 + 1) (pieces.map Recv.bytes) with
  | none => { s with server := .filing ops h console pieces }
  | some r =>
    { s with
      server := .receiving
      wire := r.rest.flatMap data ++ s.wire
      done := s.done ++ [⟨ops, h.replies, h.receives.map fun _ => r.written⟩] }

/-- `p2s_cmd_parse` on a command that has been received. -/
def Programs.parse (s : Programs) (cmd : P2sCmd) (console : Console) : Option Programs :=
  match p2sCmdParse cmd with
  | none => none
  | some ops =>
    match p2sCmdParseUpload console cmd with
    | none =>
      some { s with
        server := if ops = [.cmdReboot] then .ended else .receiving
        done := s.done ++ [⟨ops, [], none⟩] }
    | some h =>
      some (({ s with replies := s.replies ++ replyBytes h.replies } : Programs).file
        ops h console [])

inductive Event
  /-- A line is entered at the prompt. -/
  | enter (host : Host) (line : List Byte)
  /-- The `recv` of `p2s_cmd_wait_result` returns `n` bytes. -/
  | reply (n : Nat)
  /-- A `recv` of the server returns `n` bytes; a handler finds the console so. -/
  | recv (n : Nat) (console : Console)

/-- `process_line`; `none` when the client ends, or its handler reads `argv` past its end. -/
def Programs.enter (s : Programs) (host : Host) (line : List Byte) : Option Programs :=
  match processLine (some line) with
  | .called c argv =>
    if c = .exit then none
    else
      match c.func host argv with
      | .undefined => none
      | .nothing => some s
      | .call t =>
        some { s with wire := s.wire ++ t.bytes, typed := s.typed ++ [⟨c, host, argv, none⟩] }
      | .upload t file =>
        some { s with
          client := .waiting file
          wire := s.wire ++ t.bytes
          typed := s.typed ++ [⟨c, host, argv, some file⟩] }
  | _ => some s

/-- One event, and `none` when it cannot happen or a program reads past a buffer. -/
def Programs.step (s : Programs) : Event → Option Programs
  | .enter host line =>
    match s.client with
    | .prompt => s.enter host line
    | .waiting _ => none
  | .reply n =>
    match s.client with
    | .prompt => none
    | .waiting file =>
      if 0 < n ∧ n ≤ p2sSizeCmd ∧ n ≤ s.replies.length then
        match p2sCmdWaitResult (.bytes (s.replies.take n)) with
        | none => none
        | some result =>
          some { s with
            client := .prompt
            wire := s.wire ++ if result = 0 then (sendFile file.content).flatten else []
            replies := s.replies.drop n }
      else none
  | .recv n console =>
    if 0 < n ∧ n ≤ s.wire.length then
      let piece := s.wire.take n
      let s := { s with wire := s.wire.drop n }
      match s.server with
      | .receiving =>
        if n ≤ p2sSizeCmd then
          match p2sCmdReceive s.cmd (.bytes piece) with
          | none => none
          | some d =>
            if d.ret ≠ 0 then some { s with cmd := d.cmd }
            else ({ s with cmd := d.cmd } : Programs).parse d.cmd console
        else none
      -- a piece that is longer than what this call asks for stands for several calls
      | .filing ops h console pieces => some (s.file ops h console (pieces ++ [piece]))
      | .ended => none
    else none

end Psp2Shell.Dialog
