import Psp2Shell.CLib.Runs
import Psp2Shell.Cmd.Model

/-! The message channel: the codec of `common/p2s_msg.c`, and the session in which the server's
command thread prints and waits, `thread_kbuf` sends raw text on the same socket, and the client's
`msg_thread` receives and acknowledges. -/

namespace Psp2Shell.Msg

open CLib Cmd

/-- `p2s_colors_t`. -/
inductive Color
  | none | red | yellow | green | hex
deriving DecidableEq

def Color.code : Color → Int
  | .none => 10
  | .red => 11
  | .yellow => 12
  | .green => 13
  | .hex => 14

def p2sErrInvalidMsg : Int := 0x80000002 - 2 ^ 32

def p2sKmsgSize : Nat := 0x1000

/-- `P2S_SIZE_MSG`: `sizeof(P2S_MSG)`, a 4-byte color and the text, and two bytes. -/
def p2sSizeMsg : Nat := 4 + p2sKmsgSize + 2

/-- `P2S_MSG`. -/
structure P2sMsg where
  color : Int
  buffer : Buffer p2sKmsgSize

/-! ### Senders -/

/-- `p2s_msg_to_string`, which starts the text at the third byte whatever the width of the color;
`none` when the text has no NUL. -/
def p2sMsgToString (msg : P2sMsg) : Option (Buffer p2sSizeMsg) :=
  match cstring msg.buffer.bytes with
  | .none => .none
  | some text =>
    some (((Buffer.zero p2sSizeMsg).blit 0 (format [37, 105] [.int msg.color])).blit 2
      (snprintf (p2sSizeMsg - 2) (format [37, 115] [.str text]) ++ [0]))

/-- `p2s_msg_send_msg`: what goes to the socket. -/
def p2sMsgSendMsg (msg : P2sMsg) : Option (List Byte) :=
  (p2sMsgToString msg).bind fun buffer => cstring buffer.bytes

/-- The message that `psp2shell_print_color` sends when its format prints `text`. -/
def psp2shellPrintColor (color : Color) (text : List Byte) : P2sMsg :=
  ⟨color.code, (Buffer.zero p2sKmsgSize).blit 0 (snprintf p2sKmsgSize text)⟩

/-! ### Receiving -/

/-- `p2s_msg_to_msg` on the memory that starts at `buffer`: its return value and what it leaves in
`*msg`; `none` when it reads past the end of that memory in search of a NUL. -/
def p2sMsgToMsg (msg : P2sMsg) (buffer : List Byte) : Option (Int × P2sMsg) :=
  match cstring buffer with
  | .none => .none
  | some s =>
    if s.length < 3 then some (-1, msg)
    else
      let color := strtol 32 (strncpy s 2)
      if color < Color.none.code then some (-1, ⟨0, Buffer.zero _⟩)
      else some (0, ⟨color, (Buffer.zero _).blit 0 (strncpy (s.drop 2) p2sKmsgSize)⟩)

/-- The zeroed buffer of `P2S_SIZE_MSG` bytes after `recv` has stored `bs` in it. -/
def recvBuffer (bs : List Byte) : Buffer p2sSizeMsg := (Buffer.zero p2sSizeMsg).blit 0 bs

/-- `msg->buffer` after `strncpy(msg->buffer, buffer, P2S_KMSG_SIZE)` for a received text that is no
message. -/
def rawText (bs : List Byte) : Buffer p2sKmsgSize :=
  (Buffer.zero p2sKmsgSize).blit 0
    (strncpy (((recvBuffer bs).bytes.take p2sKmsgSize).takeWhile (· ≠ 0)) p2sKmsgSize)

/-- `p2s_msg_receive`. -/
def p2sMsgReceive (msg : P2sMsg) : Recv → Option (Int × P2sMsg)
  | .error _ => some (p2sErrSocket, { msg with buffer := rawText [] })
  | .bytes bs =>
    if bs.length < 3 then
      some (if bs.length = 0 then p2sErrSocket else p2sErrInvalidMsg,
        { msg with buffer := rawText bs })
    else
      match p2sMsgToMsg msg (recvBuffer bs).bytes with
      | .none => .none
      | some (ret, msg) =>
        if ret = 0 then some (0, msg)
        else some (p2sErrInvalidMsg, { msg with buffer := rawText bs })

/-- What `msg_thread` has in `msg` when it gets to its `switch`, for a `recv`
that does not end it. -/
def msgThread (msg : P2sMsg) (r : Recv) : Option P2sMsg :=
  match p2sMsgReceive msg r with
  | .none => .none
  | some (ret, msg) => some (if ret ≠ 0 then { msg with color := Color.none.code } else msg)

/-- The cases of the `switch` that send a byte back. -/
def acknowledges (msg : P2sMsg) : Bool :=
  msg.color = Color.red.code || msg.color = Color.yellow.code || msg.color = Color.green.code ||
    msg.color = Color.hex.code

/-! ### The session -/

/-- A byte on the wire; the first byte of a message carries the message's number. -/
abbrev WireByte := Byte × Option Nat

/-- The bytes of message number `k`. -/
def message (k : Nat) : List Byte → List WireByte
  | [] => []
  | b :: bs => (b, some k) :: bs.map fun b => (b, .none)

def rawBytes (text : List Byte) : List WireByte := text.map fun b => (b, .none)

/-- The messages that start in a stretch of the wire. -/
def starts (wire : List WireByte) : List Nat := wire.filterMap Prod.snd

/-- A session on the message socket.  `wire` is on its way to the client, and `acks` to the
server; an acknowledgement carries the messages that start in the piece it answers.  `waiting` is
the message whose `p2s_msg_wait_reply` runs.  `ackLog` is all that the client has acknowledged,
and `released` what ended each wait, `none` for its timeout.  `overrun` says that the client has
read past its buffer. -/
structure Session where
  msg : P2sMsg
  wire : List WireByte
  acks : List (List Nat)
  waiting : Option Nat
  sent : Nat
  ackLog : List (List Nat)
  released : List (Nat × Option (List Nat))
  overrun : Bool

/-- A new session; `msg` is what `msg_thread`'s variable happens to hold. -/
def Session.start (msg : P2sMsg) : Session := ⟨msg, [], [], .none, 0, [], [], false⟩

inductive Event
  /-- The command thread calls `psp2shell_print_color`. -/
  | print (color : Color) (text : List Byte)
  /-- `thread_kbuf` sends a raw text. -/
  | raw (text : List Byte)
  /-- A `recv` of the client returns `n` bytes. -/
  | recv (n : Nat)
  /-- The `recv` of `p2s_msg_wait_reply` returns a byte. -/
  | reply
  /-- The `recv` of `p2s_msg_wait_reply` times out. -/
  | timeout

/-- One event of a session, and `none` when it cannot happen. -/
def step (s : Session) : Event → Option Session
  | .print color text =>
    if s.waiting.isSome then .none
    else
      match p2sMsgSendMsg (psp2shellPrintColor color text) with
      | .none => .none
      | some bytes =>
        some { s with
          wire := s.wire ++ message s.sent bytes
          waiting := some s.sent
          sent := s.sent + 1 }
  | .raw text => some { s with wire := s.wire ++ rawBytes text }
  | .recv n =>
    if n = 0 ∨ s.wire.length < n ∨ p2sSizeMsg < n then .none
    else
      let chunk := s.wire.take n
      let s := { s with wire := s.wire.drop n }
      match msgThread s.msg (.bytes (chunk.map Prod.fst)) with
      | .none => some { s with overrun := true }
      | some msg =>
        if acknowledges msg then
          some { s with
            msg := msg
            acks := s.acks ++ [starts chunk]
            ackLog := s.ackLog ++ [starts chunk] }
        else some { s with msg := msg }
  | .reply =>
    match s.waiting, s.acks with
    | some k, a :: acks =>
      some { s with acks := acks, waiting := .none, released := s.released ++ [(k, some a)] }
    | _, _ => .none
  | .timeout =>
    match s.waiting with
    | some k => some { s with waiting := .none, released := s.released ++ [(k, .none)] }
    | .none => .none

end Psp2Shell.Msg
