import Psp2Shell.CLib.Runs
import Psp2Shell.Server.Model
import Psp2Shell.Session.Model

/-! The client object under a `cmd_thread`, `psp2shell_m/source/main.c`: who closes its sockets, and
who frees it while the thread still uses it. -/

namespace Psp2Shell.Session

open CLib Cmd Psp2Shell.Server

/-- Where a `cmd_thread` is between two calls of `p2s_cmd_receive`. -/
inductive Place
  /-- In its loop. -/
  | serving
  /-- In `sceKernelWaitThreadEnd`, for its own end. -/
  | waiting
  | ended
  /-- It has dereferenced a `NULL` pointer. -/
  | crashed
deriving DecidableEq

/-- The global `client`, which is `none` once it is freed and set to `NULL`, the global `quit`, the
thread, and the sockets that have been closed. -/
structure Lifetime where
  client : Option SClient
  quit : Bool
  place : Place
  closed : List Int
deriving DecidableEq

namespace Lifetime

/-- The thread in its loop, with the sockets that it has stored in the client. -/
def start (msgSock cmdSock : Int) : Lifetime := ⟨some ⟨msgSock, cmdSock⟩, false, .serving, []⟩

/-- `if (client->msg_sock >= 0)`, and then the close; `none` is a `NULL` dereference. -/
def closeMsgSock (s : Lifetime) : Option Lifetime :=
  s.client.map fun c =>
    if c.msgSock ≥ 0 then
      { s with client := some { c with msgSock := -1 }, closed := s.closed ++ [c.msgSock] }
    else s

/-- `if (client->cmd_sock >= 0)`, and then the close. -/
def closeCmdSock (s : Lifetime) : Option Lifetime :=
  s.client.map fun c =>
    if c.cmdSock ≥ 0 then
      { s with client := some { c with cmdSock := -1 }, closed := s.closed ++ [c.cmdSock] }
    else s

/-- `s_fileListEmpty(&client->fileList)` and the end of the thread. -/
def emptyList (s : Lifetime) : Option Lifetime := s.client.map fun _ => { s with place := .ended }

/-- What `cmd_thread` does after its loop. -/
def cleanup (s : Lifetime) : Option Lifetime :=
  (s.closeMsgSock.bind closeCmdSock).bind emptyList

/-- The part of `psp2shell_exit` about the client, from inside the thread: `thid_client` is the
thread itself, and `returns` says whether the wait for its end returns. -/
def psp2shellExit (s : Lifetime) (returns : Bool) : Option Lifetime :=
  if s.quit then some s
  else
    let s := { s with quit := true }
    match s.client with
    | none => some s
    | some _ =>
      (s.closeMsgSock.bind closeCmdSock).map fun s =>
        if returns then { s with client := none } else { s with place := .waiting }

/-- The test of `while (!quit)`, after a command. -/
def loop (s : Lifetime) : Option Lifetime := if s.quit then s.cleanup else some s

/-- An iteration of the loop in which `p2s_cmd_receive` returns `ret` and leaves `cmd`.  The
receiving, the error messages and the handlers use the client; the one of `CMD_REBOOT` also
calls `psp2shell_exit`. -/
def serve (s : Lifetime) (ret : Int) (cmd : P2sCmd) (returns : Bool) : Option Lifetime :=
  s.client.bind fun _ =>
    if ret ≠ 0 then
      if ret = p2sErrSocket then s.cleanup else s.loop
    else if p2sCmdParse cmd = some [.cmdReboot] then
      (s.psp2shellExit returns).bind fun s => if s.place = .waiting then some s else s.loop
    else s.loop

end Lifetime

/-- What `p2s_cmd_receive` returns and leaves, and whether a wait of the thread for its own end
returns. -/
structure Received where
  ret : Int
  cmd : P2sCmd
  returns : Bool

/-- The thread takes what it receives, as long as it is in its loop. -/
def Lifetime.step (s : Lifetime) (e : Received) : Option Lifetime :=
  if s.place = .serving then
    some ((s.serve e.ret e.cmd e.returns).getD { s with place := .crashed })
  else none

/-- The sockets that are stored in the client. -/
def SClient.sockets (c : SClient) : List Int := [c.msgSock, c.cmdSock].filter (0 ≤ ·)

/-- The thread has not dereferenced a freed client, and at its end every socket that it had stored
in the client has been closed once, and no other one. -/
structure Alive (msgSock cmdSock : Int) (s : Lifetime) : Prop where
  valid : s.place ≠ .crashed
  closed : s.place = .ended → s.closed = SClient.sockets ⟨msgSock, cmdSock⟩

/-- The command is not `CMD_REBOOT`, or the wait of its handler for the thread never returns. -/
def Keeps (_ : Lifetime) (e : Received) : Prop :=
  e.ret = 0 → p2sCmdParse e.cmd = some [.cmdReboot] → e.returns = false

instance (s : Lifetime) (e : Received) : Decidable (Keeps s e) :=
  inferInstanceAs (Decidable (e.ret = 0 → p2sCmdParse e.cmd = some [.cmdReboot] →
    e.returns = false))

/-- The client is there and nothing is closed while the thread is in its loop. -/
structure Owned (msgSock cmdSock : Int) (s : Lifetime) : Prop extends Alive msgSock cmdSock s where
  serving : s.place = .serving → s = Lifetime.start msgSock cmdSock

section

variable (msgSock cmdSock : Int)

theorem cleanup_start : ∃ c, (Lifetime.start msgSock cmdSock).cleanup =
    some ⟨some c, false, .ended, SClient.sockets ⟨msgSock, cmdSock⟩⟩ := by
  by_cases hm : 0 ≤ msgSock <;> by_cases hc : 0 ≤ cmdSock <;>
    simp [Lifetime.start, Lifetime.cleanup, Lifetime.closeMsgSock, Lifetime.closeCmdSock,
      Lifetime.emptyList, SClient.sockets, hm, hc]

theorem exit_start (returns : Bool) : ∃ t,
    (Lifetime.start msgSock cmdSock).psp2shellExit returns = some t ∧ t.quit = true ∧
      (returns = false → t.place = .waiting) ∧
      (returns = true → t.place = .serving ∧ t.client = none) := by
  by_cases hm : 0 ≤ msgSock <;> by_cases hc : 0 ≤ cmdSock <;> cases returns <;>
    simp [Lifetime.start, Lifetime.psp2shellExit, Lifetime.closeMsgSock,
      Lifetime.closeCmdSock, hm, hc]

variable {msgSock cmdSock}

/-- What becomes of a thread in its loop: it goes on, it ends with its sockets closed,
or its handler of `CMD_REBOOT` waits for the thread, or has freed the client that the
thread goes on to use. -/
theorem step_start {t : Lifetime} {e : Received}
    (h : (Lifetime.start msgSock cmdSock).step e = some t) :
    (Keeps (Lifetime.start msgSock cmdSock) e ∧ (t = Lifetime.start msgSock cmdSock ∨
      t.place = .ended ∧ t.closed = SClient.sockets ⟨msgSock, cmdSock⟩ ∨ t.place = .waiting)) ∨
    (¬Keeps (Lifetime.start msgSock cmdSock) e ∧ t.place = .crashed) := by
  obtain ⟨c, hcleanup⟩ := cleanup_start msgSock cmdSock
  have hloop : (Lifetime.start msgSock cmdSock).loop = some (Lifetime.start msgSock cmdSock) := rfl
  have hstep : t = ((Lifetime.start msgSock cmdSock).serve e.ret e.cmd e.returns).getD
      { Lifetime.start msgSock cmdSock with place := .crashed } := (Option.some.inj h).symm
  by_cases hret : e.ret = 0
  · by_cases hreboot : p2sCmdParse e.cmd = some [.cmdReboot]
    · obtain ⟨u, hexit, hquit, hwait, hfreed⟩ :=
        exit_start msgSock cmdSock e.returns
      have hserve : (Lifetime.start msgSock cmdSock).serve e.ret e.cmd e.returns =
          if u.place = .waiting then some u else u.loop := by
        have hcases : (Lifetime.start msgSock cmdSock).serve e.ret e.cmd e.returns =
            ((Lifetime.start msgSock cmdSock).psp2shellExit e.returns).bind fun s =>
              if s.place = .waiting then some s else s.loop := by
          simp [Lifetime.serve, hret, hreboot, Lifetime.start]
        rw [hcases, hexit, Option.bind_some]
      cases hreturns : e.returns with
      | false =>
        rw [hserve, if_pos (hwait hreturns)] at hstep
        exact Or.inl ⟨fun _ _ => hreturns, Or.inr (Or.inr (hstep ▸ hwait hreturns))⟩
      | true =>
        obtain ⟨hplace, hclient⟩ := hfreed hreturns
        have hnull : u.loop = none := by
          simp [Lifetime.loop, hquit, Lifetime.cleanup, Lifetime.closeMsgSock, hclient]
        rw [hserve, if_neg (by rw [hplace]; decide), hnull] at hstep
        refine Or.inr ⟨fun hkeeps => ?_, hstep ▸ rfl⟩
        exact absurd (hkeeps hret hreboot) (by rw [hreturns]; decide)
    · refine Or.inl ⟨fun _ h => absurd h hreboot, Or.inl ?_⟩
      rw [hstep]
      simp [Lifetime.serve, hret, hreboot, Lifetime.start, Lifetime.loop]
  · by_cases hsock : e.ret = p2sErrSocket
    · have hserve : (Lifetime.start msgSock cmdSock).serve e.ret e.cmd e.returns =
          (Lifetime.start msgSock cmdSock).cleanup := by
        simp [Lifetime.serve, hsock, Lifetime.start, p2sErrSocket]
      rw [hserve, hcleanup] at hstep
      exact Or.inl ⟨fun h => absurd h hret, Or.inr (Or.inl ⟨hstep ▸ rfl, hstep ▸ rfl⟩)⟩
    · refine Or.inl ⟨fun h => absurd h hret, Or.inl ?_⟩
      rw [hstep]
      simp [Lifetime.serve, hret, hsock, Lifetime.start, Lifetime.loop]

theorem owned_start : Owned msgSock cmdSock (Lifetime.start msgSock cmdSock) :=
  ⟨⟨by simp [Lifetime.start], by simp [Lifetime.start]⟩, fun _ => rfl⟩

theorem serving_of_step {s t : Lifetime} {e : Received} (h : s.step e = some t) :
    s.place = .serving := by
  by_contra hne
  simp [Lifetime.step, hne] at h

theorem Owned.step {s t : Lifetime} {e : Received} (h : Owned msgSock cmdSock s) (hk : Keeps s e)
    (hstep : s.step e = some t) : Owned msgSock cmdSock t := by
  obtain rfl := h.serving (serving_of_step hstep)
  rcases step_start hstep with ⟨-, rfl | ⟨hplace, hclosed⟩ | hplace⟩ | ⟨hno, -⟩
  · exact owned_start
  · exact ⟨⟨by simp [hplace], fun _ => hclosed⟩, by simp [hplace]⟩
  · exact ⟨⟨by simp [hplace], by simp [hplace]⟩, by simp [hplace]⟩
  · exact absurd hk hno

theorem guards_alive : Guards Lifetime.step (Owned msgSock cmdSock) (Alive msgSock cmdSock) Keeps :=
  ⟨Owned.step, Owned.toAlive⟩

theorem not_alive {s t : Lifetime} {e : Received} (h : Owned msgSock cmdSock s) (hk : ¬Keeps s e)
    (hstep : s.step e = some t) : ¬Alive msgSock cmdSock t := by
  obtain rfl := h.serving (serving_of_step hstep)
  rcases step_start hstep with ⟨hyes, -⟩ | ⟨-, hplace⟩
  · exact absurd hyes hk
  · exact fun halive => halive.valid hplace

/-- A thread does not use the client after it is freed, and closes each of its sockets
once, in exactly the runs in which no handler of `CMD_REBOOT` comes back from the wait
for the thread's end. -/
theorem alive_iff {es : List Received}
    (hrun : (run Lifetime.step (Lifetime.start msgSock cmdSock) es).isSome = true) :
    Always Lifetime.step (Alive msgSock cmdSock) (Lifetime.start msgSock cmdSock) es ↔
      EachStep Lifetime.step Keeps (Lifetime.start msgSock cmdSock) es := by
  obtain ⟨t, ht⟩ := Option.isSome_iff_exists.mp hrun
  exact guards_alive.always_iff not_alive owned_start ht

end

/-- `CMD_PWD`, and then the peer disconnects. -/
theorem alive_pwd : Always Lifetime.step (Alive 5 6) (Lifetime.start 5 6)
    [⟨0, ⟨CmdType.pwd.code, Buffer.zero _⟩, true⟩, ⟨p2sErrSocket, P2sCmd.cleared, true⟩] :=
  (alive_iff (by decide +kernel)).mpr (by decide +kernel)

/-- What the client sends for `reboot` is received as `CMD_REBOOT`, and when its handler comes back,
the thread dereferences `client`, which is `NULL`. -/
theorem reboot_crashes :
    ∃ d, p2sCmdReceive P2sCmd.cleared (.bytes (p2sCmdSend CmdType.reboot.code)) =
      some d ∧ d.ret = 0 ∧
    ∃ t, run Lifetime.step (Lifetime.start 5 6) [⟨d.ret, d.cmd, true⟩] = some t ∧
      t.place = .crashed ∧ ¬Alive 5 6 t := by
  have hreceive : (p2sCmdReceive P2sCmd.cleared
      (.bytes (p2sCmdSend CmdType.reboot.code))).map (fun d => (d.ret, p2sCmdParse d.cmd)) =
        some (0, some [.cmdReboot]) := by decide +kernel
  obtain ⟨d, hd, heq⟩ := Option.map_eq_some_iff.mp hreceive
  obtain ⟨hret, hparse⟩ : d.ret = 0 ∧ p2sCmdParse d.cmd = some [.cmdReboot] := by simpa using heq
  obtain ⟨t, ht⟩ : ∃ t, (Lifetime.start 5 6).step ⟨d.ret, d.cmd, true⟩ = some t := ⟨_, if_pos rfl⟩
  rcases step_start ht with ⟨hkeeps, -⟩ | ⟨-, hplace⟩
  · exact absurd (hkeeps hret hparse) (by simp)
  · exact ⟨d, hd, hret, t, run_cons ht [], hplace, fun h => h.valid hplace⟩

end Psp2Shell.Session
