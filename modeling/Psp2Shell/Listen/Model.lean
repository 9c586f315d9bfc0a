import Psp2Shell.CLib.Runs

/-! How the server comes to listen, `psp2shell_m/source/main.c`: `thread_wait` with `p2s_netInit`,
`open_server` and `close_server`, and `p2s_bind_port` of `utility.c`, while another thread may call
`psp2shell_exit` and the threads of the process open and close sockets of their own. -/

namespace Psp2Shell.Listen

open CLib

def listenPort : Nat := 3333

/-- `server_sock_msg` and `server_sock_cmd`, the sockets of the process that are open, and the ports
that some of them listen on.  The variables are 0 at the start, as static variables are, and `begun`
says that a `close_server` has been over both. -/
structure Ports where
  msg : Int
  cmd : Int
  begun : Bool
  opened : List Int
  listening : List (Int × Nat)
  /-- Those that `p2s_bind_port` has made and not returned. -/
  lost : List Int
  /-- Those that `thread_wait` has accepted, and neither closed nor given to a `cmd_thread`. -/
  left : List Int
  /-- Those of the other threads, a `cmd_thread`'s connections included. -/
  others : List Int
  /-- Those of the other threads that `close_server` has closed. -/
  taken : List Int
deriving DecidableEq

namespace Ports

/-- `sceNetSocketClose`. -/
def close (p : Ports) (sock : Int) : Ports :=
  { p with
    opened := p.opened.erase sock
    listening := p.listening.filter fun e => e.1 ≠ sock
    others := p.others.erase sock
    taken := if sock ∈ p.others then p.taken ++ [sock] else p.taken }

/-- `if (server_sock_msg >= 0)`, and then the close. -/
def closeMsg (p : Ports) : Ports := if p.msg ≥ 0 then { p.close p.msg with msg := -1 } else p

/-- `if (server_sock_cmd >= 0)`, and then the close. -/
def closeCmd (p : Ports) : Ports :=
  if p.cmd ≥ 0 then { p.close p.cmd with cmd := -1, begun := true } else { p with begun := true }

/-- `close_server`. -/
def closeServer (p : Ports) : Ports := p.closeMsg.closeCmd

/-- Another thread opens a socket, or accepts a connection. -/
def othersOpen (p : Ports) (sock : Int) : Ports :=
  { p with opened := sock :: p.opened, others := sock :: p.others }

/-- Another thread closes a socket of its own. -/
def othersClose (p : Ports) (sock : Int) : Ports :=
  { p with
    opened := p.opened.erase sock
    listening := p.listening.filter fun e => e.1 ≠ sock
    others := p.others.erase sock }

/-- `thread_wait` leaves the connection that it has accepted open. -/
def leave (p : Ports) (sock : Int) : Ports :=
  { p with opened := sock :: p.opened, left := sock :: p.left }

end Ports

/-- What `thread_wait` does with a connection. -/
inductive Admission
  /-- `client->cmd_sock > 0`: it closes the connection. -/
  | refused
  /-- It gives it to a `cmd_thread`. -/
  | started
  /-- There is no thread to give it to. -/
  | failed
deriving DecidableEq

/-- A connection is accepted, and then refused or admitted. -/
def Ports.accept (p : Ports) (sock : Int) : Admission → Ports
  | .refused => { p with opened := sock :: p.opened }.close sock
  | .started => p.othersOpen sock
  | .failed => p.leave sock

/-- What `sceNetSocket`, `sceNetBind` and `sceNetListen` return in a call of `p2s_bind_port`. -/
structure BindCalls where
  sock : Int
  bind : Int
  listen : Int
deriving DecidableEq

/-- The socket that a call makes. -/
def BindCalls.made (c : BindCalls) : List Int := if 0 ≤ c.sock then [c.sock] else []

/-- `p2s_bind_port`; `none` when the calls cannot return that: a new socket is none that is open,
and without a socket there is no `bind`. -/
def p2sBindPort (p : Ports) (port : Nat) (c : BindCalls) : Option (Int × Ports) :=
  if c.sock ∈ p.opened ∨ (c.sock < 0 ∧ 0 ≤ c.bind) then none
  else
    let p := { p with opened := c.made ++ p.opened }
    if c.bind < 0 then some (-1, { p with lost := c.made ++ p.lost })
    else if c.listen < 0 then some (-1, { p with lost := c.made ++ p.lost })
    else some (c.sock, { p with listening := p.listening ++ [(c.sock, port)] })

/-- What the calls of `p2s_netInit` come to: the module is loaded, and `sceNetInit` and
`sceNetCtlInit` return 0. -/
structure NetCalls where
  loads : Bool
  netInit : Bool
  ctlInit : Bool
deriving DecidableEq

/-- The network: the module is loaded, and `sceNetInit` and `sceNetCtlInit` have succeeded. -/
structure Network where
  loaded : Bool
  inited : Bool
  ctl : Bool
deriving DecidableEq

/-- `p2s_netInit`, where `sceNetShowNetstat` tells whether `sceNetInit` has succeeded. -/
def p2sNetInit (net : Network) (c : NetCalls) : Int × Network :=
  if net.loaded then (0, net)
  else if !c.loads then (-1, net)
  else
    let net := { net with loaded := true }
    if !net.inited && !c.netInit then (-1, net)
    else
      let net := { net with inited := true }
      if !c.ctlInit then (-1, net) else (0, { net with ctl := true })

/-- What comes next in `open_server`: its `close_server`, or for each of the variables the
assignment of what `p2s_bind_port` returns and the test of it. -/
inductive Opening
  | closing
  | bindingMsg
  | testingMsg
  | bindingCmd
  | testingCmd
deriving DecidableEq

/-- Where `thread_wait` is. -/
inductive Phase
  /-- In the loop of `p2s_netInit`. -/
  | starting
  /-- In `open_server`, for the first time or again after an `accept` that has failed. -/
  | opening (again : Bool) (next : Opening)
  /-- At the head of its `while (!quit)`. -/
  | checking
  /-- In the `accept` of the message port. -/
  | accepting
  /-- In `psp2shell_exit`, where it waits for its own end. -/
  | stuck
  | ended
deriving DecidableEq

/-- The phases of the loop, but for a failed `accept`. -/
def Phase.inLoop (p : Phase) : Bool := p = .checking || p = .accepting

/-- `quit` is set by the first call of `psp2shell_exit`; `exitedMsg` says that its `close_server` is
past `server_sock_msg`, and `exited` that it is over. -/
structure Waiter where
  phase : Phase
  network : Network
  ports : Ports
  quit : Bool
  exitedMsg : Bool
  exited : Bool
deriving DecidableEq

/-- The start of `thread_wait`: `others` are open in the process. -/
def Waiter.start (network : Network) (others : List Int) : Waiter :=
  ⟨.starting, network, ⟨0, 0, false, others, [], [], [], others, []⟩, false, false, false⟩

inductive Event
  /-- A call of `p2s_netInit`. -/
  | netInit (c : NetCalls)
  /-- The `close_server` of `open_server`. -/
  | closes
  /-- `server_sock_msg = p2s_bind_port(..)`. -/
  | bindsMsg (c : BindCalls)
  /-- `if (server_sock_msg <= 0)`. -/
  | testsMsg
  /-- `server_sock_cmd = p2s_bind_port(..)`. -/
  | bindsCmd (c : BindCalls)
  /-- `if (server_sock_cmd <= 0)`. -/
  | testsCmd
  /-- `while (!quit)`. -/
  | check
  /-- `p2s_get_sock` returns, and the connection is admitted or refused.  The test of
  `client->cmd_sock` is part of the step; a `psp2shell_exit` that comes before it may have set
  `client` to `NULL`. -/
  | accept (sock : Int) (admission : Admission)
  /-- Another thread begins `psp2shell_exit`. -/
  | quit
  /-- The first `if` of its `close_server`. -/
  | exitsMsg
  /-- The second one. -/
  | exitsCmd
  /-- Another thread opens a socket. -/
  | othersOpen (sock : Int)
  /-- Another thread closes a socket of its own. -/
  | othersClose (sock : Int)

/-- The events that are steps of `thread_wait`. -/
def Event.own : Event → Bool
  | quit | exitsMsg | exitsCmd | othersOpen _ | othersClose _ => false
  | _ => true

/-- `psp2shell_exit`, called by `thread_wait`. -/
def Waiter.psp2shellExit (w : Waiter) : Waiter :=
  if w.quit then { w with phase := .ended }
  else
    { w with
      phase := .stuck
      ports := w.ports.closeServer
      quit := true
      exitedMsg := true
      exited := true }

/-- There are no sockets without `sceNetInit`. -/
def Waiter.canBind (w : Waiter) (c : BindCalls) : Bool := w.network.inited || c.sock < 0

/-- `open_server` returns, and `thread_wait` looks at the result the first time. -/
def Waiter.opened (w : Waiter) (again : Bool) (ret : Int) : Waiter :=
  if again = false ∧ ret ≠ 0 then w.psp2shellExit else { w with phase := .checking }

/-- `p2s_get_sock` has returned `sock`. -/
def Waiter.accept (w : Waiter) (sock : Int) (admission : Admission) : Waiter :=
  if sock < 0 then if w.quit then w.psp2shellExit else { w with phase := .opening true .closing }
  else if w.quit then { w with ports := w.ports.leave sock }.psp2shellExit
  else { w with ports := w.ports.accept sock admission, phase := .checking }

/-- One event, and `none` when it cannot happen. -/
def Waiter.step (w : Waiter) : Event → Option Waiter
  | .netInit c =>
    if w.phase ≠ .starting then none
    else
      match p2sNetInit w.network c with
      | (ret, network) =>
        let w := { w with network }
        if ret = 0 then some { w with phase := .opening false .closing }
        else if w.quit then some w.psp2shellExit
        else some w
  | .closes =>
    match w.phase with
    | .opening again .closing =>
      some { w with ports := w.ports.closeServer, phase := .opening again .bindingMsg }
    | _ => none
  | .bindsMsg c =>
    match w.phase with
    | .opening again .bindingMsg =>
      if w.canBind c = false then none
      else
        (p2sBindPort w.ports listenPort c).map fun (sock, ports) =>
          { w with ports := { ports with msg := sock }, phase := .opening again .testingMsg }
    | _ => none
  | .testsMsg =>
    match w.phase with
    | .opening again .testingMsg =>
      some (if w.ports.msg ≤ 0 then w.opened again (-1)
        else { w with phase := .opening again .bindingCmd })
    | _ => none
  | .bindsCmd c =>
    match w.phase with
    | .opening again .bindingCmd =>
      if w.canBind c = false then none
      else
        (p2sBindPort w.ports (listenPort + 1) c).map fun (sock, ports) =>
          { w with ports := { ports with cmd := sock }, phase := .opening again .testingCmd }
    | _ => none
  | .testsCmd =>
    match w.phase with
    | .opening again .testingCmd => some (w.opened again (if w.ports.cmd ≤ 0 then -1 else 0))
    | _ => none
  | .check =>
    if w.phase ≠ .checking then none
    else some (if w.quit then w.psp2shellExit else { w with phase := .accepting })
  | .accept sock admission =>
    if w.phase ≠ .accepting ∨ (0 ≤ sock ∧ sock ∈ w.ports.opened) then none
    else some (w.accept sock admission)
  | .quit => if w.quit then none else some { w with quit := true }
  | .exitsMsg =>
    if w.quit = false ∨ w.exitedMsg then none
    else some { w with ports := w.ports.closeMsg, exitedMsg := true }
  | .exitsCmd =>
    if w.exitedMsg = false ∨ w.exited then none
    else some { w with ports := w.ports.closeCmd, exited := true }
  | .othersOpen sock =>
    if sock < 0 ∨ sock ∈ w.ports.opened then none
    else some { w with ports := w.ports.othersOpen sock }
  | .othersClose sock =>
    if sock ∉ w.ports.others then none
    else some { w with ports := w.ports.othersClose sock }

/-! ### What a step can do -/

/-- What `open_server` comes to: `thread_wait` goes on, or it has failed the first time, and
`psp2shell_exit` finds `quit` set or not. -/
inductive Opened (w : Waiter) (again : Bool) (ret : Int) : Waiter → Prop
  | goesOn (hret : again = true ∨ ret = 0) : Opened w again ret { w with phase := .checking }
  | ended (hagain : again = false) (hret : ret ≠ 0) (hquit : w.quit = true) :
    Opened w again ret { w with phase := .ended }
  | stuck (hagain : again = false) (hret : ret ≠ 0) (hquit : w.quit = false) :
    Opened w again ret
      { w with
        phase := .stuck, ports := w.ports.closeServer, quit := true, exitedMsg := true,
        exited := true }

theorem opened_cases (w : Waiter) (again : Bool) (ret : Int) :
    Opened w again ret (w.opened again ret) := by
  unfold Waiter.opened
  split
  · rename_i hfails
    cases hquit : w.quit with
    | true =>
      simp only [Waiter.psp2shellExit, hquit, if_true]
      exact hquit ▸ .ended hfails.1 hfails.2 hquit
    | false =>
      simp only [Waiter.psp2shellExit, hquit, Bool.false_eq_true, if_false]
      exact .stuck hfails.1 hfails.2 hquit
  · rename_i hgoesOn
    refine .goesOn ?_
    by_contra hnot
    rw [not_or, Bool.not_eq_true] at hnot
    exact hgoesOn hnot

/-- What a step does. -/
inductive WaiterStep (w : Waiter) : Event → Waiter → Prop
  | ready {c : NetCalls} {network : Network} (hphase : w.phase = .starting)
    (hnet : p2sNetInit w.network c = (0, network)) :
    WaiterStep w (.netInit c) { w with network, phase := .opening false .closing }
  | given {c : NetCalls} {network : Network} {ret : Int} (hphase : w.phase = .starting)
    (hnet : p2sNetInit w.network c = (ret, network)) (hquit : w.quit = true) :
    WaiterStep w (.netInit c) { w with network, phase := .ended }
  | retry {c : NetCalls} {network : Network} {ret : Int} (hphase : w.phase = .starting)
    (hnet : p2sNetInit w.network c = (ret, network)) (hquit : w.quit = false) :
    WaiterStep w (.netInit c) { w with network }
  | closes {again : Bool} (hphase : w.phase = .opening again .closing) :
    WaiterStep w .closes
      { w with ports := w.ports.closeServer, phase := .opening again .bindingMsg }
  | bindsMsg {again : Bool} {c : BindCalls} {sock : Int} {ports : Ports}
    (hphase : w.phase = .opening again .bindingMsg) (hcan : w.canBind c = true)
    (hbind : p2sBindPort w.ports listenPort c = some (sock, ports)) :
    WaiterStep w (.bindsMsg c)
      { w with ports := { ports with msg := sock }, phase := .opening again .testingMsg }
  | msgBound {again : Bool} (hphase : w.phase = .opening again .testingMsg)
    (hmsg : 0 < w.ports.msg) :
    WaiterStep w .testsMsg { w with phase := .opening again .bindingCmd }
  | msgFailed {again : Bool} {u : Waiter} (hphase : w.phase = .opening again .testingMsg)
    (hmsg : w.ports.msg ≤ 0) (hopened : Opened w again (-1) u) : WaiterStep w .testsMsg u
  | bindsCmd {again : Bool} {c : BindCalls} {sock : Int} {ports : Ports}
    (hphase : w.phase = .opening again .bindingCmd) (hcan : w.canBind c = true)
    (hbind : p2sBindPort w.ports (listenPort + 1) c = some (sock, ports)) :
    WaiterStep w (.bindsCmd c)
      { w with ports := { ports with cmd := sock }, phase := .opening again .testingCmd }
  | testsCmd {again : Bool} {u : Waiter} (hphase : w.phase = .opening again .testingCmd)
    (hopened : Opened w again (if w.ports.cmd ≤ 0 then -1 else 0) u) : WaiterStep w .testsCmd u
  | accepts (hphase : w.phase = .checking) (hquit : w.quit = false) :
    WaiterStep w .check { w with phase := .accepting }
  | leaves {e : Event} (hphase : w.phase.inLoop = true) (hquit : w.quit = true)
    (hevent : e = .check ∨ ∃ sock admission, sock < 0 ∧ e = .accept sock admission) :
    WaiterStep w e { w with phase := .ended }
  | leavesOpen {sock : Int} {admission : Admission} (hphase : w.phase = .accepting)
    (hquit : w.quit = true) (hsock : 0 ≤ sock) (hnew : sock ∉ w.ports.opened) :
    WaiterStep w (.accept sock admission)
      { w with ports := w.ports.leave sock, phase := .ended }
  | accepted {sock : Int} {admission : Admission} (hphase : w.phase = .accepting)
    (hquit : w.quit = false) (hsock : 0 ≤ sock) (hnew : sock ∉ w.ports.opened) :
    WaiterStep w (.accept sock admission)
      { w with ports := w.ports.accept sock admission, phase := .checking }
  | lost {sock : Int} {admission : Admission} (hphase : w.phase = .accepting)
    (hquit : w.quit = false) (hsock : sock < 0) :
    WaiterStep w (.accept sock admission) { w with phase := .opening true .closing }
  | quit (hquit : w.quit = false) : WaiterStep w .quit { w with quit := true }
  | exitsMsg (hquit : w.quit = true) (hexited : w.exitedMsg = false) :
    WaiterStep w .exitsMsg { w with ports := w.ports.closeMsg, exitedMsg := true }
  | exitsCmd (hmsg : w.exitedMsg = true) (hexited : w.exited = false) :
    WaiterStep w .exitsCmd { w with ports := w.ports.closeCmd, exited := true }
  | othersOpen {sock : Int} (hsock : 0 ≤ sock) (hnew : sock ∉ w.ports.opened) :
    WaiterStep w (.othersOpen sock) { w with ports := w.ports.othersOpen sock }
  | othersClose {sock : Int} (hsock : sock ∈ w.ports.others) :
    WaiterStep w (.othersClose sock) { w with ports := w.ports.othersClose sock }

theorem step_netInit {w u : Waiter} {c : NetCalls} (h : w.step (.netInit c) = some u) :
    WaiterStep w (.netInit c) u := by
  simp only [Waiter.step] at h
  split at h
  · cases h
  · rename_i hphase
    rw [ne_eq, not_not] at hphase
    split at h
    · rename_i hret
      cases h
      exact .ready hphase (Prod.ext hret rfl)
    · split at h
      · rename_i hquit
        simp only [Waiter.psp2shellExit, hquit, if_true, Option.some.injEq] at h
        subst h
        exact hquit ▸ .given hphase rfl hquit
      · rename_i hquit
        cases h
        exact .retry hphase rfl (by simpa using hquit)

theorem step_check {w u : Waiter} (h : w.step .check = some u) : WaiterStep w .check u := by
  simp only [Waiter.step] at h
  split at h
  · cases h
  · rename_i hphase
    rw [ne_eq, not_not] at hphase
    cases hquit : w.quit with
    | true =>
      simp only [hquit, if_true, Waiter.psp2shellExit, Option.some.injEq] at h
      subst h
      exact hquit ▸ .leaves (by rw [hphase]; rfl) hquit (Or.inl rfl)
    | false =>
      simp only [hquit, Bool.false_eq_true, if_false, Option.some.injEq] at h
      subst h
      exact hquit ▸ .accepts hphase hquit

theorem step_accept {w u : Waiter} {sock : Int} {admission : Admission}
    (h : w.step (.accept sock admission) = some u) :
    WaiterStep w (.accept sock admission) u := by
  simp only [Waiter.step] at h
  split at h
  · cases h
  · rename_i hguard
    rw [not_or, ne_eq, not_not] at hguard
    obtain ⟨hphase, hnew⟩ := hguard
    have hinLoop : w.phase.inLoop = true := by rw [hphase]; rfl
    rw [Option.some.injEq] at h
    subst h
    rw [Waiter.accept]
    by_cases hsock : sock < 0
    · rw [if_pos hsock]
      cases hquit : w.quit with
      | true =>
        simp only [if_true, Waiter.psp2shellExit, hquit]
        exact hquit ▸ .leaves hinLoop hquit (Or.inr ⟨sock, admission, hsock, rfl⟩)
      | false =>
        simp only [Bool.false_eq_true, if_false]
        exact hquit ▸ .lost hphase hquit hsock
    · have hmem : sock ∉ w.ports.opened := fun hmem => hnew ⟨by omega, hmem⟩
      rw [if_neg hsock]
      cases hquit : w.quit with
      | true =>
        simp only [if_true, Waiter.psp2shellExit]
        exact hquit ▸ .leavesOpen hphase hquit (by omega) hmem
      | false =>
        simp only [Bool.false_eq_true, if_false]
        exact hquit ▸ .accepted hphase hquit (by omega) hmem

/-- The assignments of `open_server`. -/
theorem step_binds {w u : Waiter} {c : BindCalls} :
    (w.step (.bindsMsg c) = some u → WaiterStep w (.bindsMsg c) u) ∧
      (w.step (.bindsCmd c) = some u → WaiterStep w (.bindsCmd c) u) := by
  refine ⟨fun h => ?_, fun h => ?_⟩
  · simp only [Waiter.step] at h
    split at h
    · rename_i again hphase
      split at h
      · cases h
      · rename_i hcan
        obtain ⟨⟨sock, ports⟩, hbind, rfl⟩ := Option.map_eq_some_iff.mp h
        exact .bindsMsg hphase (by simpa using hcan) hbind
    · cases h
  · simp only [Waiter.step] at h
    split at h
    · rename_i again hphase
      split at h
      · cases h
      · rename_i hcan
        obtain ⟨⟨sock, ports⟩, hbind, rfl⟩ := Option.map_eq_some_iff.mp h
        exact .bindsCmd hphase (by simpa using hcan) hbind
    · cases h

/-- Its tests. -/
theorem step_tests {w u : Waiter} :
    (w.step .testsMsg = some u → WaiterStep w .testsMsg u) ∧
      (w.step .testsCmd = some u → WaiterStep w .testsCmd u) := by
  refine ⟨fun h => ?_, fun h => ?_⟩
  · simp only [Waiter.step] at h
    split at h
    · rename_i again hphase
      split at h
      · rename_i hmsg
        cases h
        exact .msgFailed hphase hmsg (opened_cases ..)
      · rename_i hmsg
        cases h
        exact .msgBound hphase (by omega)
    · cases h
  · simp only [Waiter.step] at h
    split at h
    · rename_i again hphase
      cases h
      exact .testsCmd hphase (opened_cases ..)
    · cases h

theorem step_cases {w u : Waiter} {e : Event} (h : w.step e = some u) : WaiterStep w e u := by
  cases e with
  | netInit c => exact step_netInit h
  | closes =>
    simp only [Waiter.step] at h
    split at h
    · rename_i again hphase
      cases h
      exact .closes hphase
    · cases h
  | bindsMsg c => exact step_binds.1 h
  | testsMsg => exact step_tests.1 h
  | bindsCmd c => exact step_binds.2 h
  | testsCmd => exact step_tests.2 h
  | check => exact step_check h
  | accept sock admission => exact step_accept h
  | quit =>
    simp only [Waiter.step] at h
    split at h
    · cases h
    · rename_i hquit
      cases h
      exact .quit (by simpa using hquit)
  | exitsMsg =>
    simp only [Waiter.step] at h
    split at h
    · cases h
    · rename_i hguard
      rw [not_or, Bool.not_eq_false, Bool.not_eq_true] at hguard
      cases h
      exact .exitsMsg hguard.1 hguard.2
  | exitsCmd =>
    simp only [Waiter.step] at h
    split at h
    · cases h
    · rename_i hguard
      rw [not_or, Bool.not_eq_false, Bool.not_eq_true] at hguard
      cases h
      exact .exitsCmd hguard.1 hguard.2
  | othersOpen sock =>
    simp only [Waiter.step] at h
    split at h
    · cases h
    · rename_i hguard
      rw [not_or] at hguard
      cases h
      exact .othersOpen (by omega) hguard.2
  | othersClose sock =>
    simp only [Waiter.step] at h
    split at h
    · cases h
    · rename_i hmem
      cases h
      exact .othersClose (not_not.mp hmem)

/-- `psp2shell_exit` sets `quit` first, and then goes over the variables in their order. -/
structure Stopping (w : Waiter) : Prop where
  quit : w.exitedMsg = true → w.quit = true
  order : w.exited = true → w.exitedMsg = true

theorem stopping_start (network : Network) (others : List Int) :
    Stopping (.start network others) :=
  ⟨nofun, nofun⟩

theorem Stopping.step {w u : Waiter} {e : Event} (h : Stopping w) (hstep : w.step e = some u) :
    Stopping u := by
  cases step_cases hstep with
  | msgFailed _ _ hopened | testsCmd _ hopened =>
    cases hopened with
    | goesOn | ended => exact ⟨h.quit, h.order⟩
    | stuck => exact ⟨fun _ => rfl, fun _ => rfl⟩
  | quit => exact ⟨fun _ => rfl, h.order⟩
  | exitsMsg hquit => exact ⟨fun _ => hquit, fun _ => rfl⟩
  | exitsCmd hexited => exact ⟨h.quit, fun _ => hexited⟩
  | ready | given | retry | closes | bindsMsg | msgBound | bindsCmd | accepts | leaves | leavesOpen
  | accepted | lost | othersOpen | othersClose => exact ⟨h.quit, h.order⟩

theorem guards_stopping : Guards Waiter.step Stopping Stopping fun _ _ => True where
  keep h _ hstep := h.step hstep
  good h := h

end Psp2Shell.Listen
