import Psp2Shell.Listen.Sockets

/-! Runs of `thread_wait` beside a thread that stops the module and threads that open and close
sockets: which sockets stay open, and when both ports are listened on. -/

namespace Psp2Shell.Listen

open CLib

/-- While `thread_wait` accepts connections, both ports are listened on. -/
def Listens (w : Waiter) : Prop := w.phase.inLoop = true → w.quit = false → w.ports.Ready

/-- An `open_server` after a failed `accept` gets both ports, and the first one not as socket 0. -/
def Reopened (w : Waiter) : Event → Prop
  | .testsMsg => w.phase = .opening true .testingMsg → w.quit = false → 0 < w.ports.msg
  | .testsCmd => w.phase = .opening true .testingCmd → w.quit = false → 0 ≤ w.ports.cmd
  | _ => True

instance decidableReopened (w : Waiter) : ∀ e, Decidable (Reopened w e)
  | .testsMsg | .testsCmd => inferInstanceAs (Decidable (_ → _))
  | .netInit _ | .closes | .bindsMsg _ | .bindsCmd _ | .check | .accept _ _ | .quit | .exitsMsg
  | .exitsCmd | .othersOpen _ | .othersClose _ => isTrue trivial

variable {w u : Waiter} {others : List Int}

/-! ### Open sockets -/

/-- The variables that `open_server` has not assigned since its `close_server`. -/
def Vacant : Opening → Ports → Prop
  | .closing, _ => True
  | .bindingMsg, p => p.msg < 0 ∧ p.cmd < 0
  | .testingMsg, p | .bindingCmd, p => p.cmd < 0
  | .testingCmd, _ => True

/-- The phases before the first `close_server`, or without one. -/
def Phase.early : Phase → Bool
  | .starting | .opening false .closing | .ended => true
  | _ => false

/-- The sockets are accounted for, and `open_server` finds its variables free. -/
structure Waiting (w : Waiter) : Prop where
  accounted : w.ports.Accounted
  early : w.phase.early = false → w.ports.begun = true
  passed : w.exitedMsg = true → w.ports.begun = false → w.ports.msg < 0
  opening : ∀ again next, w.phase = .opening again next → next ≠ .closing → Vacant next w.ports

theorem waiting_start (network : Network) (hothers : others.Nodup) :
    Waiting (.start network others) where
  accounted := ⟨.refl _, hothers, List.nil_sublist _, nofun,
    fun _ => ⟨Or.inl ⟨rfl, rfl⟩, rfl, rfl, rfl⟩⟩
  early := nofun
  passed := nofun
  opening := nofun

theorem vacant_closed (next : Opening) (p : Ports) : Vacant next p.closeServer := by
  obtain ⟨hmsg, hcmd⟩ := closeServer_closed p
  cases next with
  | closing | testingCmd => trivial
  | bindingMsg => exact ⟨hmsg, hcmd⟩
  | testingMsg | bindingCmd => exact hcmd

/-- A variable that is closed is free, and one that was free stays so. -/
theorem Vacant.close {next : Opening} {p : Ports} (h : Vacant next p) :
    Vacant next p.closeMsg ∧ Vacant next p.closeCmd := by
  have hcmd : p.cmd < 0 → p.closeMsg.cmd < 0 := by
    intro hneg
    obtain ⟨heq, -⟩ | ⟨-, heq⟩ := closeMsg_spec p <;> rw [heq] <;> exact hneg
  cases next with
  | closing | testingCmd => exact ⟨trivial, trivial⟩
  | bindingMsg => exact ⟨⟨closeMsg_neg p, hcmd h.2⟩, (closeCmd_msg p).trans_lt h.1, closeCmd_neg p⟩
  | testingMsg | bindingCmd => exact ⟨hcmd h, closeCmd_neg p⟩

theorem Waiting.closed (h : Waiting w) (hports : u.ports = w.ports.closeServer) : Waiting u where
  accounted := hports ▸ h.accounted.closeServer
  early _ := hports ▸ closeCmd_begun w.ports.closeMsg
  passed _ hbegun := by
    rw [hports, Ports.closeServer, closeCmd_begun] at hbegun
    cases hbegun
  opening _ next _ _ := hports ▸ vacant_closed next w.ports

/-- A step that leaves `open_server`, or comes to its start, keeps the ports. -/
theorem Waiting.same (h : Waiting w) (hports : u.ports = w.ports)
    (hpassed : u.exitedMsg = w.exitedMsg) (hearly : u.phase.early = false → w.phase.early = false)
    (hphase : ∀ again next, u.phase = .opening again next → next = .closing) : Waiting u where
  accounted := hports ▸ h.accounted
  early hu := hports ▸ h.early (hearly hu)
  passed hexited := hports ▸ h.passed (hpassed ▸ hexited)
  opening again next hopening hnext := absurd (hphase again next hopening) hnext

theorem Waiting.opened {again : Bool} {ret : Int} (h : Waiting w) (hlate : w.phase.early = false)
    (hopened : Opened w again ret u) : Waiting u := by
  cases hopened with
  | goesOn | ended => exact h.same rfl rfl (fun _ => hlate) nofun
  | stuck => exact h.closed rfl

/-- The variable that is assigned was free. -/
theorem Waiting.bindsMsg {again : Bool} {c : BindCalls} {sock : Int} {ports : Ports} (h : Waiting w)
    (hphase : w.phase = .opening again .bindingMsg)
    (hbind : p2sBindPort w.ports listenPort c = some (sock, ports)) :
    Waiting
      { w with ports := { ports with msg := sock }, phase := .opening again .testingMsg } := by
  have hbegun : w.ports.begun = true := h.early (by rw [hphase]; cases again <;> rfl)
  obtain ⟨hmsg, hcmd⟩ := h.opening _ _ hphase nofun
  obtain ⟨-, hsame, hkept⟩ := bindPort_keeps hbind
  refine ⟨h.accounted.bindMsg hbegun hmsg hbind, fun _ => hkept.trans hbegun, fun _ hno => ?_, ?_⟩
  · exact absurd ((hkept.trans hbegun).symm.trans hno) nofun
  · rintro again next hopening -
    cases hopening
    exact hsame.trans_lt hcmd

theorem Waiting.bindsCmd {again : Bool} {c : BindCalls} {sock : Int} {ports : Ports} (h : Waiting w)
    (hphase : w.phase = .opening again .bindingCmd)
    (hbind : p2sBindPort w.ports (listenPort + 1) c = some (sock, ports)) :
    Waiting
      { w with ports := { ports with cmd := sock }, phase := .opening again .testingCmd } := by
  have hbegun : w.ports.begun = true := h.early (by rw [hphase]; cases again <;> rfl)
  obtain ⟨-, -, hkept⟩ := bindPort_keeps hbind
  refine ⟨h.accounted.bindCmd hbegun (h.opening _ _ hphase nofun) hbind,
    fun _ => hkept.trans hbegun, fun _ hno => ?_, ?_⟩
  · exact absurd ((hkept.trans hbegun).symm.trans hno) nofun
  · rintro again next hopening -
    cases hopening
    trivial

/-- A change of the ports in which the variables stay as they are, or are closed. -/
theorem Waiting.ports {p : Ports} (h : Waiting w) (haccounted : p.Accounted)
    (hbegun : w.ports.begun = true → p.begun = true)
    (hmsg : p.begun = false → w.ports.msg < 0 → p.msg < 0)
    (hvacant : ∀ next, Vacant next w.ports → Vacant next p) : Waiting { w with ports := p } where
  accounted := haccounted
  early hearly := hbegun (h.early hearly)
  passed hexited hno := by
    refine hmsg hno (h.passed hexited ?_)
    by_contra hyes
    rw [hbegun (by simpa using hyes)] at hno
    cases hno
  opening again next hopening hnext := hvacant next (h.opening again next hopening hnext)

theorem Waiting.exits (h : Waiting w) :
    Waiting { w with ports := w.ports.closeMsg, exitedMsg := true } ∧
      (w.exitedMsg = true → Waiting { w with ports := w.ports.closeCmd, exited := true }) := by
  constructor
  · obtain ⟨haccounted, hearly, -, hopening⟩ := h.ports h.accounted.closeMsg
      (fun hbegun => (closeMsg_begun w.ports).trans hbegun) (fun _ _ => closeMsg_neg w.ports)
      fun _ hvacant => hvacant.close.1
    exact ⟨haccounted, hearly, fun _ _ => closeMsg_neg w.ports, hopening⟩
  · intro hexited
    obtain ⟨haccounted, hearly, hpassed, hopening⟩ := h.ports
      (h.accounted.closeCmd fun hbegun => h.passed hexited hbegun)
      (fun _ => closeCmd_begun w.ports) (fun _ hneg => (closeCmd_msg w.ports).trans_lt hneg)
      fun _ hvacant => hvacant.close.2
    exact ⟨haccounted, hearly, hpassed, hopening⟩

theorem Waiting.step {e : Event} (h : Waiting w) (hstep : w.step e = some u) : Waiting u := by
  cases step_cases hstep with
  | ready hphase =>
    refine h.same rfl rfl nofun fun again next hopening => ?_
    cases hopening
    rfl
  | given | leaves => exact h.same rfl rfl nofun nofun
  | retry hphase =>
    exact h.same rfl rfl id fun again next hopening => by rw [hphase] at hopening; cases hopening
  | closes => exact h.closed rfl
  | bindsMsg hphase _ hbind => exact h.bindsMsg hphase hbind
  | msgBound hphase =>
    have hcmd := h.opening _ _ hphase nofun
    refine ⟨h.accounted, fun _ => h.early ?_, h.passed, ?_⟩
    · rw [hphase]
      cases ‹Bool› <;> rfl
    · rintro again next hopening -
      cases hopening
      exact hcmd
  | msgFailed hphase _ hopened =>
    exact h.opened (by rw [hphase]; cases ‹Bool› <;> rfl) hopened
  | bindsCmd hphase _ hbind => exact h.bindsCmd hphase hbind
  | testsCmd hphase hopened =>
    exact h.opened (by rw [hphase]; cases ‹Bool› <;> rfl) hopened
  | accepts hphase => exact h.same rfl rfl (fun _ => by rw [hphase]; rfl) nofun
  | leavesOpen hphase _ _ hnew =>
    have hbegun : w.ports.begun = true := h.early (by rw [hphase]; rfl)
    exact ⟨h.accounted.leave hbegun hnew, fun _ => hbegun, h.passed, nofun⟩
  | accepted hphase hquit hsock hnew =>
    rename_i sock admission
    have hbegun : w.ports.begun = true := h.early (by rw [hphase]; rfl)
    obtain ⟨-, -, hkept, -⟩ := admit_same h.accounted hnew admission
    refine ⟨h.accounted.accept hbegun hnew admission, fun _ => hkept.trans hbegun, fun _ hno => ?_,
      nofun⟩
    exact absurd ((hkept.trans hbegun).symm.trans hno) nofun
  | lost hphase =>
    refine h.same rfl rfl (fun _ => by rw [hphase]; rfl) fun again next hopening => ?_
    cases hopening
    rfl
  | quit => exact ⟨h.accounted, h.early, h.passed, h.opening⟩
  | exitsMsg => exact h.exits.1
  | exitsCmd hexited => exact h.exits.2 hexited
  | othersOpen _ hnew =>
    exact h.ports (h.accounted.othersOpen hnew) id (fun _ hneg => hneg) fun next hvacant => by
      cases next <;> exact hvacant
  | othersClose hsock =>
    exact h.ports (h.accounted.othersClose hsock) id (fun _ hneg => hneg) fun next hvacant => by
      cases next <;> exact hvacant

theorem guards_waiting :
    Guards Waiter.step Waiting (fun w => w.ports.Accounted) fun _ _ => True where
  keep h _ hstep := h.step hstep
  good h := h.accounted

/-- In every run the open sockets are those of the two variables, one for each call of
`p2s_bind_port` that has made a socket and failed, one for each connection that `thread_wait` has
accepted when no thread could be made or `quit` was set, and those of the other threads, of which
`close_server` has closed socket 0 at most. -/
theorem sockets_accounted (hothers : others.Nodup) {network : Network} {es : List Event}
    (hrun : run Waiter.step (.start network others) es = some w) : w.ports.Accounted :=
  guards_waiting.good (guards_waiting.invariant (waiting_start network hothers) hrun
    fun _ _ _ _ _ => trivial)

/-- The server on a network that is up; its `accept` fails. -/
def networkLost : List Event :=
  [.netInit ⟨true, true, true⟩, .closes, .bindsMsg ⟨3, 0, 0⟩, .testsMsg, .bindsCmd ⟨4, 0, 0⟩,
    .testsCmd, .check, .accept (-1) .failed, .closes]

/-- A client is admitted and a second one refused, a third one finds no thread, and the network is
lost; the other port is not listened on again. -/
def served : List Event :=
  [.netInit ⟨true, true, true⟩, .closes, .bindsMsg ⟨3, 0, 0⟩, .testsMsg, .bindsCmd ⟨4, 0, 0⟩,
    .testsCmd, .check, .accept 5 .started, .othersOpen 6, .check, .accept 8 .refused, .check,
    .accept 9 .failed, .check, .othersClose 5, .accept (-1) .failed, .closes, .bindsMsg ⟨3, 0, 0⟩,
    .testsMsg, .bindsCmd ⟨4, 0, -1⟩]

/-- The process has the sockets 0 and 7 at the start. -/
theorem sockets_accounted_lost : ∃ w,
    run Waiter.step (.start ⟨true, true, true⟩ [0, 7]) served = some w ∧
    w.ports.held = [3] ∧ w.ports.lost = [4] ∧ w.ports.left = [9] ∧ w.ports.others = [6, 7] ∧
    w.ports.taken = [0] ∧ w.ports.Accounted := by
  have h : (run Waiter.step (.start ⟨true, true, true⟩ [0, 7]) served).map (fun w =>
      (w.ports.held, w.ports.lost, w.ports.left, w.ports.others, w.ports.taken)) =
        some ([3], [4], [9], [6, 7], [0]) := by
    decide
  obtain ⟨w, hrun, heq⟩ := Option.map_eq_some_iff.mp h
  simp only [Prod.mk.injEq] at heq
  obtain ⟨hheld, hlost, hleft, hothers, htaken⟩ := heq
  exact ⟨w, hrun, hheld, hlost, hleft, hothers, htaken, sockets_accounted (by decide) hrun⟩

/-! ### Both ports -/

/-- What `open_server` has bound so far. -/
def Bound : Opening → Ports → Prop
  | .closing, _ | .bindingMsg, _ => True
  | .testingMsg, p => 0 < p.msg → (p.msg, listenPort) ∈ p.listening
  | .bindingCmd, p => (p.msg, listenPort) ∈ p.listening
  | .testingCmd, p =>
    (p.msg, listenPort) ∈ p.listening ∧ (0 ≤ p.cmd → (p.cmd, listenPort + 1) ∈ p.listening)

/-- Both ports are listened on in the loop, and `open_server` gets there. -/
structure Serves (w : Waiter) : Prop where
  waiting : Waiting w
  listens : Listens w
  bound : ∀ again next, w.phase = .opening again next → w.quit = false → Bound next w.ports

theorem bindPort_listens {p q : Ports} {port : Nat} {c : BindCalls} {sock : Int}
    (h : p2sBindPort p port c = some (sock, q)) :
    (0 ≤ sock → (sock, port) ∈ q.listening) ∧ ∀ e ∈ p.listening, e ∈ q.listening := by
  obtain ⟨-, -, rfl, rfl⟩ | ⟨-, rfl, rfl⟩ := bindPort_spec h
  · exact ⟨fun _ => by simp, fun e he => List.mem_append_left _ he⟩
  · exact ⟨fun hneg => absurd hneg (by decide), fun e he => he⟩

/-- The first time, `open_server` has returned 0, and otherwise the ports are
those that it has tested. -/
theorem Opened.listens {again : Bool} {ret : Int} (hopened : Opened w again ret u)
    (hready : w.quit = false → again = true ∨ ret = 0 → w.ports.Ready) : Listens u := by
  cases hopened with
  | goesOn hret => exact fun _ hquit => hready hquit hret
  | ended | stuck => exact nofun

theorem Opened.no_opening {again : Bool} {ret : Int} (hopened : Opened w again ret u)
    (again' : Bool) (next : Opening) : u.phase ≠ .opening again' next := by
  cases hopened <;> exact nofun

/-- With `quit` there is nothing to show. -/
theorem Serves.ofQuit (hwaiting : Waiting u) (hquit : u.quit = true) : Serves u := by
  refine ⟨hwaiting, fun _ hno => ?_, fun _ _ _ hno => ?_⟩ <;>
  · rw [hquit] at hno
    cases hno

/-- What is listened on, and the variables, are as before. -/
theorem Ports.Ready.of_same {p q : Ports} (h : p.Ready) (hmsg : q.msg = p.msg)
    (hcmd : q.cmd = p.cmd) (hlistening : q.listening = p.listening) : q.Ready := by
  obtain ⟨hreadyMsg, hreadyCmd⟩ := h
  rw [← hmsg, ← hlistening] at hreadyMsg
  rw [← hcmd, ← hlistening] at hreadyCmd
  exact ⟨hreadyMsg, hreadyCmd⟩

theorem Serves.ports {p : Ports} (h : Serves w) (hwaiting : Waiting { w with ports := p })
    (hmsg : p.msg = w.ports.msg) (hcmd : p.cmd = w.ports.cmd)
    (hlistening : p.listening = w.ports.listening) : Serves { w with ports := p } where
  waiting := hwaiting
  listens hloop hquit := (h.listens hloop hquit).of_same hmsg hcmd hlistening
  bound again next hopening hquit := by
    have hbound := h.bound again next hopening hquit
    cases next <;> simp only [Bound, hmsg, hcmd, hlistening] at hbound ⊢ <;> exact hbound

/-- In `open_server` what counts is what has been bound so far. -/
theorem Serves.inOpening {again : Bool} {next : Opening} (hwaiting : Waiting u)
    (hphase : u.phase = .opening again next) (hbound : u.quit = false → Bound next u.ports) :
    Serves u where
  waiting := hwaiting
  listens hloop := by
    rw [hphase] at hloop
    cases hloop
  bound again' next' hopening hquit := by
    cases hphase.symm.trans hopening
    exact hbound hquit

/-- Behind `open_server` both ports are to be ready. -/
theorem Serves.returned {again : Bool} {ret : Int} (hwaiting : Waiting u)
    (hopened : Opened w again ret u)
    (hready : w.quit = false → again = true ∨ ret = 0 → w.ports.Ready) : Serves u where
  waiting := hwaiting
  listens := hopened.listens hready
  bound again' next hopening := absurd hopening (hopened.no_opening again' next)

theorem Serves.step {e : Event} (h : Serves w) (hstopping : Stopping w) (hcond : Reopened w e)
    (hstep : w.step e = some u) : Serves u := by
  have hwaiting := h.waiting.step hstep
  cases step_cases hstep with
  | ready | closes | lost => exact .inOpening hwaiting rfl fun _ => trivial
  | given | leaves | leavesOpen => exact ⟨hwaiting, nofun, nofun⟩
  | retry hphase =>
    refine ⟨hwaiting, fun hloop => ?_, fun again next hopening => ?_⟩
    · have hnot : w.phase.inLoop = true := hloop
      rw [hphase] at hnot
      cases hnot
    · cases hphase.symm.trans hopening
  | bindsMsg hphase _ hbind =>
    exact .inOpening hwaiting rfl fun _ hpos => (bindPort_listens hbind).1 hpos.le
  | msgBound hphase hmsg =>
    exact .inOpening hwaiting rfl fun hquit => h.bound _ _ hphase hquit hmsg
  | msgFailed hphase hmsg hopened =>
    refine .returned hwaiting hopened fun hquit hret => ?_
    obtain rfl | hret := hret
    · have hpos := hcond hphase hquit
      omega
    · cases hret
  | bindsCmd hphase _ hbind =>
    obtain ⟨hlistens, hkept⟩ := bindPort_listens hbind
    refine .inOpening hwaiting rfl fun hquit => ⟨?_, hlistens⟩
    show (Ports.msg _, listenPort) ∈ Ports.listening _
    rw [(bindPort_keeps hbind).1]
    exact hkept _ (h.bound _ _ hphase hquit)
  | testsCmd hphase hopened =>
    refine .returned hwaiting hopened fun hquit hret => ?_
    obtain ⟨hmsg, hcmd⟩ := h.bound _ _ hphase hquit
    refine ⟨hmsg, hcmd ?_⟩
    obtain rfl | hret := hret
    · exact hcond hphase hquit
    · by_contra hneg
      rw [if_pos (by omega)] at hret
      cases hret
  | accepts hphase =>
    exact ⟨hwaiting, fun _ hquit => h.listens (by rw [hphase]; rfl) hquit, nofun⟩
  | accepted hphase hquit hsock hnew =>
    rename_i sock admission
    obtain ⟨hmsg, hcmd, -, hlistening⟩ := admit_same h.waiting.accounted hnew admission
    have hready := h.listens (by rw [hphase]; rfl) hquit
    exact ⟨hwaiting, fun _ _ => hready.of_same hmsg hcmd hlistening, nofun⟩
  | quit => exact .ofQuit hwaiting rfl
  | exitsMsg hquit => exact .ofQuit hwaiting hquit
  | exitsCmd hexited => exact .ofQuit hwaiting (hstopping.quit hexited)
  | othersOpen => exact h.ports hwaiting rfl rfl rfl
  | othersClose hsock =>
    exact h.ports hwaiting rfl rfl (othersClose_listening h.waiting.accounted hsock)

theorem guards_serves :
    Guards Waiter.step (fun w => Serves w ∧ Stopping w) Listens Reopened where
  keep h hcond hstep := ⟨h.1.step h.2 hcond hstep, h.2.step hstep⟩
  good h := h.1.listens

/-- A socket that is listened on is not negative. -/
theorem Serves.sockets (h : Serves w) : ∀ e ∈ w.ports.listening, 0 ≤ e.1 :=
  fun e he => Ports.held_nonneg _ (h.waiting.accounted.sockets e he)

theorem not_listens {e : Event} (h : Serves w) (hcond : ¬Reopened w e)
    (hstep : w.step e = some u) : ¬Listens u := by
  cases step_cases hstep with
  | msgFailed hphase hmsg hopened =>
    simp only [Reopened, Classical.not_imp] at hcond
    obtain ⟨hagain, hquit, -⟩ := hcond
    have hcmd : w.ports.cmd < 0 := h.waiting.opening _ _ hphase nofun
    cases hphase.symm.trans hagain
    intro hlistens
    cases hopened with
    | goesOn =>
      have hready := hlistens rfl hquit
      have hnonneg : 0 ≤ w.ports.cmd := h.sockets _ hready.2
      omega
    | ended hfalse | stuck hfalse => cases hfalse
  | testsCmd hphase hopened =>
    simp only [Reopened, Classical.not_imp] at hcond
    obtain ⟨hagain, hquit, hneg⟩ := hcond
    cases hphase.symm.trans hagain
    intro hlistens
    cases hopened with
    | goesOn =>
      have hready := hlistens rfl hquit
      exact hneg (h.sockets _ hready.2)
    | ended hfalse | stuck hfalse => cases hfalse
  | msgBound hphase hmsg => exact absurd (fun _ _ => hmsg) hcond
  | leaves hphase hquit hevent =>
    obtain rfl | ⟨sock, admission, -, rfl⟩ := hevent <;> exact absurd trivial hcond
  | ready | given | retry | closes | bindsMsg | bindsCmd | accepts | leavesOpen | accepted | lost
  | quit | exitsMsg | exitsCmd | othersOpen | othersClose => exact absurd trivial hcond

/-- As long as `quit` is not set, `thread_wait` accepts connections with both ports listened on in
every state of a run exactly when each `open_server` after a failed `accept` has bound both,
although it does not look at what these return. -/
theorem listens_iff (hothers : others.Nodup) {network : Network} {es : List Event}
    (hrun : run Waiter.step (.start network others) es = some w) :
    Always Waiter.step Listens (.start network others) es ↔
      EachStep Waiter.step Reopened (.start network others) es :=
  guards_serves.always_iff (fun h => not_listens h.1)
    ⟨⟨waiting_start network hothers, nofun, nofun⟩, stopping_start network others⟩ hrun

/-- The network comes back, with both ports or with one. -/
theorem listens_iff_lost :
    Always Waiter.step Listens (.start ⟨true, true, true⟩ [0, 7])
        (networkLost ++ [.bindsMsg ⟨5, 0, 0⟩, .testsMsg, .bindsCmd ⟨6, 0, 0⟩, .testsCmd]) ∧
      ¬Always Waiter.step Listens (.start ⟨true, true, true⟩ [0, 7])
        (networkLost ++ [.bindsMsg ⟨5, 0, 0⟩, .testsMsg, .bindsCmd ⟨6, 0, -1⟩, .testsCmd]) := by
  have hothers : ([0, 7] : List Int).Nodup := by decide
  constructor
  · exact (listens_iff hothers rfl).mpr (by decide)
  · exact fun h => absurd ((listens_iff hothers rfl).mp h) (by decide)

end Psp2Shell.Listen
