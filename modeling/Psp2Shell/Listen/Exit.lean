import Psp2Shell.Listen.Accept

/-! What `psp2shell_exit` leaves of the sockets of the server, and how `thread_wait`
comes to its end after it. -/

namespace Psp2Shell.Listen

open CLib

/-- `thread_wait` is before one of its binds, on a network that has sockets or can come
to have them: in its loop of `p2s_netInit`, or in `open_server` before its
`close_server` or an assignment. -/
def Window (w : Waiter) : Prop :=
  match w.phase with
  | .starting => w.network.loaded = true → w.network.inited = true
  | .opening _ .closing | .opening _ .bindingMsg | .opening _ .bindingCmd => w.network.inited = true
  | .opening _ .testingMsg | .opening _ .testingCmd => False
  | .checking | .accepting | .stuck | .ended => False

instance (w : Waiter) : Decidable (Window w) := by
  unfold Window
  split <;> infer_instance

variable {w u : Waiter} {others : List Int}

/-! ### After the exit -/

theorem held_eq_nil {p : Ports} (h : p.msg < 0 ∧ p.cmd < 0) : p.held = [] := by
  rw [Ports.held, if_neg (by omega : ¬0 ≤ p.msg), if_neg (by omega : ¬0 ≤ p.cmd), List.append_nil,
    ite_self]

theorem held_iff {p : Ports} (hbegun : p.begun = true) :
    p.held = [] ↔ p.msg < 0 ∧ p.cmd < 0 := by
  refine ⟨fun h => ?_, held_eq_nil⟩
  rw [Ports.held_begun hbegun, List.append_eq_nil_iff] at h
  constructor
  · by_contra hmsg
    rw [if_pos (by omega)] at h
    cases h.1
  · by_contra hcmd
    rw [if_pos (by omega : 0 ≤ p.cmd)] at h
    cases h.2

/-- Without `sceNetInit` a call of `p2s_bind_port` fails. -/
theorem bindPort_uninited {p q : Ports} {port : Nat} {c : BindCalls} {sock : Int}
    (hcan : w.canBind c = true) (hinited : ¬w.network.inited = true)
    (h : p2sBindPort p port c = some (sock, q)) : sock < 0 := by
  rw [Waiter.canBind, Bool.eq_false_of_not_eq_true hinited, Bool.false_or,
    decide_eq_true_iff] at hcan
  obtain ⟨-, hnonneg, -, -⟩ | ⟨-, rfl, -⟩ := bindPort_spec h
  · omega
  · exact neg_one_lt_zero

/-- `psp2shell_exit` is over, the server holds nothing, and `thread_wait` cannot bind any more. -/
structure Shut (w : Waiter) : Prop where
  exited : w.exited = true
  begun : w.ports.begun = true
  held : w.ports.held = []
  window : ¬Window w

theorem Shut.opened {again : Bool} {ret : Int} (h : Shut w) (hquit : w.quit = true)
    (hopened : Opened w again ret u) : Shut u := by
  cases hopened with
  | goesOn | ended => exact ⟨h.exited, h.begun, h.held, id⟩
  | stuck _ _ hno =>
    rw [hquit] at hno
    cases hno

theorem Shut.step {e : Event} (h : Shut w) (hstopping : Stopping w)
    (hstep : w.step e = some u) : Shut u := by
  obtain ⟨hexited, hbegun, hheld, hwindow⟩ := h
  have hpassed := hstopping.order hexited
  have hquit := hstopping.quit hpassed
  have hno : w.quit ≠ false := by simp [hquit]
  obtain ⟨hmsg, hcmd⟩ := (held_iff hbegun).mp hheld
  cases step_cases hstep with
  | ready hphase hnet =>
    refine ⟨hexited, hbegun, hheld, ?_⟩
    simp only [Window, hphase, Classical.not_imp] at hwindow
    rw [p2sNetInit, if_pos hwindow.1] at hnet
    cases hnet
    exact hwindow.2
  | given => exact ⟨hexited, hbegun, hheld, id⟩
  | closes hphase =>
    refine ⟨hexited, closeCmd_begun _, held_eq_nil (closeServer_closed _), ?_⟩
    simpa only [Window, hphase] using hwindow
  | bindsMsg hphase hcan hbind =>
    simp only [Window, hphase] at hwindow
    have hneg := bindPort_uninited hcan hwindow hbind
    obtain ⟨-, hsame, hkept⟩ := bindPort_keeps hbind
    exact ⟨hexited, hkept.trans hbegun, held_eq_nil ⟨hneg, hsame.trans_lt hcmd⟩, id⟩
  | msgBound _ hpos => omega
  | bindsCmd hphase hcan hbind =>
    simp only [Window, hphase] at hwindow
    have hneg := bindPort_uninited hcan hwindow hbind
    obtain ⟨hsame, -, hkept⟩ := bindPort_keeps hbind
    exact ⟨hexited, hkept.trans hbegun, held_eq_nil ⟨hsame.trans_lt hmsg, hneg⟩, id⟩
  | msgFailed _ _ hopened | testsCmd _ hopened =>
    exact Shut.opened ⟨hexited, hbegun, hheld, hwindow⟩ hquit hopened
  | leaves => exact ⟨hexited, hbegun, hheld, id⟩
  | leavesOpen => exact ⟨hexited, hbegun, hheld, id⟩
  | othersOpen => exact ⟨hexited, hbegun, hheld, hwindow⟩
  | othersClose => exact ⟨hexited, hbegun, hheld, hwindow⟩
  | retry _ _ hnot | accepts _ hnot | accepted _ hnot | lost _ hnot | quit hnot =>
    exact absurd hnot hno
  | exitsMsg _ hnot => simp [hpassed] at hnot
  | exitsCmd _ hnot => simp [hexited] at hnot

theorem guards_shut : Guards Waiter.step (fun w => Shut w ∧ Stopping w)
    (fun w => w.ports.held = []) fun _ _ => True where
  keep h _ hstep := ⟨h.1.step h.2 hstep, h.2.step hstep⟩
  good h := h.1.held

/-- A `close_server` that has been over the variables stays so. -/
theorem begun_step {e : Event} (hstep : w.step e = some u)
    (h : w.exited = true → w.ports.begun = true) :
    u.exited = true → u.ports.begun = true := by
  cases step_cases hstep with
  | closes => exact fun _ => closeCmd_begun _
  | bindsMsg _ _ hbind => exact fun hexited => (bindPort_keeps hbind).2.2.trans (h hexited)
  | bindsCmd _ _ hbind => exact fun hexited => (bindPort_keeps hbind).2.2.trans (h hexited)
  | msgFailed _ _ hopened | testsCmd _ hopened =>
    cases hopened with
    | goesOn | ended => exact h
    | stuck => exact fun _ => closeCmd_begun _
  | accepted =>
    rename_i sock admission _ _ _ _
    cases admission <;> exact h
  | exitsMsg => exact fun hexited => (closeMsg_begun _).trans (h hexited)
  | exitsCmd => exact fun _ => closeCmd_begun _
  | ready | given | retry | msgBound | accepts | leaves | leavesOpen | lost | quit | othersOpen
  | othersClose => exact h

theorem guards_begun : Guards Waiter.step (fun w => w.exited = true → w.ports.begun = true)
    (fun w => w.exited = true → w.ports.begun = true) fun _ _ => True where
  keep h _ hstep := begun_step hstep h
  good h := h

/-- There is a socket that is not open. -/
theorem exists_new (opened : List Int) : ∃ sock : Int, 0 ≤ sock ∧ sock ∉ opened := by
  obtain ⟨sock, hnonneg, hnew⟩ := (Set.Ici_infinite (0 : Int)).exists_notMem_finset opened.toFinset
  rw [List.mem_toFinset] at hnew
  exact ⟨sock, hnonneg, hnew⟩

theorem exists_bindPort {p : Ports} (port : Nat) : ∃ sock : Int, ∃ q, 0 ≤ sock ∧
    p2sBindPort p port ⟨sock, 0, 0⟩ = some (sock, q) := by
  obtain ⟨sock, hnonneg, hnew⟩ := exists_new p.opened
  exact ⟨sock, _, hnonneg, by simp [p2sBindPort, hnew, hnonneg]; rfl⟩

/-- Before an assignment of `open_server`, on a network that is up, a port may be bound. -/
theorem exists_bind {again : Bool} (hbegun : w.ports.begun = true)
    (hinited : w.network.inited = true)
    (hphase : w.phase = .opening again .bindingMsg ∨ w.phase = .opening again .bindingCmd) :
    ∃ more u, run Waiter.step w more = some u ∧ u.ports.held ≠ [] := by
  obtain hphase | hphase := hphase
  · obtain ⟨sock, ports, hnonneg, hbind⟩ := @exists_bindPort w.ports listenPort
    have hstep : w.step (.bindsMsg ⟨sock, 0, 0⟩) = some
        { w with ports := { ports with msg := sock }, phase := .opening again .testingMsg } := by
      simp [Waiter.step, hphase, Waiter.canBind, hinited, hbind]
    refine ⟨[_], _, run_cons hstep [], ?_⟩
    intro hnone
    have hneg := (held_iff (p := { ports with msg := sock })
      ((bindPort_keeps hbind).2.2.trans hbegun)).mp hnone
    exact absurd hneg.1 (by simpa using hnonneg)
  · obtain ⟨sock, ports, hnonneg, hbind⟩ := @exists_bindPort w.ports (listenPort + 1)
    have hstep : w.step (.bindsCmd ⟨sock, 0, 0⟩) = some
        { w with ports := { ports with cmd := sock }, phase := .opening again .testingCmd } := by
      simp [Waiter.step, hphase, Waiter.canBind, hinited, hbind]
    refine ⟨[_], _, run_cons hstep [], ?_⟩
    intro hnone
    have hneg := (held_iff (p := { ports with cmd := sock })
      ((bindPort_keeps hbind).2.2.trans hbegun)).mp hnone
    exact absurd hneg.2 (by simpa using hnonneg)

/-- The same before the `close_server` of `open_server`. -/
theorem exists_closing {again : Bool} (hinited : w.network.inited = true)
    (hphase : w.phase = .opening again .closing) :
    ∃ more u, run Waiter.step w more = some u ∧ u.ports.held ≠ [] := by
  have hstep : w.step .closes = some
      { w with ports := w.ports.closeServer, phase := .opening again .bindingMsg } := by
    simp [Waiter.step, hphase]
  obtain ⟨more, u, hrun, hheld⟩ := exists_bind
    (w := { w with ports := w.ports.closeServer, phase := .opening again .bindingMsg })
    (closeCmd_begun _) hinited (Or.inl rfl)
  exact ⟨_, u, (run_cons hstep more).trans hrun, hheld⟩

theorem Window.binds (h : Window w) (hbegun : w.ports.begun = true) :
    ∃ more u, run Waiter.step w more = some u ∧ u.ports.held ≠ [] := by
  cases hphase : w.phase with
  | starting =>
    simp only [Window, hphase] at h
    obtain ⟨network, hnet, hinited⟩ : ∃ network,
        p2sNetInit w.network ⟨true, true, true⟩ = (0, network) ∧ network.inited = true := by
      cases hloaded : w.network.loaded with
      | true => exact ⟨w.network, by simp [p2sNetInit, hloaded], h hloaded⟩
      | false => exact ⟨⟨true, true, true⟩, by simp [p2sNetInit, hloaded], rfl⟩
    have hstep : w.step (.netInit ⟨true, true, true⟩) = some
        { w with network, phase := .opening false .closing } := by
      simp [Waiter.step, hphase, hnet]
    obtain ⟨more, u, hrun, hheld⟩ := exists_closing
      (w := { w with network, phase := .opening false .closing }) hinited rfl
    exact ⟨_, u, (run_cons hstep more).trans hrun, hheld⟩
  | opening again next =>
    cases next with
    | closing =>
      simp only [Window, hphase] at h
      exact exists_closing h hphase
    | bindingMsg =>
      simp only [Window, hphase] at h
      exact exists_bind hbegun h (Or.inl hphase)
    | bindingCmd =>
      simp only [Window, hphase] at h
      exact exists_bind hbegun h (Or.inr hphase)
    | testingMsg | testingCmd => simp [Window, hphase] at h
  | checking | accepting | stuck | ended => simp [Window, hphase] at h

/-- Once the `close_server` of `psp2shell_exit` is over, the server holds a socket in no state that
follows exactly when it holds none at that point, which a bind behind the statement that closes the
variable makes, and `thread_wait` is before none of its binds. -/
theorem exited_iff {network : Network} {es : List Event}
    (hrun : run Waiter.step (.start network others) es = some w) (hexited : w.exited = true) :
    (∀ more u, run Waiter.step w more = some u → u.ports.held = []) ↔
      w.ports.held = [] ∧ ¬Window w := by
  have hbegun : w.ports.begun = true :=
    guards_begun.invariant (fun h => by cases h) hrun (fun _ _ _ _ _ => trivial) hexited
  have hstopping : Stopping w :=
    guards_stopping.invariant (stopping_start network others) hrun fun _ _ _ _ _ => trivial
  constructor
  · refine fun hnever => ⟨hnever [] w rfl, fun hwindow => ?_⟩
    obtain ⟨more, u, hmore, hheld⟩ := hwindow.binds hbegun
    exact hheld (hnever more u hmore)
  · rintro ⟨hheld, hwindow⟩ more u hmore
    exact (guards_shut.invariant ⟨⟨hexited, hbegun, hheld, hwindow⟩, hstopping⟩ hmore
      fun _ _ _ _ _ => trivial).1.held

/-- The server opens its ports again and is stopped: behind both binds, before them, and around the
first one. -/
def stoppedBehind : List Event :=
  networkLost ++
    [.bindsMsg ⟨5, 0, 0⟩, .testsMsg, .bindsCmd ⟨6, 0, 0⟩, .quit, .exitsMsg, .exitsCmd]

def stoppedBefore : List Event := networkLost ++ [.quit, .exitsMsg, .exitsCmd]

def stoppedAround : List Event :=
  networkLost ++ [.quit, .exitsMsg, .bindsMsg ⟨5, 0, 0⟩, .exitsCmd]

theorem exited_iff_stopped :
    (∃ w, run Waiter.step (.start ⟨true, true, true⟩ []) stoppedBehind = some w ∧
      ∀ more u, run Waiter.step w more = some u → u.ports.held = []) ∧
    (∃ w, run Waiter.step (.start ⟨true, true, true⟩ []) stoppedBefore = some w ∧
      ¬∀ more u, run Waiter.step w more = some u → u.ports.held = []) ∧
    ∃ w, run Waiter.step (.start ⟨true, true, true⟩ []) stoppedAround = some w ∧
      ¬∀ more u, run Waiter.step w more = some u → u.ports.held = [] := by
  have hcase : ∀ es b, (run Waiter.step (.start ⟨true, true, true⟩ []) es).map (fun w =>
      (w.exited, decide (w.ports.held = [] ∧ ¬Window w))) = some (true, b) →
      ∃ w, run Waiter.step (.start ⟨true, true, true⟩ []) es = some w ∧
        ((∀ more u, run Waiter.step w more = some u → u.ports.held = []) ↔ b = true) := by
    intro es b h
    obtain ⟨w, hrun, heq⟩ := Option.map_eq_some_iff.mp h
    simp only [Prod.mk.injEq] at heq
    refine ⟨w, hrun, (exited_iff hrun heq.1).trans ?_⟩
    rw [← heq.2, decide_eq_true_iff]
  refine ⟨?_, ?_, ?_⟩
  · obtain ⟨w, hrun, hiff⟩ := hcase stoppedBehind true (by decide)
    exact ⟨w, hrun, hiff.mpr rfl⟩
  · obtain ⟨w, hrun, hiff⟩ := hcase stoppedBefore false (by decide)
    exact ⟨w, hrun, fun h => Bool.noConfusion (hiff.mp h)⟩
  · obtain ⟨w, hrun, hiff⟩ := hcase stoppedAround false (by decide)
    exact ⟨w, hrun, fun h => Bool.noConfusion (hiff.mp h)⟩

/-! ### The end of `thread_wait` -/

/-- How many steps `thread_wait` may still take once `quit` is set. -/
def Phase.rank : Phase → Nat
  | .starting => 7
  | .opening _ .closing => 6
  | .opening _ .bindingMsg => 5
  | .opening _ .testingMsg => 4
  | .opening _ .bindingCmd => 3
  | .opening _ .testingCmd => 2
  | .checking | .accepting => 1
  | .stuck | .ended => 0

/-- No `accept` is entered after the exit. -/
structure Ending (w : Waiter) : Prop where
  stopping : Stopping w
  accepting : w.exitedMsg = true → w.phase = .accepting → w.ports.msg < 0

theorem ending_start (network : Network) (others : List Int) : Ending (.start network others) :=
  ⟨stopping_start network others, nofun⟩

theorem Ending.step {e : Event} (h : Ending w) (hstep : w.step e = some u) : Ending u := by
  refine ⟨h.stopping.step hstep, fun hexited haccepting => ?_⟩
  cases step_cases hstep with
  | accepts _ hquit =>
    have hset := h.stopping.quit hexited
    rw [hquit] at hset
    cases hset
  | retry hphase => cases hphase.symm.trans haccepting
  | msgFailed _ _ hopened | testsCmd _ hopened => cases hopened <;> cases haccepting
  | exitsMsg => exact closeMsg_neg w.ports
  | exitsCmd hpassed => exact (closeCmd_msg w.ports).trans_lt (h.accepting hpassed haccepting)
  | quit => exact h.accepting hexited haccepting
  | othersOpen => exact h.accepting hexited haccepting
  | othersClose => exact h.accepting hexited haccepting
  | ready | given | closes | bindsMsg | msgBound | bindsCmd | leaves | leavesOpen | accepted
  | lost => cases haccepting

theorem guards_ending : Guards Waiter.step Ending Ending fun _ _ => True where
  keep h _ hstep := h.step hstep
  good h := h

theorem Opened.rank_le {again : Bool} {ret : Int} (hopened : Opened w again ret u) :
    u.phase.rank ≤ 1 := by
  cases hopened with
  | goesOn => exact le_rfl
  | ended | stuck => exact Nat.zero_le 1

/-- After the exit every step of `thread_wait` goes towards its end, and the steps of the others
leave it where it is. -/
theorem rank_lt {e : Event} (hquit : w.quit = true) (hpassed : w.exitedMsg = true)
    (hexited : w.exited = true) (hstep : w.step e = some u) :
    (if e.own then 1 else 0) + u.phase.rank ≤ w.phase.rank ∧ u.quit = true ∧
      u.exitedMsg = true ∧ u.exited = true := by
  have hno : w.quit ≠ false := by simp [hquit]
  cases step_cases hstep with
  | ready hphase | given hphase | closes hphase | bindsMsg hphase | msgBound hphase
  | bindsCmd hphase | leavesOpen hphase =>
    exact ⟨by simp [hphase, Phase.rank, Event.own], hquit, hpassed, hexited⟩
  | msgFailed hphase _ hopened | testsCmd hphase hopened =>
    have hrank := hopened.rank_le
    refine ⟨?_, ?_⟩
    · refine (Nat.add_le_add_left hrank _).trans ?_
      simp [hphase, Phase.rank, Event.own]
    · cases hopened with
      | goesOn | ended => exact ⟨hquit, hpassed, hexited⟩
      | stuck => exact ⟨rfl, rfl, rfl⟩
  | leaves hphase _ hevent =>
    refine ⟨?_, hquit, hpassed, hexited⟩
    have hown : e.own = true := by
      obtain rfl | ⟨sock, admission, -, rfl⟩ := hevent <;> rfl
    obtain hcase | hcase := Bool.or_eq_true_iff.mp hphase <;>
      simp [of_decide_eq_true hcase, hown, Phase.rank]
  | othersOpen => exact ⟨by simp [Event.own], hquit, hpassed, hexited⟩
  | othersClose => exact ⟨by simp [Event.own], hquit, hpassed, hexited⟩
  | retry _ _ hnot => exact absurd hnot hno
  | accepts _ hnot | accepted _ hnot | lost _ hnot => exact absurd hnot hno
  | quit hnot => exact absurd hnot hno
  | exitsMsg _ hnot => simp [hpassed] at hnot
  | exitsCmd _ hnot => simp [hexited] at hnot

theorem own_le_rank {more : List Event} (hquit : w.quit = true) (hpassed : w.exitedMsg = true)
    (hexited : w.exited = true) (hmore : run Waiter.step w more = some u) :
    more.countP Event.own + u.phase.rank ≤ w.phase.rank := by
  induction more generalizing w with
  | nil =>
    cases hmore
    simp
  | cons e more ih =>
    cases hstep : w.step e with
    | none => simp [run, hstep] at hmore
    | some v =>
      rw [run_cons hstep] at hmore
      obtain ⟨hrank, hquit', hpassed', hexited'⟩ := rank_lt hquit hpassed hexited hstep
      have hrest := ih hquit' hpassed' hexited' hmore
      rw [List.countP_cons]
      omega

theorem Phase.rank_le (p : Phase) : p.rank ≤ 7 := by
  cases p with
  | opening again next => cases next <;> simp [Phase.rank]
  | starting | checking | accepting | stuck | ended => simp [Phase.rank]

/-- A socket that cannot be made. -/
theorem exists_fails (p : Ports) (port : Nat) : ∃ c : BindCalls, c.sock < 0 ∧
    (p2sBindPort p port c).isSome = true := by
  obtain ⟨sock, hneg, hnew⟩ := (Set.Iio_infinite (0 : Int)).exists_notMem_finset p.opened.toFinset
  rw [List.mem_toFinset] at hnew
  have hsock : sock < 0 := hneg
  refine ⟨⟨sock, -1, 0⟩, hsock, ?_⟩
  simp [p2sBindPort, hnew]

/-- Until it is over, `thread_wait` has a next step. -/
theorem exists_step (hphase : w.phase.rank ≠ 0) :
    ∃ e u, e.own = true ∧ w.step e = some u := by
  cases hwhere : w.phase with
  | starting =>
    refine ⟨.netInit ⟨true, true, true⟩, ?_⟩
    simp only [Waiter.step, hwhere, ne_eq, not_true_eq_false, if_false]
    split
    · exact ⟨_, rfl, rfl⟩
    · split <;> exact ⟨_, rfl, rfl⟩
  | opening again next =>
    cases next with
    | closing => exact ⟨.closes, by simp [Waiter.step, hwhere, Event.own]⟩
    | bindingMsg =>
      obtain ⟨c, hsock, hsome⟩ := exists_fails w.ports listenPort
      obtain ⟨r, hr⟩ := Option.isSome_iff_exists.mp hsome
      exact ⟨.bindsMsg c, by simp [Waiter.step, hwhere, Waiter.canBind, hsock, hr, Event.own]⟩
    | testingMsg => exact ⟨.testsMsg, by simp [Waiter.step, hwhere, Event.own]⟩
    | bindingCmd =>
      obtain ⟨c, hsock, hsome⟩ := exists_fails w.ports (listenPort + 1)
      obtain ⟨r, hr⟩ := Option.isSome_iff_exists.mp hsome
      exact ⟨.bindsCmd c, by simp [Waiter.step, hwhere, Waiter.canBind, hsock, hr, Event.own]⟩
    | testingCmd => exact ⟨.testsCmd, by simp [Waiter.step, hwhere, Event.own]⟩
  | checking =>
    exact ⟨.check, by simp [Waiter.step, hwhere, Event.own]⟩
  | accepting =>
    exact ⟨.accept (-1) .failed, by simp [Waiter.step, hwhere, Event.own]⟩
  | stuck | ended => rw [hwhere] at hphase; exact absurd rfl hphase

/-- Once the sockets are closed, `thread_wait` takes at most 7 more steps, whatever its calls come
to and the other threads do: it waits in no `accept` on an open socket, and it has a next step until
it has ended or waits for itself in `psp2shell_exit`. -/
theorem exit_ends {network : Network} {es : List Event}
    (hrun : run Waiter.step (.start network others) es = some w) (hexited : w.exited = true) :
    (∀ more u, run Waiter.step w more = some u → more.countP Event.own ≤ 7) ∧
      (w.phase = .accepting → w.ports.msg < 0) ∧
      (w.phase ≠ .stuck → w.phase ≠ .ended → ∃ e u, e.own = true ∧ w.step e = some u) := by
  have hending : Ending w :=
    guards_ending.invariant (ending_start network others) hrun fun _ _ _ _ _ => trivial
  have hpassed := hending.stopping.order hexited
  refine ⟨fun more u hmore => ?_, hending.accepting hpassed, fun hstuck hended => exists_step ?_⟩
  · have hcount := own_le_rank (hending.stopping.quit hpassed) hpassed hexited hmore
    have hrank := w.phase.rank_le
    omega
  · intro hzero
    cases hwhere : w.phase with
    | opening again next => cases next <;> rw [hwhere] at hzero <;> cases hzero
    | stuck => exact hstuck hwhere
    | ended => exact hended hwhere
    | starting | checking | accepting => rw [hwhere] at hzero; cases hzero

/-- The module is stopped while the server opens its ports again. -/
theorem exit_ends_stopped : ∃ w,
    run Waiter.step (.start ⟨true, true, true⟩ []) stoppedBefore = some w ∧
    w.phase = .opening true .bindingMsg ∧
    (∀ more u, run Waiter.step w more = some u → more.countP Event.own ≤ 7) ∧
    ∃ e u, e.own = true ∧ w.step e = some u := by
  have h : (run Waiter.step (.start ⟨true, true, true⟩ []) stoppedBefore).map (fun w =>
      (w.phase, w.exited)) = some (.opening true .bindingMsg, true) := by
    decide
  obtain ⟨w, hrun, heq⟩ := Option.map_eq_some_iff.mp h
  simp only [Prod.mk.injEq] at heq
  obtain ⟨hsteps, -, hnext⟩ := exit_ends hrun heq.2
  exact ⟨w, hrun, heq.1, hsteps, hnext (by simp [heq.1]) (by simp [heq.1])⟩

end Psp2Shell.Listen
