import Psp2Shell.Listen.Sockets

/-! A network that `p2s_netInit` does not try to initialize again. -/

namespace Psp2Shell.Listen

open CLib

variable {w u : Waiter} {others : List Int}

/-- Without `sceNetInit` no port is listened on. -/
def Silent (w : Waiter) : Prop := w.network.inited = false → w.ports.listening = []

theorem netInit_mono {net net' : Network} {c : NetCalls} {ret : Int}
    (h : p2sNetInit net c = (ret, net')) :
    (net'.inited = false → net.inited = false) ∧ (net.loaded = true → net' = net) := by
  unfold p2sNetInit at h
  cases hloaded : net.loaded with
  | true =>
    rw [if_pos hloaded] at h
    cases h
    exact ⟨id, fun _ => rfl⟩
  | false =>
    rw [hloaded, if_neg Bool.false_ne_true] at h
    refine ⟨fun huninited => ?_, nofun⟩
    split at h
    · cases h
      exact huninited
    · dsimp only at h
      split at h
      · cases h
        exact huninited
      · split at h <;> cases h <;> cases huninited

/-- Only `p2s_netInit` changes the network. -/
theorem network_step {e : Event} (h : w.step e = some u) : u.network = w.network ∨
    ∃ c ret, p2sNetInit w.network c = (ret, u.network) := by
  cases step_cases h with
  | ready _ hnet => exact Or.inr ⟨_, _, hnet⟩
  | given _ hnet => exact Or.inr ⟨_, _, hnet⟩
  | retry _ hnet => exact Or.inr ⟨_, _, hnet⟩
  | msgFailed _ _ hopened | testsCmd _ hopened => exact Or.inl (by cases hopened <;> rfl)
  | closes | bindsMsg | msgBound | bindsCmd | accepts | leaves | leavesOpen | accepted | lost | quit
  | exitsMsg | exitsCmd | othersOpen | othersClose => exact Or.inl rfl

theorem bindPort_silent {p q : Ports} {port : Nat} {c : BindCalls} {sock : Int}
    (h : p2sBindPort p port c = some (sock, q)) (hcan : w.canBind c = true)
    (huninited : w.network.inited = false) (hsilent : p.listening = []) : q.listening = [] := by
  rw [Waiter.canBind, huninited, Bool.false_or, decide_eq_true_iff] at hcan
  obtain ⟨-, hnonneg, -, -⟩ | ⟨-, -, rfl⟩ := bindPort_spec h
  · omega
  · exact hsilent

/-- Closing a socket adds nothing that is listened on. -/
theorem close_silent {p : Ports} (h : p.listening = []) (sock : Int) :
    (p.close sock).listening = [] := by
  simp [Ports.close, h]

theorem closeMsg_silent {p : Ports} (h : p.listening = []) : p.closeMsg.listening = [] := by
  obtain ⟨heq, -⟩ | ⟨-, heq⟩ := closeMsg_spec p <;> rw [heq]
  · exact h
  · exact close_silent h p.msg

theorem closeCmd_silent {p : Ports} (h : p.listening = []) : p.closeCmd.listening = [] := by
  obtain ⟨heq, -⟩ | ⟨-, heq⟩ := closeCmd_spec p <;> rw [heq]
  · exact h
  · exact close_silent h p.cmd

theorem closeServer_silent {p : Ports} (h : p.listening = []) : p.closeServer.listening = [] :=
  closeCmd_silent (closeMsg_silent h)

theorem admit_silent {p : Ports} (h : p.listening = []) (sock : Int) (admission : Admission) :
    (p.accept sock admission).listening = [] := by
  cases admission with
  | refused => exact close_silent h sock
  | started | failed => exact h

theorem Silent.opened {again : Bool} {ret : Int} (h : Silent w) (hopened : Opened w again ret u) :
    Silent u := by
  cases hopened with
  | goesOn | ended => exact h
  | stuck => exact fun huninited => closeServer_silent (h huninited)

theorem Silent.step {e : Event} (h : Silent w) (hstep : w.step e = some u) : Silent u := by
  cases step_cases hstep with
  | ready _ hnet => exact fun huninited => h ((netInit_mono hnet).1 huninited)
  | given _ hnet => exact fun huninited => h ((netInit_mono hnet).1 huninited)
  | retry _ hnet => exact fun huninited => h ((netInit_mono hnet).1 huninited)
  | bindsMsg _ hcan hbind =>
    intro huninited
    have hsilent := bindPort_silent hbind hcan huninited (h huninited)
    exact hsilent
  | bindsCmd _ hcan hbind =>
    intro huninited
    have hsilent := bindPort_silent hbind hcan huninited (h huninited)
    exact hsilent
  | msgFailed _ _ hopened => exact h.opened hopened
  | testsCmd _ hopened => exact h.opened hopened
  | closes => exact fun huninited => closeServer_silent (h huninited)
  | accepted =>
    rename_i sock admission _ _ _ _
    exact fun huninited => admit_silent (h huninited) sock admission
  | exitsMsg => exact fun huninited => closeMsg_silent (h huninited)
  | exitsCmd => exact fun huninited => closeCmd_silent (h huninited)
  | othersClose =>
    intro huninited
    have hsilent := h huninited
    simp [Ports.othersClose, hsilent]
  | msgBound | accepts | leaves | leavesOpen | lost | quit | othersOpen => exact h

/-- The module is loaded, `sceNetInit` has not succeeded, and nothing listens. -/
structure Down (w : Waiter) : Prop where
  loaded : w.network.loaded = true
  uninited : w.network.inited = false
  silent : Silent w

theorem Down.step {e : Event} (h : Down w) (hstep : w.step e = some u) : Down u := by
  have hsame : u.network = w.network := by
    obtain heq | ⟨c, ret, hnet⟩ := network_step hstep
    · exact heq
    · exact (netInit_mono hnet).2 h.loaded
  exact ⟨hsame ▸ h.loaded, hsame ▸ h.uninited, h.silent.step hstep⟩

theorem guards_down :
    Guards Waiter.step Down (fun w => w.ports.listening = []) fun _ _ => True where
  keep h _ hstep := h.step hstep
  good h := h.silent h.uninited

theorem guards_silent : Guards Waiter.step Silent Silent fun _ _ => True where
  keep h _ hstep := h.step hstep
  good h := h

/-- When the module is loaded and `sceNetInit` has not succeeded, the server listens in no state
that comes after: the next `p2s_netInit` returns 0 without it. -/
theorem never_listens {network : Network} {es more : List Event}
    (hrun : run Waiter.step (.start network others) es = some w) (hloaded : w.network.loaded = true)
    (huninited : w.network.inited = false) :
    Always Waiter.step (fun u => u.ports.listening = []) w more := by
  have hsilent : Silent w := guards_silent.invariant (fun _ => rfl) hrun fun _ _ _ _ _ => trivial
  exact guards_down.always ⟨hloaded, huninited, hsilent⟩ fun _ _ _ _ _ => trivial

/-- `sceNetInit` fails once: `p2s_netInit` then returns 0, and there are no sockets. -/
theorem never_listens_once : ∃ w, run Waiter.step (.start ⟨false, false, false⟩ [])
      [.netInit ⟨true, false, true⟩] = some w ∧
    Always Waiter.step (fun u => u.ports.listening = []) w
      [.netInit ⟨true, true, true⟩, .closes, .bindsMsg ⟨-1, -1, 0⟩, .testsMsg] :=
  ⟨_, rfl, never_listens (show run Waiter.step (.start ⟨false, false, false⟩ [])
    [.netInit ⟨true, false, true⟩] = some _ from rfl) rfl rfl⟩

end Psp2Shell.Listen
