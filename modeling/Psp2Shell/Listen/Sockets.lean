import Psp2Shell.Listen.Model

/-! The sockets of `thread_wait`: what `close_server`, `p2s_bind_port` and the other threads do
to those that are open. -/

namespace Psp2Shell.Listen

open CLib

/-- `sceNetBind` and `sceNetListen` succeed. -/
def Binds (c : BindCalls) : Prop := 0 ≤ c.bind ∧ 0 ≤ c.listen

instance (c : BindCalls) : Decidable (Binds c) := inferInstanceAs (Decidable (_ ∧ _))

namespace Ports

/-- The sockets that the two variables hold, once they are more than static variables. -/
def held (p : Ports) : List Int :=
  if p.begun = false then []
  else (if 0 ≤ p.msg then [p.msg] else []) ++ if 0 ≤ p.cmd then [p.cmd] else []

/-- Both ports are listened on. -/
def Ready (p : Ports) : Prop :=
  (p.msg, listenPort) ∈ p.listening ∧ (p.cmd, listenPort + 1) ∈ p.listening

/-- No `close_server` has been over both variables; one may have been over the first. -/
structure Initial (p : Ports) : Prop where
  msg : p.msg = 0 ∧ p.taken = [] ∨ p.msg = -1 ∧ p.taken.Sublist [0]
  cmd : p.cmd = 0
  lost : p.lost = []
  left : p.left = []

/-- The open sockets are those that the variables hold, those that are lost, those that
`thread_wait` leaves, and those of the other threads, of which `close_server` has closed socket 0 at
most, once for each variable.  Only what the variables hold is listened on. -/
structure Accounted (p : Ports) : Prop where
  opened : p.opened.Perm (p.held ++ (p.lost ++ (p.left ++ p.others)))
  distinct : p.opened.Nodup
  taken : p.taken.Sublist [0, 0]
  sockets : ∀ e ∈ p.listening, e.1 ∈ p.held
  initial : p.begun = false → p.Initial

theorem held_begun {p : Ports} (h : p.begun = true) :
    p.held = (if 0 ≤ p.msg then [p.msg] else []) ++ if 0 ≤ p.cmd then [p.cmd] else [] := by
  rw [held, if_neg (by simp [h])]

theorem held_initial {p : Ports} (h : p.begun = false) : p.held = [] := by
  rw [held, if_pos h]

theorem held_nonneg {p : Ports} : ∀ sock ∈ p.held, 0 ≤ sock := by
  intro sock hmem
  cases hbegun : p.begun with
  | false =>
    rw [held_initial hbegun] at hmem
    cases hmem
  | true =>
    rw [held_begun hbegun] at hmem
    rcases List.mem_append.mp hmem with hmem | hmem <;> split at hmem
    · rwa [List.mem_singleton.mp hmem]
    · cases hmem
    · rwa [List.mem_singleton.mp hmem]
    · cases hmem

end Ports

/-! ### Closing -/

section

variable {p q : Ports} {sock : Int}

theorem closeMsg_spec (p : Ports) : p.closeMsg = p ∧ p.msg < 0 ∨
    0 ≤ p.msg ∧ p.closeMsg = { p.close p.msg with msg := -1 } := by
  unfold Ports.closeMsg
  split
  · exact Or.inr ⟨‹_›, rfl⟩
  · exact Or.inl ⟨rfl, by omega⟩

theorem closeCmd_spec (p : Ports) : p.closeCmd = { p with begun := true } ∧ p.cmd < 0 ∨
    0 ≤ p.cmd ∧ p.closeCmd = { p.close p.cmd with cmd := -1, begun := true } := by
  unfold Ports.closeCmd
  split
  · exact Or.inr ⟨‹_›, rfl⟩
  · exact Or.inl ⟨rfl, by omega⟩

@[simp] theorem closeCmd_begun (p : Ports) : p.closeCmd.begun = true := by
  obtain ⟨heq, -⟩ | ⟨-, heq⟩ := closeCmd_spec p <;> rw [heq]

@[simp] theorem closeMsg_begun (p : Ports) : p.closeMsg.begun = p.begun := by
  obtain ⟨heq, -⟩ | ⟨-, heq⟩ := closeMsg_spec p <;> rw [heq]
  rfl

@[simp] theorem closeCmd_msg (p : Ports) : p.closeCmd.msg = p.msg := by
  obtain ⟨heq, -⟩ | ⟨-, heq⟩ := closeCmd_spec p <;> rw [heq]
  rfl

theorem closeMsg_neg (p : Ports) : p.closeMsg.msg < 0 := by
  obtain ⟨heq, hneg⟩ | ⟨-, heq⟩ := closeMsg_spec p <;> rw [heq]
  · exact hneg
  · exact neg_one_lt_zero

theorem closeCmd_neg (p : Ports) : p.closeCmd.cmd < 0 := by
  obtain ⟨heq, hneg⟩ | ⟨-, heq⟩ := closeCmd_spec p <;> rw [heq]
  · exact hneg
  · exact neg_one_lt_zero

theorem closeServer_closed (p : Ports) : p.closeServer.msg < 0 ∧ p.closeServer.cmd < 0 :=
  ⟨(closeCmd_msg p.closeMsg).trans_lt (closeMsg_neg p), closeCmd_neg p.closeMsg⟩

theorem mem_close {e : Int × Nat} (h : e ∈ (p.close sock).listening) :
    e ∈ p.listening ∧ e.1 ≠ sock := by
  obtain ⟨hmem, hne⟩ := List.mem_filter.mp h
  exact ⟨hmem, by simpa using hne⟩

/-- A socket that none of the other threads has is closed. -/
theorem close_own {rest : List Int} (hopened : p.opened.Perm (sock :: rest))
    (hdistinct : p.opened.Nodup) (hothers : ∀ s ∈ p.others, s ∈ rest) :
    (p.close sock).opened.Perm rest ∧ (p.close sock).others = p.others ∧
      (p.close sock).taken = p.taken := by
  have hnew : sock ∉ p.others := fun hmem =>
    (List.nodup_cons.mp (hopened.nodup_iff.mp hdistinct)).1 (hothers _ hmem)
  have herase := hopened.erase sock
  rw [List.erase_cons_head] at herase
  exact ⟨herase, List.erase_of_not_mem hnew, if_neg hnew⟩

/-- As long as the variables hold nothing, a `close_server` closes socket 0. -/
theorem Ports.Accounted.closeZero (h : p.Accounted) (hbegun : p.begun = false) :
    (p.close 0).opened.Perm (p.lost ++ (p.left ++ (p.close 0).others)) ∧
      (p.close 0).listening = [] ∧ (p.close 0).taken.Sublist (p.taken ++ [0]) := by
  have hinitial := h.initial hbegun
  have hopened := h.opened
  have hsockets := h.sockets
  rw [Ports.held_initial hbegun, hinitial.lost, hinitial.left] at hopened
  rw [Ports.held_initial hbegun] at hsockets
  rw [hinitial.lost, hinitial.left]
  refine ⟨hopened.erase 0, ?_, ?_⟩
  · refine List.eq_nil_iff_forall_not_mem.mpr fun e he => ?_
    cases hsockets e (mem_close he).1
  · simp only [Ports.close]
    split
    · exact .refl _
    · exact List.sublist_append_left _ _

theorem Ports.Accounted.closeMsg (h : p.Accounted) : p.closeMsg.Accounted := by
  obtain ⟨heq, -⟩ | ⟨hmsg, heq⟩ := closeMsg_spec p
  · rwa [heq]
  rw [heq]
  cases hbegun : p.begun with
  | false =>
    have hinitial := h.initial hbegun
    obtain ⟨hzero, hnone⟩ | ⟨hneg, -⟩ := hinitial.msg
    · obtain ⟨hopened, hlistening, htaken⟩ := h.closeZero hbegun
      rw [hnone, List.nil_append] at htaken
      rw [hzero]
      have hheld : Ports.held { p.close 0 with msg := -1 } = [] := Ports.held_initial hbegun
      exact {
        opened := by rw [hheld]; exact hopened
        distinct := h.distinct.erase 0
        taken := htaken.trans (List.sublist_append_left [0] [0])
        sockets := by simp [hlistening]
        initial := fun _ => ⟨Or.inr ⟨rfl, htaken⟩, hinitial.cmd, hinitial.lost, hinitial.left⟩ }
    · omega
  | true =>
    have hopened := h.opened
    rw [Ports.held_begun hbegun, if_pos hmsg, List.append_assoc] at hopened
    obtain ⟨hrest, hothers, htaken⟩ := close_own hopened h.distinct (by simp +contextual)
    have hheld : Ports.held { p.close p.msg with msg := -1 } =
        if 0 ≤ p.cmd then [p.cmd] else [] := Ports.held_begun hbegun
    exact {
      opened := by rw [hheld]; exact hothers ▸ hrest
      distinct := h.distinct.erase p.msg
      taken := htaken ▸ h.taken
      sockets := fun e he => by
        obtain ⟨hmem, hne⟩ := mem_close he
        have hin := h.sockets e hmem
        rw [Ports.held_begun hbegun, if_pos hmsg] at hin
        rw [hheld]
        exact (List.mem_cons.mp hin).resolve_left hne
      initial := fun hno => absurd (hbegun.symm.trans hno) nofun }

/-- The variables are both behind a `close_server`. -/
theorem Ports.Accounted.begin (h : p.Accounted) (hmsg : p.begun = false → p.msg < 0)
    (hcmd : p.cmd < 0) : Ports.Accounted { p with begun := true } := by
  have hheld : Ports.held { p with begun := true } = p.held := by
    cases hbegun : p.begun with
    | false =>
      rw [Ports.held_initial hbegun, Ports.held_begun rfl, if_neg (by simpa using hmsg hbegun),
        if_neg (by simpa using hcmd)]
      rfl
    | true => rw [Ports.held_begun hbegun, Ports.held_begun rfl]
  exact ⟨hheld ▸ h.opened, h.distinct, h.taken, hheld ▸ h.sockets, nofun⟩

theorem Ports.Accounted.closeCmd (h : p.Accounted) (hmsg : p.begun = false → p.msg < 0) :
    p.closeCmd.Accounted := by
  obtain ⟨heq, hneg⟩ | ⟨hcmd, heq⟩ := closeCmd_spec p
  · rw [heq]
    exact h.begin hmsg hneg
  rw [heq]
  cases hbegun : p.begun with
  | false =>
    have hinitial := h.initial hbegun
    obtain ⟨hopened, hlistening, htaken⟩ := h.closeZero hbegun
    have hneg := hmsg hbegun
    have hone : p.taken.Sublist [0] := by
      obtain ⟨hzero, -⟩ | ⟨-, hone⟩ := hinitial.msg
      · omega
      · exact hone
    rw [hinitial.cmd]
    have hheld : Ports.held { p.close 0 with cmd := -1, begun := true } = [] := by
      have hnot : ¬0 ≤ p.msg := by omega
      rw [Ports.held_begun rfl]
      show (if 0 ≤ p.msg then [p.msg] else []) ++ [] = []
      rw [if_neg hnot]
      rfl
    exact {
      opened := by rw [hheld]; exact hopened
      distinct := h.distinct.erase 0
      taken := htaken.trans (hone.append_right [0])
      sockets := by simp [hlistening]
      initial := nofun }
  | true =>
    have hopened := h.opened
    rw [Ports.held_begun hbegun, if_pos hcmd, List.append_assoc] at hopened
    obtain ⟨hrest, hothers, htaken⟩ := close_own (hopened.trans List.perm_middle) h.distinct
      (by simp +contextual)
    have hheld : Ports.held { p.close p.cmd with cmd := -1, begun := true } =
        if 0 ≤ p.msg then [p.msg] else [] := by
      rw [Ports.held_begun rfl]
      exact List.append_nil _
    exact {
      opened := by rw [hheld]; exact hothers ▸ hrest
      distinct := h.distinct.erase p.cmd
      taken := htaken ▸ h.taken
      sockets := fun e he => by
        obtain ⟨hmem, hne⟩ := mem_close he
        have hin := h.sockets e hmem
        rw [Ports.held_begun hbegun, if_pos hcmd] at hin
        rw [hheld]
        exact (List.mem_append.mp hin).resolve_right fun hlast => hne (List.mem_singleton.mp hlast)
      initial := nofun }

theorem Ports.Accounted.closeServer (h : p.Accounted) : p.closeServer.Accounted :=
  h.closeMsg.closeCmd fun _ => closeMsg_neg p

/-! ### The sockets of the other threads, and connections -/

theorem Ports.Accounted.othersOpen (h : p.Accounted) (hnew : sock ∉ p.opened) :
    (p.othersOpen sock).Accounted := by
  refine ⟨?_, List.nodup_cons.mpr ⟨hnew, h.distinct⟩, h.taken, h.sockets, fun hbegun => ?_⟩
  · have hmiddle : (sock :: (p.held ++ (p.lost ++ (p.left ++ p.others)))).Perm
        (p.held ++ (p.lost ++ (p.left ++ (sock :: p.others)))) := by
      simp only [← List.append_assoc]
      exact List.perm_middle.symm
    exact (h.opened.cons sock).trans hmiddle
  · obtain ⟨hmsg, hcmd, hlost, hleft⟩ := h.initial hbegun
    exact ⟨hmsg, hcmd, hlost, hleft⟩

theorem Ports.Accounted.othersClose (h : p.Accounted) (hsock : sock ∈ p.others) :
    (p.othersClose sock).Accounted := by
  refine ⟨?_, h.distinct.erase sock, h.taken, fun e he => h.sockets e (List.mem_of_mem_filter he),
    fun hbegun => ?_⟩
  · have hopened : p.opened.Perm ((p.held ++ p.lost ++ p.left) ++ p.others) := by
      simpa only [List.append_assoc] using h.opened
    have hnodup := hopened.nodup_iff.mp h.distinct
    have hnot : sock ∉ p.held ++ p.lost ++ p.left := fun hmem =>
      List.disjoint_of_nodup_append hnodup hmem hsock
    have herase := hopened.erase sock
    rw [List.erase_append_right _ hnot] at herase
    simp only [List.append_assoc] at herase
    exact herase
  · obtain ⟨hmsg, hcmd, hlost, hleft⟩ := h.initial hbegun
    exact ⟨hmsg, hcmd, hlost, hleft⟩

theorem Ports.Accounted.leave (h : p.Accounted) (hbegun : p.begun = true)
    (hnew : sock ∉ p.opened) : (p.leave sock).Accounted := by
  refine ⟨?_, List.nodup_cons.mpr ⟨hnew, h.distinct⟩, h.taken, h.sockets, fun hno => ?_⟩
  · have hmiddle : (sock :: (p.held ++ (p.lost ++ (p.left ++ p.others)))).Perm
        (p.held ++ (p.lost ++ (sock :: p.left ++ p.others))) := by
      rw [← List.append_assoc p.held, ← List.append_assoc p.held]
      exact List.perm_middle.symm
    exact (h.opened.cons sock).trans hmiddle
  · exact absurd (hbegun.symm.trans hno) nofun

/-- A connection that is refused leaves nothing behind. -/
theorem Ports.Accounted.refuse (h : p.Accounted) (hnew : sock ∉ p.opened) :
    p.accept sock .refused = p := by
  have hopened : ∀ s, s ∈ p.held ∨ s ∈ p.others → s ∈ p.opened := by
    intro s hs
    refine h.opened.mem_iff.mpr ?_
    simp only [List.mem_append]
    tauto
  have hothers : sock ∉ p.others := fun hmem => hnew (hopened _ (Or.inr hmem))
  have hlistening : (p.listening.filter fun e => e.1 ≠ sock) = p.listening := by
    refine List.filter_eq_self.mpr fun e he => ?_
    have hne : e.1 ≠ sock := fun heq => hnew (heq ▸ hopened _ (Or.inl (h.sockets e he)))
    simpa using hne
  simp only [Ports.accept, Ports.close, List.erase_cons_head, hlistening,
    List.erase_of_not_mem hothers, if_neg hothers]

theorem Ports.Accounted.accept (h : p.Accounted) (hbegun : p.begun = true) (hnew : sock ∉ p.opened)
    (admission : Admission) : (p.accept sock admission).Accounted := by
  cases admission with
  | refused =>
    rw [h.refuse hnew]
    exact h
  | started => exact h.othersOpen hnew
  | failed => exact h.leave hbegun hnew

/-- A connection leaves the variables, and what is listened on, as they are. -/
theorem admit_same (h : p.Accounted) (hnew : sock ∉ p.opened) (admission : Admission) :
    (p.accept sock admission).msg = p.msg ∧ (p.accept sock admission).cmd = p.cmd ∧
      (p.accept sock admission).begun = p.begun ∧
      (p.accept sock admission).listening = p.listening := by
  cases admission with
  | refused =>
    rw [h.refuse hnew]
    exact ⟨rfl, rfl, rfl, rfl⟩
  | started | failed => exact ⟨rfl, rfl, rfl, rfl⟩

/-- What is listened on is no socket of another thread. -/
theorem othersClose_listening (h : p.Accounted) (hsock : sock ∈ p.others) :
    (p.othersClose sock).listening = p.listening := by
  refine List.filter_eq_self.mpr fun e he => ?_
  have hheld := h.sockets e he
  have hnodup := h.opened.nodup_iff.mp h.distinct
  have hne : e.1 ≠ sock := by
    intro heq
    refine List.disjoint_of_nodup_append hnodup hheld ?_
    simp [heq, hsock]
  simpa using hne

/-! ### Binding -/

theorem bindPort_made {port : Nat} {c : BindCalls} {r : Int}
    (h : p2sBindPort p port c = some (r, q)) : ∀ sock ∈ c.made, sock ∉ p.opened := by
  intro sock hsock
  unfold p2sBindPort at h
  split at h
  · cases h
  · rename_i hpossible
    rw [BindCalls.made] at hsock
    split at hsock
    · rw [List.mem_singleton.mp hsock]
      exact fun hmem => hpossible (Or.inl hmem)
    · cases hsock

/-- A call of `p2s_bind_port` returns its socket, which listens then, or -1,
and its socket is lost. -/
theorem bindPort_spec {port : Nat} {c : BindCalls} {r : Int}
    (h : p2sBindPort p port c = some (r, q)) :
    (Binds c ∧ 0 ≤ c.sock ∧ r = c.sock ∧ q = { p with
        opened := c.sock :: p.opened
        listening := p.listening ++ [(c.sock, port)] }) ∨
      (¬Binds c ∧ r = -1 ∧
        q = { p with opened := c.made ++ p.opened, lost := c.made ++ p.lost }) := by
  unfold p2sBindPort at h
  split at h
  · cases h
  · rename_i hpossible
    rw [not_or] at hpossible
    split at h
    · rename_i hbind
      cases h
      exact Or.inr ⟨fun hc => by have := hc.1; omega, rfl, rfl⟩
    · split at h
      · rename_i hlisten
        cases h
        exact Or.inr ⟨fun hc => by have := hc.2; omega, rfl, rfl⟩
      · rename_i hbind hlisten
        have hsock : 0 ≤ c.sock := by omega
        cases h
        refine Or.inl ⟨⟨by omega, by omega⟩, hsock, rfl, ?_⟩
        rw [BindCalls.made, if_pos hsock]
        rfl

theorem bindPort_keeps {port : Nat} {c : BindCalls} {r : Int}
    (h : p2sBindPort p port c = some (r, q)) :
    q.msg = p.msg ∧ q.cmd = p.cmd ∧ q.begun = p.begun := by
  obtain ⟨-, -, -, rfl⟩ | ⟨-, -, rfl⟩ := bindPort_spec h <;> exact ⟨rfl, rfl, rfl⟩

theorem nodup_made {port : Nat} {c : BindCalls} {r : Int}
    (h : p2sBindPort p port c = some (r, q)) (hdistinct : p.opened.Nodup) :
    (c.made ++ p.opened).Nodup := by
  have hnew := bindPort_made h
  by_cases hsock : 0 ≤ c.sock
  · rw [BindCalls.made, if_pos hsock] at hnew ⊢
    exact List.nodup_cons.mpr ⟨hnew _ (List.mem_singleton.mpr rfl), hdistinct⟩
  · rwa [BindCalls.made, if_neg hsock]

/-- The call has failed, and the variables hold what they have held. -/
theorem Ports.Accounted.bindFailed {port : Nat} {c : BindCalls} {r msg cmd : Int}
    (h : p.Accounted) (hbind : p2sBindPort p port c = some (r, q)) (hbegun : p.begun = true)
    (hheld : Ports.held { p with msg, cmd } = p.held) :
    Ports.Accounted
      { p with opened := c.made ++ p.opened, lost := c.made ++ p.lost, msg, cmd } := by
  have hperm : (c.made ++ p.opened).Perm
      (p.held ++ ((c.made ++ p.lost) ++ (p.left ++ p.others))) := by
    rw [List.append_assoc]
    exact (h.opened.append_left c.made).trans (List.perm_append_comm_assoc _ _ _)
  rw [← hheld] at hperm
  have hsockets := h.sockets
  rw [← hheld] at hsockets
  exact ⟨hperm, nodup_made hbind h.distinct, h.taken, hsockets,
    fun hno => absurd (hbegun.symm.trans hno) nofun⟩

theorem Ports.Accounted.bindMsg {port : Nat} {c : BindCalls} {r : Int} (h : p.Accounted)
    (hbegun : p.begun = true) (hmsg : p.msg < 0) (hbind : p2sBindPort p port c = some (r, q)) :
    ({ q with msg := r } : Ports).Accounted := by
  have hvacant : p.held = if 0 ≤ p.cmd then [p.cmd] else [] := by
    rw [Ports.held_begun hbegun, if_neg (by omega)]
    rfl
  have hnodup := nodup_made hbind h.distinct
  obtain ⟨-, hsock, rfl, rfl⟩ | ⟨-, rfl, rfl⟩ := bindPort_spec hbind
  · have hheld : Ports.held { p with
        opened := c.sock :: p.opened
        listening := p.listening ++ [(c.sock, port)]
        msg := c.sock } = c.sock :: p.held := by
      rw [hvacant, Ports.held, if_neg (by simp [hbegun]), if_pos hsock]
      rfl
    rw [BindCalls.made, if_pos hsock] at hnodup
    refine ⟨?_, hnodup, h.taken, ?_, fun hno => absurd (hbegun.symm.trans hno) nofun⟩
    · rw [hheld]
      exact h.opened.cons c.sock
    · rw [hheld]
      intro e he
      rcases List.mem_append.mp he with he | he
      · exact List.mem_cons_of_mem _ (h.sockets e he)
      · rw [List.mem_singleton.mp he]
        exact List.mem_cons_self
  · refine h.bindFailed hbind hbegun ?_
    rw [hvacant, Ports.held, if_neg (by simp [hbegun])]
    rfl

theorem Ports.Accounted.bindCmd {port : Nat} {c : BindCalls} {r : Int} (h : p.Accounted)
    (hbegun : p.begun = true) (hcmd : p.cmd < 0) (hbind : p2sBindPort p port c = some (r, q)) :
    ({ q with cmd := r } : Ports).Accounted := by
  have hvacant : p.held = if 0 ≤ p.msg then [p.msg] else [] := by
    rw [Ports.held_begun hbegun, if_neg (by omega : ¬0 ≤ p.cmd), List.append_nil]
  have hnodup := nodup_made hbind h.distinct
  obtain ⟨-, hsock, rfl, rfl⟩ | ⟨-, rfl, rfl⟩ := bindPort_spec hbind
  · have hheld : Ports.held { p with
        opened := c.sock :: p.opened
        listening := p.listening ++ [(c.sock, port)]
        cmd := c.sock } = p.held ++ [c.sock] := by
      rw [hvacant, Ports.held, if_neg (by simp [hbegun])]
      exact congrArg _ (if_pos hsock)
    rw [BindCalls.made, if_pos hsock] at hnodup
    refine ⟨?_, hnodup, h.taken, ?_, fun hno => absurd (hbegun.symm.trans hno) nofun⟩
    · rw [hheld, List.append_assoc]
      exact (h.opened.cons c.sock).trans List.perm_middle.symm
    · rw [hheld]
      intro e he
      rcases List.mem_append.mp he with he | he
      · exact List.mem_append_left _ (h.sockets e he)
      · rw [List.mem_singleton.mp he]
        exact List.mem_append_right _ List.mem_cons_self
  · refine h.bindFailed hbind hbegun ?_
    rw [hvacant, Ports.held, if_neg (by simp [hbegun])]
    exact List.append_nil _

end

end Psp2Shell.Listen
