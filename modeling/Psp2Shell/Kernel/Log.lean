import Psp2Shell.Kernel.Interleaved

/-! The log on its way to the client.  The hooks of `psp2shell_k/main.c` add to the message list
while `ready` is set; `thread_kbuf` of `psp2shell_m/source/main.c` drains the list and sends what it
gets to the socket that the `cmd_thread`s have stored in the shared client, until `psp2shell_exit`
sets `quit`. -/

namespace Psp2Shell.Kernel

open CLib

/-- Where `thread_kbuf` is. -/
inductive Kbuf
  /-- At the test of `quit`. -/
  | idle
  /-- At the test of `client` and of `client->msg_sock`. -/
  | testing
  /-- In `kpsp2shell_wait_buffer`. -/
  | waiting
  /-- At the test behind it, with what it has stored in `msg_list`. -/
  | returned (msgList : List Kp2sMsg)
  /-- In the loop of `sceNetSend`, with the messages that are left. -/
  | sending (msgList : List Kp2sMsg)
  /-- Behind the loop. -/
  | ended
deriving DecidableEq

/-- The messages that `thread_kbuf` has in its array and not sent. -/
def Kbuf.inHand : Kbuf → List Kp2sMsg
  | idle | testing | waiting | ended => []
  | returned msgList | sending msgList => msgList

/-- The message that the next `sceNetSend` is for. -/
def Kbuf.next : Kbuf → Option Kp2sMsg
  | sending (m :: _) => some m
  | _ => none

/-- Whether `thread_kbuf` has found the client connected, and has not come back to its loop. -/
def Kbuf.connected : Kbuf → Bool
  | idle | testing | ended => false
  | waiting | returned _ | sending _ => true

/-- The bytes that a message is sent with: `msg_list[i].msg` and `msg_list[i].len`. -/
def Kp2sMsg.bytes (m : Kp2sMsg) : List Byte := m.msg.bytes.take m.len.toNat

/-- A call of `sceNetSend`, and the bytes that the socket has accepted. -/
structure Sent where
  sock : Int
  msg : Kp2sMsg
  accepted : List Byte

/-- `sceNetSend`, which accepts at most `n` bytes, and none when there is no socket. -/
def sceNetSend (sock : Int) (m : Kp2sMsg) (n : Nat) : Sent :=
  ⟨sock, m, if sock < 0 then [] else m.bytes.take n⟩

/-- The kernel module, `ready`, `quit`, `client->msg_sock` or `none` when `client` is `NULL`,
`thread_kbuf`, its calls of `sceNetSend`, and the messages that it has drained and not sent. -/
structure Log where
  kernel : Module
  ready : Bool
  quit : Bool
  client : Option Int
  kbuf : Kbuf
  sends : List Sent
  dropped : List Kp2sMsg

/-- `module_start` makes the client before it makes the thread. -/
def Log.start : Log := ⟨.start, false, false, some (-1), .idle, [], []⟩

inductive LogEvent
  /-- A hook that calls `kp2s_add_msg` when `ready` is set. -/
  | hook (p : Post)
  /-- `kpsp2shell_set_ready`. -/
  | setReady (ready : Bool)
  /-- A `cmd_thread` or `psp2shell_exit` assigns `client->msg_sock`. -/
  | setMsgSock (sock : Int)
  /-- `psp2shell_exit` sets `quit`. -/
  | setQuit
  /-- `psp2shell_exit` frees the client. -/
  | freeClient
  /-- A step of `thread_kbuf`, in which `sceNetSend` accepts up to `accepts` bytes. -/
  | kbuf (accepts : Nat)

/-- A step of `thread_kbuf`, and `none` when it has ended or reads the `msg_sock` of no client; its
array holds as many messages as `kpsp2shell_wait_buffer` counts. -/
def Log.kbufStep (s : Log) (accepts : Nat) : Option Log :=
  match s.kbuf with
  | .idle => if s.quit then some { s with kbuf := .ended } else some { s with kbuf := .testing }
  | .testing =>
    match s.client with
    | none => some { s with kbuf := .idle }
    | some sock =>
      if sock ≥ 0 then (s.kernel.step .enter).map fun kernel => { s with kernel, kbuf := .waiting }
      else some { s with kbuf := .idle }
  | .waiting =>
    match s.kernel.wait with
    | none => none
    | some w =>
      if w.i < msgMax then (s.kernel.step .iterate).map fun kernel => { s with kernel }
      else
        (s.kernel.step .leave).map fun kernel => { s with kernel, kbuf := .returned w.records }
  | .returned msgList =>
    match s.client with
    | none => none
    | some sock =>
      if sock ≥ 0 ∧ msgList.length > 0 then some { s with kbuf := .sending msgList }
      else some { s with kbuf := .idle, dropped := s.dropped ++ msgList }
  | .sending [] => some { s with kbuf := .idle }
  | .sending (m :: msgList) =>
    s.client.map fun sock =>
      { s with kbuf := .sending msgList, sends := s.sends ++ [sceNetSend sock m accepts] }
  | .ended => none

/-- One event, and `none` when it cannot happen or a hook stores past the list. -/
def Log.step (s : Log) : LogEvent → Option Log
  | .hook p =>
    if s.ready then (s.kernel.step (.add p)).map fun kernel => { s with kernel } else some s
  | .setReady ready => some { s with ready }
  | .setMsgSock sock => s.client.map fun _ => { s with client := some sock }
  | .setQuit => some { s with quit := true }
  | .freeClient => some { s with client := none }
  | .kbuf accepts => s.kbufStep accepts

/-! ### What a step can do -/

/-- What a step of `thread_kbuf` does. -/
inductive KbufStep (s : Log) (accepts : Nat) : Log → Prop
  | stop (hkbuf : s.kbuf = .idle) (hquit : s.quit = true) :
    KbufStep s accepts { s with kbuf := .ended }
  | loop (hkbuf : s.kbuf = .idle) (hquit : s.quit = false) :
    KbufStep s accepts { s with kbuf := .testing }
  | delay (hkbuf : s.kbuf = .testing) (hclient : ∀ sock ∈ s.client, sock < 0) :
    KbufStep s accepts { s with kbuf := .idle }
  | enter {kernel : Module} {sock : Int} (hkbuf : s.kbuf = .testing)
    (hclient : s.client = some sock) (hsock : 0 ≤ sock)
    (hstep : s.kernel.step .enter = some kernel) :
    KbufStep s accepts { s with kernel, kbuf := .waiting }
  | iterate {kernel : Module} (hkbuf : s.kbuf = .waiting)
    (hstep : s.kernel.step .iterate = some kernel) :
    KbufStep s accepts { s with kernel, kbuf := .waiting }
  | leave {kernel : Module} {w : Wait} (hkbuf : s.kbuf = .waiting) (hwait : s.kernel.wait = some w)
    (hstep : s.kernel.step .leave = some kernel) :
    KbufStep s accepts { s with kernel, kbuf := .returned w.records }
  | send {msgList : List Kp2sMsg} {sock : Int} (hkbuf : s.kbuf = .returned msgList)
    (hclient : s.client = some sock) (hsock : 0 ≤ sock) :
    KbufStep s accepts { s with kbuf := .sending msgList }
  | drop {msgList : List Kp2sMsg} {sock : Int} (hkbuf : s.kbuf = .returned msgList)
    (hclient : s.client = some sock) (hdrop : sock < 0 ∨ msgList = []) :
    KbufStep s accepts { s with kbuf := .idle, dropped := s.dropped ++ msgList }
  | sent {m : Kp2sMsg} {msgList : List Kp2sMsg} {sock : Int}
    (hkbuf : s.kbuf = .sending (m :: msgList)) (hclient : s.client = some sock) :
    KbufStep s accepts
      { s with kbuf := .sending msgList, sends := s.sends ++ [sceNetSend sock m accepts] }
  | done (hkbuf : s.kbuf = .sending []) : KbufStep s accepts { s with kbuf := .idle }

theorem kbufStep_testing {s t : Log} {accepts : Nat} (hkbuf : s.kbuf = .testing)
    (h : s.kbufStep accepts = some t) : KbufStep s accepts t := by
  simp only [Log.kbufStep, hkbuf] at h
  split at h
  · rename_i hclient
    cases h
    exact .delay hkbuf (by simp [hclient])
  · rename_i sock hclient
    split at h
    · rename_i hsock
      obtain ⟨kernel, hstep, rfl⟩ := Option.map_eq_some_iff.mp h
      exact .enter hkbuf hclient hsock hstep
    · rename_i hsock
      cases h
      refine .delay hkbuf fun sock' hmem => ?_
      cases hclient.symm.trans hmem
      omega

theorem kbufStep_waiting {s t : Log} {accepts : Nat} (hkbuf : s.kbuf = .waiting)
    (h : s.kbufStep accepts = some t) : KbufStep s accepts t := by
  simp only [Log.kbufStep, hkbuf] at h
  split at h
  · cases h
  · rename_i w hwait
    split at h
    · obtain ⟨kernel, hstep, rfl⟩ := Option.map_eq_some_iff.mp h
      exact .iterate hkbuf hstep
    · obtain ⟨kernel, hstep, rfl⟩ := Option.map_eq_some_iff.mp h
      exact .leave hkbuf hwait hstep

theorem kbufStep_returned {s t : Log} {accepts : Nat} {msgList : List Kp2sMsg}
    (hkbuf : s.kbuf = .returned msgList) (h : s.kbufStep accepts = some t) :
    KbufStep s accepts t := by
  simp only [Log.kbufStep, hkbuf] at h
  split at h
  · cases h
  · rename_i sock hclient
    split at h
    · rename_i hsend
      cases h
      exact .send hkbuf hclient hsend.1
    · rename_i hdrop
      cases h
      refine .drop hkbuf hclient ?_
      by_cases hsock : sock < 0
      · exact Or.inl hsock
      · refine Or.inr (List.eq_nil_of_length_eq_zero ?_)
        by_contra hne
        exact hdrop ⟨by omega, by omega⟩

theorem kbufStep_cases {s t : Log} {accepts : Nat} (h : s.kbufStep accepts = some t) :
    KbufStep s accepts t := by
  cases hkbuf : s.kbuf with
  | idle =>
    simp only [Log.kbufStep, hkbuf] at h
    split at h <;> rename_i hquit <;> cases h
    · exact .stop hkbuf hquit
    · exact .loop hkbuf (by simpa using hquit)
  | testing => exact kbufStep_testing hkbuf h
  | waiting => exact kbufStep_waiting hkbuf h
  | returned msgList => exact kbufStep_returned hkbuf h
  | sending msgList =>
    cases msgList with
    | nil =>
      simp only [Log.kbufStep, hkbuf] at h
      cases h
      exact .done hkbuf
    | cons m msgList =>
      simp only [Log.kbufStep, hkbuf] at h
      obtain ⟨sock, hclient, rfl⟩ := Option.map_eq_some_iff.mp h
      exact .sent hkbuf hclient
  | ended => simp [Log.kbufStep, hkbuf] at h

theorem step_hook {s t : Log} {p : Post} (h : s.step (.hook p) = some t) :
    t = s ∨ ∃ kernel, s.kernel.step (.add p) = some kernel ∧ t = { s with kernel } := by
  simp only [Log.step] at h
  split at h
  · obtain ⟨kernel, hstep, rfl⟩ := Option.map_eq_some_iff.mp h
    exact Or.inr ⟨kernel, hstep, rfl⟩
  · cases h
    exact Or.inl rfl

theorem step_enter {s t : Module} (h : s.step .enter = some t) :
    s.wait = none ∧ t = { s with wait := some Wait.enter } := by
  simp only [Module.step] at h
  split at h
  · cases h
    exact ⟨‹_›, rfl⟩
  · cases h

theorem step_leave {s t : Module} (h : s.step .leave = some t) :
    ∃ w, s.wait = some w ∧ msgMax ≤ w.i ∧
      t = { s with wait := none, returned := s.returned ++ w.records } := by
  simp only [Module.step] at h
  split at h
  · cases h
  · rename_i w hwait
    split at h
    · cases h
    · cases h
      exact ⟨w, hwait, by omega, rfl⟩

/-! ### Nothing is lost or sent twice -/

/-- What the list has accepted has been handed out or is pending. -/
def Conserved (s : Module) : Prop :=
  (s.handed ++ s.list.pending).Perm (s.accepted.map Post.record)

theorem conserved_start : Conserved Module.start := by
  have hnone : Module.start.list.pending = [] := by
    rw [KmsgList.pending, List.filter_eq_nil_iff]
    intro slot hslot
    rw [List.eq_of_mem_replicate hslot]
    decide
  rw [Conserved, hnone]
  exact .refl _

/-- A message that is stored is pending; it may lie before or behind others. -/
theorem pending_add {p : Post} {list after : KmsgList} (h : kp2sAddMsg p list = some after) :
    after.pending.Perm (list.pending ++ if 0 < p.len then [p.record] else []) := by
  obtain ⟨front, slot, back, hslots, -, hfree, hafter⟩ := place_eq_some (kp2sAddMsg_eq_some.mp h)
  have hbefore : list.pending = front.filter Kp2sMsg.Used ++ back.filter Kp2sMsg.Used := by
    rw [KmsgList.pending, hslots]
    simp [hfree]
  rw [hbefore, KmsgList.pending, hafter, List.filter_append]
  by_cases hpos : 0 < p.len
  · rw [if_pos hpos, List.filter_cons_of_pos (by simpa using used_record.mpr hpos)]
    exact List.perm_middle.trans (List.perm_append_singleton _ _).symm
  · rw [if_neg hpos, List.filter_cons_of_neg (by simpa using used_record.not.mpr hpos),
      List.append_nil]

theorem Conserved.add {s t : Module} {p : Post} (h : Conserved s)
    (hstep : s.step (.add p) = some t) :
    Conserved t := by
  obtain ⟨-, rfl⟩ | ⟨list, hadd, rfl⟩ := step_add hstep
  · exact h
  · have hrecords : (if p.len > 0 then s.accepted ++ [p] else s.accepted).map Post.record =
        s.accepted.map Post.record ++ if 0 < p.len then [p.record] else [] := by
      split <;> simp
    show (s.handed ++ list.pending).Perm _
    rw [hrecords]
    refine ((pending_add hadd).append_left _).trans ?_
    rw [← List.append_assoc]
    exact h.append_right _

/-- An iteration moves the message of its slot, if there is one. -/
theorem Conserved.iterate {s t : Module} (h : Conserved s) (hstep : s.step .iterate = some t) :
    Conserved t := by
  obtain ⟨w, hw, hi, rfl⟩ := step_iterate hstep
  obtain ⟨slot, hslots, hcases⟩ := waitIteration_cases s.list hi
  have hbefore : s.list.pending = (s.list.slots.take w.i).filter Kp2sMsg.Used ++
      (slot :: s.list.slots.drop (w.i + 1)).filter Kp2sMsg.Used := by
    rw [KmsgList.pending, ← List.filter_append, ← hslots]
  have hall : (s.returned ++ w.records ++ s.list.pending).Perm (s.accepted.map Post.record) := by
    have hconserved := h
    rwa [Conserved, Module.handed, hw] at hconserved
  rcases hcases with ⟨hused, heq⟩ | ⟨-, heq⟩
  · have hafter : (s.list.set w.i { slot with len := 0 }).pending =
        (s.list.slots.take w.i).filter Kp2sMsg.Used ++
          (s.list.slots.drop (w.i + 1)).filter Kp2sMsg.Used := by
      rw [KmsgList.pending, set_slots hslots hi, List.filter_append,
        List.filter_cons_of_neg (by simpa using cleared_free slot)]
    rw [hbefore, List.filter_cons_of_pos (by simpa using hused)] at hall
    rw [Conserved, Module.handed, heq, hafter]
    refine List.Perm.trans ?_ hall
    simp only [Option.elim, Wait.records, List.map_append, List.map_cons, List.map_nil,
      List.append_assoc, List.singleton_append]
    exact ((List.perm_middle.symm).append_left _).append_left _
  · rw [Conserved, Module.handed, heq]
    exact hall

theorem Conserved.enter {s t : Module} (h : Conserved s) (hstep : s.step .enter = some t) :
    Conserved t := by
  obtain ⟨hwait, rfl⟩ := step_enter hstep
  rwa [Conserved, Module.handed, hwait] at h

theorem Conserved.leave {s t : Module} (h : Conserved s) (hstep : s.step .leave = some t) :
    Conserved t := by
  obtain ⟨w, hwait, -, rfl⟩ := step_leave hstep
  rw [Conserved, Module.handed, hwait] at h
  rw [Conserved, Module.handed]
  simpa using h

end Psp2Shell.Kernel
