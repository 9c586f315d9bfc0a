import Psp2Shell.Kernel.Hooks
import Psp2Shell.Kernel.Log

/-! What becomes of the messages of the log, over every interleaving of the hooks, the
`cmd_thread`s, `psp2shell_exit` and `thread_kbuf`: each is sent once or dropped once, in the order
of the hooks as long as nothing passes another, and `thread_kbuf` by itself sends all that waits. -/

namespace Psp2Shell.Kernel

open CLib

/-! ### Every message once -/

/-- The messages that the list has accepted, by where they are: sent, dropped, in the array of
`thread_kbuf`, copied there by the drain that is going on, or pending. -/
def Log.all (s : Log) : List Kp2sMsg :=
  s.sends.map Sent.msg ++ s.dropped ++ s.kbuf.inHand ++ s.kernel.wait.elim [] Wait.records ++
    s.kernel.list.pending

/-- The drains have returned what has been sent, dropped or is in the array. -/
structure Accounted (s : Log) : Prop where
  conserved : Conserved s.kernel
  handed : (s.sends.map Sent.msg ++ s.dropped ++ s.kbuf.inHand).Perm s.kernel.returned
  draining : s.kbuf = .waiting ↔ s.kernel.wait.isSome
  bound : s.kernel.position ≤ msgMax

theorem accounted_start : Accounted Log.start :=
  ⟨conserved_start, .refl _, by simp [Log.start, Module.start], Nat.zero_le _⟩

theorem waitIteration_i (list : KmsgList) {w : Wait} (h : w.i < msgMax) :
    (waitIteration list w).2.i = w.i + 1 := by
  obtain ⟨slot, -, ⟨-, heq⟩ | ⟨-, heq⟩⟩ := waitIteration_cases list h <;> rw [heq]

variable {s t : Log} {accepts : Nat}

theorem Accounted.all (h : Accounted s) : s.all.Perm (s.kernel.accepted.map Post.record) := by
  refine List.Perm.trans ?_ h.conserved
  exact (h.handed.append_right _).append_right _

theorem Accounted.hook {p : Post} (h : Accounted s) (hstep : s.step (.hook p) = some t) :
    Accounted t := by
  obtain rfl | ⟨kernel, hkernel, rfl⟩ := step_hook hstep
  · exact h
  · have hsame : kernel.returned = s.kernel.returned ∧ kernel.wait = s.kernel.wait := by
      obtain ⟨-, rfl⟩ | ⟨list, -, rfl⟩ := step_add hkernel
      · exact ⟨rfl, rfl⟩
      · exact ⟨rfl, rfl⟩
    refine ⟨h.conserved.add hkernel, ?_, ?_, ?_⟩
    · rw [hsame.1]
      exact h.handed
    · rw [hsame.2]
      exact h.draining
    · rw [Module.position, hsame.2]
      exact h.bound

theorem Accounted.kbuf (h : Accounted s) (hstep : s.kbufStep accepts = some t) : Accounted t := by
  have hhanded := h.handed
  have hdraining := h.draining
  cases kbufStep_cases hstep with
  | stop hkbuf | loop hkbuf | delay hkbuf | done hkbuf =>
    rw [hkbuf] at hhanded hdraining
    exact ⟨h.conserved, hhanded, by simpa using hdraining, h.bound⟩
  | enter hkbuf hclient hsock hkernel =>
    have hconserved := h.conserved.enter hkernel
    obtain ⟨-, rfl⟩ := step_enter hkernel
    rw [hkbuf] at hhanded
    exact ⟨hconserved, hhanded, by simp, Nat.zero_le _⟩
  | iterate hkbuf hkernel =>
    have hconserved := h.conserved.iterate hkernel
    obtain ⟨w, -, hi, rfl⟩ := step_iterate hkernel
    rw [hkbuf] at hhanded
    exact ⟨hconserved, hhanded, by simp, (waitIteration_i _ hi).trans_le hi⟩
  | leave hkbuf hwait hkernel =>
    have hconserved := h.conserved.leave hkernel
    obtain ⟨w, hw, -, rfl⟩ := step_leave hkernel
    cases hw.symm.trans hwait
    rw [hkbuf, Kbuf.inHand, List.append_nil] at hhanded
    exact ⟨hconserved, hhanded.append_right _, by simp, Nat.zero_le _⟩
  | send hkbuf hclient hsock =>
    rw [hkbuf] at hhanded hdraining
    exact ⟨h.conserved, hhanded, by simpa using hdraining, h.bound⟩
  | drop hkbuf hclient hdrop =>
    rw [hkbuf] at hhanded hdraining
    refine ⟨h.conserved, ?_, by simpa using hdraining, h.bound⟩
    rwa [Kbuf.inHand, List.append_nil, ← List.append_assoc]
  | sent hkbuf hclient =>
    rw [hkbuf] at hhanded hdraining
    refine ⟨h.conserved, List.Perm.trans ?_ hhanded, by simpa using hdraining, h.bound⟩
    simp only [List.map_append, List.map_cons, List.map_nil, sceNetSend, Kbuf.inHand,
      List.append_assoc, List.singleton_append]
    exact List.perm_middle.symm.append_left _

theorem Accounted.step {e : LogEvent} (h : Accounted s) (hstep : s.step e = some t) :
    Accounted t := by
  cases e with
  | hook p => exact h.hook hstep
  | setReady | setQuit | freeClient =>
    cases hstep
    exact ⟨h.conserved, h.handed, h.draining, h.bound⟩
  | setMsgSock sock =>
    obtain ⟨_, -, rfl⟩ := Option.map_eq_some_iff.mp hstep
    exact ⟨h.conserved, h.handed, h.draining, h.bound⟩
  | kbuf accepts => exact h.kbuf hstep

theorem guards_accounted : Guards Log.step Accounted Accounted fun _ _ => True where
  keep h _ hstep := h.step hstep
  good h := h

theorem accounted_of_run {es : List LogEvent} (h : run Log.step Log.start es = some s) :
    Accounted s :=
  guards_accounted.invariant accounted_start h fun _ _ _ _ _ => trivial

/-- In every run, each message that the list has accepted is in one place: sent, dropped, in the
array of `thread_kbuf`, or still in the kernel. -/
theorem log_conserved {es : List LogEvent} (h : run Log.step Log.start es = some t) :
    t.all.Perm (t.kernel.accepted.map Post.record) :=
  (accounted_of_run h).all

/-- A message is drained for a client that then goes, and another one waits for the next client. -/
def leaving : List LogEvent :=
  [LogEvent.setReady true, LogEvent.hook ⟨1, ascii "a"⟩, LogEvent.setMsgSock 5] ++
    List.replicate 67 (LogEvent.kbuf 256) ++
    [LogEvent.setMsgSock (-1), LogEvent.kbuf 256, LogEvent.hook ⟨1, ascii "b"⟩]

theorem log_conserved_leaving : ∃ t, run Log.step Log.start leaving = some t ∧
    t.dropped.length = 1 ∧ t.kernel.list.pending.length = 1 ∧
    t.all.Perm (t.kernel.accepted.map Post.record) := by
  have h : (run Log.step Log.start leaving).map (fun t =>
      (t.dropped.length, t.kernel.list.pending.length)) = some (1, 1) := by
    decide +kernel
  obtain ⟨t, ht, heq⟩ := Option.map_eq_some_iff.mp h
  simp only [Prod.mk.injEq] at heq
  exact ⟨t, ht, heq.1, heq.2, log_conserved ht⟩

/-! ### In order -/

/-- The messages that are still to be sent, in the order in which they will be. -/
def Log.coming (s : Log) : List Kp2sMsg :=
  s.kbuf.inHand ++ s.kernel.wait.elim [] Wait.records ++ s.kernel.coming

/-- What the sockets have accepted, and then what is to come, is what the list has accepted, in the
order of the hooks. -/
def InStream (s : Log) : Prop :=
  s.sends.flatMap Sent.accepted ++ s.coming.flatMap Kp2sMsg.bytes =
    s.kernel.accepted.flatMap fun p => p.record.bytes

/-- No message that the list takes passes one behind the scan, the client does not go while
`thread_kbuf` has it for connected, and `sceNetSend` accepts the whole message. -/
def Orderly (s : Log) : LogEvent → Prop
  | .hook p => s.ready = true → Admissible s.kernel (.add p)
  | .setReady _ | .setQuit => True
  | .setMsgSock sock => s.kbuf.connected = true → 0 ≤ sock
  | .freeClient => s.kbuf.connected = false
  | .kbuf accepts => ∀ m ∈ s.kbuf.next, m.bytes.length ≤ accepts

instance (s : Log) : DecidablePred (Orderly s)
  | .hook p => inferInstanceAs (Decidable (s.ready = true → Admissible s.kernel (.add p)))
  | .setReady _ | .setQuit => inferInstanceAs (Decidable True)
  | .setMsgSock sock => inferInstanceAs (Decidable (s.kbuf.connected = true → 0 ≤ sock))
  | .freeClient => inferInstanceAs (Decidable (s.kbuf.connected = false))
  | .kbuf accepts => inferInstanceAs (Decidable (∀ m ∈ s.kbuf.next, m.bytes.length ≤ accepts))

structure Streaming (s : Log) : Prop where
  scanning : Scanning s.kernel
  handed : s.kernel.returned = s.sends.map Sent.msg ++ s.kbuf.inHand
  connected : s.kbuf.connected = true → ∃ sock ∈ s.client, 0 ≤ sock
  whole : ∀ c ∈ s.sends, c.accepted = c.msg.bytes

theorem streaming_start : Streaming Log.start :=
  ⟨scanning_start, rfl, nofun, by simp [Log.start]⟩

theorem Streaming.inStream (h : Streaming s) : InStream s := by
  have horder : s.kernel.handed ++ s.kernel.coming = s.kernel.accepted.map Post.record :=
    h.scanning.order
  have hsends : s.sends.flatMap Sent.accepted =
      (s.sends.map Sent.msg).flatMap Kp2sMsg.bytes := by
    rw [List.flatMap_map]
    exact List.flatMap_congr fun c hc => h.whole c hc
  calc s.sends.flatMap Sent.accepted ++ s.coming.flatMap Kp2sMsg.bytes
      = (s.kernel.handed ++ s.kernel.coming).flatMap Kp2sMsg.bytes := by
        rw [hsends, ← List.flatMap_append, Module.handed, h.handed, Log.coming]
        simp only [List.append_assoc]
    _ = s.kernel.accepted.flatMap fun p => p.record.bytes := by
        rw [horder, List.flatMap_map]

theorem Streaming.hook {p : Post} (h : Streaming s) (hc : Orderly s (.hook p))
    (hstep : s.step (.hook p) = some t) : Streaming t := by
  by_cases hready : s.ready = true
  · rw [Log.step, if_pos hready] at hstep
    obtain ⟨kernel, hkernel, rfl⟩ := Option.map_eq_some_iff.mp hstep
    have hsame : kernel.returned = s.kernel.returned := by
      obtain ⟨-, rfl⟩ | ⟨list, -, rfl⟩ := step_add hkernel <;> rfl
    exact ⟨h.scanning.add (hc hready) hkernel, hsame.trans h.handed, h.connected, h.whole⟩
  · rw [Log.step, if_neg hready] at hstep
    cases hstep
    exact h

theorem Streaming.sent {m : Kp2sMsg} {msgList : List Kp2sMsg} {sock : Int} (h : Streaming s)
    (hc : Orderly s (.kbuf accepts)) (hkbuf : s.kbuf = .sending (m :: msgList))
    (hclient : s.client = some sock) :
    Streaming
      { s with kbuf := .sending msgList, sends := s.sends ++ [sceNetSend sock m accepts] } := by
  have hsock : 0 ≤ sock := by
    obtain ⟨sock', hmem, hsock⟩ := h.connected (by rw [hkbuf]; rfl)
    cases hclient.symm.trans hmem
    exact hsock
  have haccepted : (sceNetSend sock m accepts).accepted = m.bytes := by
    rw [sceNetSend, if_neg (by omega)]
    exact List.take_of_length_le (hc m (by rw [hkbuf]; rfl))
  refine ⟨h.scanning, ?_, fun _ => ⟨sock, hclient, hsock⟩, fun c hmem => ?_⟩
  · rw [h.handed, hkbuf]
    simp [sceNetSend, Kbuf.inHand]
  · rcases List.mem_append.mp hmem with hmem | hmem
    · exact h.whole c hmem
    · rw [List.mem_singleton.mp hmem, haccepted]
      rfl

theorem Streaming.kbuf (h : Streaming s) (hc : Orderly s (.kbuf accepts))
    (hstep : s.kbufStep accepts = some t) : Streaming t := by
  have hhanded := h.handed
  have hconnected := h.connected
  cases kbufStep_cases hstep with
  | stop hkbuf | loop hkbuf | delay hkbuf | done hkbuf =>
    rw [hkbuf] at hhanded
    exact ⟨h.scanning, hhanded, nofun, h.whole⟩
  | enter hkbuf hclient hsock hkernel =>
    have hscanning := h.scanning.enter hkernel
    obtain ⟨-, rfl⟩ := step_enter hkernel
    rw [hkbuf] at hhanded
    exact ⟨hscanning, hhanded, fun _ => ⟨_, hclient, hsock⟩, h.whole⟩
  | iterate hkbuf hkernel =>
    have hscanning := h.scanning.iterate hkernel
    obtain ⟨w, -, -, rfl⟩ := step_iterate hkernel
    rw [hkbuf] at hhanded hconnected
    exact ⟨hscanning, hhanded, hconnected, h.whole⟩
  | leave hkbuf hwait hkernel =>
    have hscanning := h.scanning.leave hkernel
    obtain ⟨w, hw, -, rfl⟩ := step_leave hkernel
    cases hw.symm.trans hwait
    rw [hkbuf, Kbuf.inHand, List.append_nil] at hhanded
    rw [hkbuf] at hconnected
    exact ⟨hscanning, congrArg (· ++ Wait.records _) hhanded, hconnected, h.whole⟩
  | send hkbuf hclient hsock =>
    rw [hkbuf] at hhanded
    exact ⟨h.scanning, hhanded, fun _ => ⟨_, hclient, hsock⟩, h.whole⟩
  | drop hkbuf hclient hdrop =>
    rw [hkbuf] at hhanded hconnected
    obtain ⟨sock, hmem, hsock⟩ := hconnected rfl
    cases hclient.symm.trans hmem
    obtain rfl := hdrop.resolve_left (by omega)
    exact ⟨h.scanning, hhanded, nofun, h.whole⟩
  | sent hkbuf hclient => exact h.sent hc hkbuf hclient

theorem guards_stream : Guards Log.step Streaming InStream Orderly where
  keep := by
    intro s e t h hc hstep
    cases e with
    | hook p => exact h.hook hc hstep
    | setReady | setQuit =>
      cases hstep
      exact ⟨h.scanning, h.handed, h.connected, h.whole⟩
    | setMsgSock sock =>
      obtain ⟨_, -, rfl⟩ := Option.map_eq_some_iff.mp hstep
      exact ⟨h.scanning, h.handed, fun hcon => ⟨sock, rfl, hc hcon⟩, h.whole⟩
    | freeClient =>
      cases hstep
      have hno : s.kbuf.connected = false := hc
      exact ⟨h.scanning, h.handed, fun hcon => absurd (hno.symm.trans hcon) nofun, h.whole⟩
    | kbuf accepts => exact h.kbuf hc hstep
  good := Streaming.inStream

/-- In every orderly run the sockets accept the messages in the order of the hooks, each of them
whole. -/
theorem log_in_order {es : List LogEvent} (h : EachStep Log.step Orderly Log.start es) :
    Always Log.step InStream Log.start es :=
  guards_stream.always streaming_start h

/-- A message is sent while a second one comes, and then the client goes. -/
def staying : List LogEvent :=
  [LogEvent.setReady true, LogEvent.setMsgSock 5, LogEvent.hook ⟨2, ascii "ab"⟩] ++
    List.replicate 69 (LogEvent.kbuf 256) ++
    [LogEvent.hook ⟨1, ascii "c"⟩, LogEvent.kbuf 256, LogEvent.setMsgSock (-1)]

theorem log_in_order_staying : Always Log.step InStream Log.start staying :=
  log_in_order (by decide +kernel)

/-! ### Printed texts -/

/-- What the print hooks hand to `kp2s_add_msg` for a text. -/
def printed (text : List Byte) : Post :=
  ⟨text.length, ((Buffer.zero p2sMsgLen).blit 0 (snprintf p2sMsgLen text)).bytes⟩

/-- What a hook hands to `kp2s_add_msg`. -/
def LogEvent.post : LogEvent → Option Post
  | hook p => some p
  | _ => none

/-- Steps of `thread_kbuf`, one after the other. -/
def Steps (accepts : Nat) : Log → Log → Prop :=
  Relation.ReflTransGen fun s t => s.kbufStep accepts = some t

theorem Steps.trans {u : Log} (h : Steps accepts s t) (h' : Steps accepts t u) :
    Steps accepts s u :=
  Relation.ReflTransGen.trans h h'

theorem Steps.run (h : Steps accepts s t) :
    ∃ k, run Log.step s (List.replicate k (.kbuf accepts)) = some t := by
  induction h using Relation.ReflTransGen.head_induction_on with
  | refl => exact ⟨0, rfl⟩
  | head hstep _ ih =>
    obtain ⟨k, hk⟩ := ih
    have hkbuf : Log.step _ (.kbuf accepts) = some _ := hstep
    exact ⟨k + 1, (run_cons hkbuf _).trans hk⟩

/-- The messages that are neither sent nor dropped: those in the array, those that the drain has
copied, and those in the list. -/
def Log.unsent (s : Log) : List Kp2sMsg :=
  s.kbuf.inHand ++ s.kernel.wait.elim [] Wait.records ++ s.kernel.list.pending

theorem Log.all_eq (s : Log) : s.all = s.sends.map Sent.msg ++ s.dropped ++ s.unsent := by
  simp only [Log.all, Log.unsent, List.append_assoc]

variable {sock : Int}

/-- The messages of the array are sent, one after the other. -/
theorem steps_sending {msgList : List Kp2sMsg} (hkbuf : s.kbuf = .sending msgList)
    (hclient : s.client = some sock) :
    Steps accepts s { s with
      kbuf := .idle
      sends := s.sends ++ msgList.map (sceNetSend sock · accepts) } := by
  induction msgList generalizing s with
  | nil =>
    refine .single ?_
    simp [Log.kbufStep, hkbuf]
  | cons m msgList ih =>
    let u : Log :=
      { s with kbuf := .sending msgList, sends := s.sends ++ [sceNetSend sock m accepts] }
    have hsend : s.kbufStep accepts = some u := by
      simp only [Log.kbufStep, hkbuf, hclient, Option.map_some, u]
    have hrest := ih (s := u) rfl hclient
    simp only [u, List.append_assoc, List.singleton_append] at hrest
    exact .head hsend hrest

theorem steps_returned {msgList : List Kp2sMsg} (hkbuf : s.kbuf = .returned msgList)
    (hclient : s.client = some sock) (hsock : 0 ≤ sock) :
    Steps accepts s { s with
      kbuf := .idle
      sends := s.sends ++ msgList.map (sceNetSend sock · accepts) } := by
  cases msgList with
  | nil =>
    refine .single ?_
    simp [Log.kbufStep, hkbuf, hclient]
  | cons m msgList =>
    have hstep : s.kbufStep accepts = some { s with kbuf := .sending (m :: msgList) } := by
      simp [Log.kbufStep, hkbuf, hclient, hsock]
    exact .head hstep (steps_sending rfl hclient)

/-- The drain that is going on, up to its return. -/
theorem steps_waiting {n : Nat} {w : Wait} (hkbuf : s.kbuf = .waiting)
    (hwait : s.kernel.wait = some w) (hn : w.i + n = msgMax) :
    let after := (fun s => waitIteration s.1 s.2)^[n] (s.kernel.list, w)
    Steps accepts s { s with
      kernel := ⟨after.1, none, s.kernel.accepted, s.kernel.returned ++ after.2.records⟩
      kbuf := .returned after.2.records } := by
  induction n generalizing s w with
  | zero =>
    have hi : ¬w.i < msgMax := by omega
    refine .single ?_
    simp only [Log.kbufStep, hkbuf, hwait, if_neg hi, Module.step, Option.map_some]
    rfl
  | succ n ih =>
    have hi : w.i < msgMax := by omega
    let u := { s with
      kernel := { s.kernel with
        list := (waitIteration s.kernel.list w).1
        wait := some (waitIteration s.kernel.list w).2 } }
    have hstep : s.kbufStep accepts = some u := by
      simp only [Log.kbufStep, hkbuf, hwait, if_pos hi, Module.step, Option.map_some, u]
    have hrest := ih (s := u) hkbuf rfl (by rw [waitIteration_i _ hi]; omega)
    rw [Function.iterate_succ_apply]
    exact .head hstep hrest

/-- A drain from the start of the list leaves every slot free. -/
theorem steps_drain {w : Wait} (hkbuf : s.kbuf = .waiting) (hwait : s.kernel.wait = some w)
    (hbound : w.i ≤ msgMax) :
    ∃ list records, Steps accepts s { s with
        kernel := ⟨list, none, s.kernel.accepted, s.kernel.returned ++ records⟩
        kbuf := .returned records } ∧
      (w = Wait.enter → ∀ slot ∈ list.slots, ¬slot.Used) := by
  obtain ⟨n, hn⟩ := Nat.exists_eq_add_of_le hbound
  refine ⟨_, _, steps_waiting hkbuf hwait hn.symm, ?_⟩
  rintro rfl
  obtain rfl : msgMax = n := hn.trans (Nat.zero_add n)
  have hfree := wait_free s.kernel.list
  rw [kpsp2shellWaitBuffer] at hfree
  exact hfree

/-- `thread_kbuf` has come to `kbuf` after it has sent `sent` to `sock`. -/
def Log.drained (s : Log) (sock : Int) (accepts : Nat) (kbuf : Kbuf) (kernel : Module)
    (sent : List Kp2sMsg) : Log :=
  { s with kernel, kbuf, sends := s.sends ++ sent.map (sceNetSend sock · accepts) }

variable (accepts) in
/-- From any state, `thread_kbuf` gets back to its test of the client. -/
theorem steps_to_testing (h : Accounted s) (hquit : s.quit = false) (hclient : s.client = some sock)
    (hsock : 0 ≤ sock) (hended : s.kbuf ≠ .ended) :
    ∃ kernel, ∃ sent : List Kp2sMsg, Steps accepts s (s.drained sock accepts .testing kernel sent) ∧
      kernel.accepted = s.kernel.accepted := by
  have hloop : ∀ kernel sent, Steps accepts (s.drained sock accepts .idle kernel sent)
      (s.drained sock accepts .testing kernel sent) := by
    intro kernel sent
    refine .single ?_
    simp [Log.kbufStep, Log.drained, hquit]
  have hnone : ∀ kbuf, s.kbuf = kbuf →
      s.drained sock accepts kbuf s.kernel [] = s := by
    rintro kbuf rfl
    simp [Log.drained]
  cases hkbuf : s.kbuf with
  | idle =>
    have hidle := hloop s.kernel []
    rw [hnone _ hkbuf] at hidle
    exact ⟨s.kernel, [], hidle, rfl⟩
  | testing =>
    refine ⟨s.kernel, [], ?_, rfl⟩
    rw [hnone _ hkbuf]
    exact .refl
  | waiting =>
    obtain ⟨w, hwait⟩ := Option.isSome_iff_exists.mp (h.draining.mp hkbuf)
    have hbound := h.bound
    rw [Module.position, hwait] at hbound
    obtain ⟨list, records, hdrained, -⟩ := steps_drain hkbuf hwait hbound
    exact ⟨_, _, (hdrained.trans (steps_returned rfl hclient hsock)).trans (hloop _ _), rfl⟩
  | returned msgList =>
    exact ⟨_, _, (steps_returned hkbuf hclient hsock).trans (hloop _ _), rfl⟩
  | sending msgList => exact ⟨_, _, (steps_sending hkbuf hclient).trans (hloop _ _), rfl⟩
  | ended => exact absurd hkbuf hended

variable (accepts) in
/-- A round of the loop sends all that is pending. -/
theorem steps_round (h : Accounted s) (hkbuf : s.kbuf = .testing) (hclient : s.client = some sock)
    (hsock : 0 ≤ sock) :
    ∃ kernel, ∃ sent : List Kp2sMsg, Steps accepts s (s.drained sock accepts .idle kernel sent) ∧
      kernel.accepted = s.kernel.accepted ∧ kernel.list.pending = [] ∧ kernel.wait = none := by
  have hwait : s.kernel.wait = none := by
    have hdraining := h.draining
    rw [hkbuf] at hdraining
    simpa using hdraining
  let v := { s with kernel := { s.kernel with wait := some Wait.enter }, kbuf := .waiting }
  have henter : s.kbufStep accepts = some v := by
    simp only [Log.kbufStep, hkbuf, hclient, ge_iff_le, hsock, if_true, Module.step, hwait,
      Option.map_some, v]
  obtain ⟨list, records, hdrained, hfree⟩ :=
    @steps_drain v accepts Wait.enter rfl rfl (Nat.zero_le _)
  refine ⟨_, _, .head henter (hdrained.trans (steps_returned rfl hclient hsock)), rfl, ?_, rfl⟩
  rw [KmsgList.pending, List.filter_eq_nil_iff]
  intro slot hslot hused
  exact hfree rfl slot hslot (by simpa using hused)

/-- The thread ends after `quit` is set only. -/
def Looping (s : Log) : Prop := s.kbuf = .ended → s.quit = true

theorem guards_looping : Guards Log.step Looping Looping fun _ _ => True where
  keep := by
    intro s e t h _ hstep
    cases e with
    | hook p =>
      obtain rfl | ⟨kernel, -, rfl⟩ := step_hook hstep
      · exact h
      · exact h
    | setReady | freeClient =>
      cases hstep
      exact h
    | setMsgSock sock =>
      obtain ⟨_, -, rfl⟩ := Option.map_eq_some_iff.mp hstep
      exact h
    | setQuit =>
      cases hstep
      exact fun _ => rfl
    | kbuf accepts =>
      cases kbufStep_cases hstep with
      | stop hkbuf hquit => exact fun _ => hquit
      | loop | delay | enter | iterate | leave | send | drop | sent | done => simp [Looping]
  good h := h

theorem not_ended {es : List LogEvent} (h : run Log.step Log.start es = some s)
    (hquit : s.quit = false) : s.kbuf ≠ .ended := by
  intro hended
  have hloop : Looping s :=
    guards_looping.invariant (by simp [Looping, Log.start]) h fun _ _ _ _ _ => trivial
  rw [hloop hended] at hquit
  cases hquit

/-- From every state with a client and without `quit`, steps of `thread_kbuf` alone send to this
client every message that is neither sent nor dropped, and drop none. -/
theorem log_drains {es : List LogEvent} (h : run Log.step Log.start es = some s)
    (hquit : s.quit = false) (hclient : s.client = some sock) (hsock : 0 ≤ sock) (accepts : Nat) :
    ∃ k t, ∃ sent : List Kp2sMsg, run Log.step s (List.replicate k (.kbuf accepts)) = some t ∧
      t.sends = s.sends ++ sent.map (sceNetSend sock · accepts) ∧ sent.Perm s.unsent ∧
      t.unsent = [] ∧ t.dropped = s.dropped := by
  have hs := accounted_of_run h
  obtain ⟨kernel, first, htest, haccepted⟩ :=
    steps_to_testing accepts hs hquit hclient hsock (not_ended h hquit)
  obtain ⟨k, hk⟩ := htest.run
  have hu := guards_accounted.invariant hs hk fun _ _ _ _ _ => trivial
  obtain ⟨kernel', second, hround, haccepted', hpending, hwait⟩ :=
    steps_round accepts hu rfl hclient hsock
  obtain ⟨l, hl⟩ := (htest.trans hround).run
  have ht := guards_accounted.invariant hs hl fun _ _ _ _ _ => trivial
  have hnone : Log.unsent (Log.drained (s.drained sock accepts .testing kernel first) sock accepts
      .idle kernel' second) = [] := by
    simp only [Log.unsent, Log.drained, Kbuf.inHand, hwait, hpending, Option.elim, List.append_nil]
  refine ⟨l, _, first ++ second, hl, ?_, ?_, hnone, rfl⟩
  · simp only [Log.drained, List.map_append, List.append_assoc]
  · have hall : (s.sends.map Sent.msg ++ s.dropped ++ s.unsent).Perm
        (s.sends.map Sent.msg ++ (first ++ second) ++ s.dropped) := by
      have hafter := ht.all
      rw [Log.all_eq, hnone, List.append_nil] at hafter
      rw [← Log.all_eq]
      refine hs.all.trans (List.Perm.trans ?_ (hafter.symm.trans ?_))
      · exact .of_eq (by simp [Log.drained, haccepted, haccepted'])
      · exact .of_eq (by simp [Log.drained, sceNetSend, Function.comp_def])
    rw [List.append_assoc, List.append_assoc, List.perm_append_left_iff] at hall
    have hmove := hall.trans List.perm_append_comm
    rw [List.perm_append_left_iff] at hmove
    exact hmove.symm

/-- A message that has waited for its client. -/
def waiting : List LogEvent := [.setReady true, .hook ⟨2, ascii "ab"⟩, .setMsgSock 5]

theorem log_drains_waiting : ∃ s k t, ∃ sent : List Kp2sMsg,
    run Log.step Log.start waiting = some s ∧
    run Log.step s (List.replicate k (.kbuf 256)) = some t ∧
    t.sends = sent.map (sceNetSend 5 · 256) ∧ sent.Perm [(Post.mk 2 (ascii "ab")).record] ∧
    t.unsent = [] ∧ t.dropped = [] := by
  have h : (run Log.step Log.start waiting).map (fun s =>
      (s.quit, s.client, s.unsent, s.sends.length, s.dropped)) =
        some (false, some 5, [(Post.mk 2 (ascii "ab")).record], 0, []) := by
    decide +kernel
  obtain ⟨s, hs, heq⟩ := Option.map_eq_some_iff.mp h
  simp only [Prod.mk.injEq] at heq
  obtain ⟨hquit, hclient, hunsent, hnone, hdropped⟩ := heq
  obtain ⟨k, t, sent, ht, hsends, hsent, hleft, hkept⟩ :=
    log_drains hs hquit hclient (by decide) 256
  rw [List.eq_nil_of_length_eq_zero hnone, List.nil_append] at hsends
  exact ⟨s, k, t, sent, hs, ht, hsends, hunsent ▸ hsent, hleft, hkept.trans hdropped⟩

end Psp2Shell.Kernel
