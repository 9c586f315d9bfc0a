import Psp2Shell.CLib.Runs
import Psp2Shell.Kernel.Model

/-! With every call executed as a whole, the message list is a queue of at most `MSG_MAX` messages.
The slots in use always come first, in the order in which their messages arrived. -/

namespace Psp2Shell.Kernel

open CLib

/-- A call that is executed as a whole. -/
inductive Call
  | add (p : Post)
  | waitBuffer

/-- The list, the calls of `kp2s_add_msg` that have found a free slot, and what the drains have
returned, one after the other. -/
structure Queue where
  list : KmsgList
  accepted : List Post
  returned : List Kp2sMsg

def Queue.start : Queue := ⟨.empty, [], []⟩

/-- `none` when `strncpy` would be called with a negative length. -/
def Queue.step (s : Queue) : Call → Option Queue
  | .add p =>
    if p.len < 0 then none
    else
      match kp2sAddMsg p s.list with
      | none => some s
      | some list => some { s with list, accepted := s.accepted ++ [p] }
  | .waitBuffer =>
    some { s with
      list := (kpsp2shellWaitBuffer s.list).1
      returned := s.returned ++ (kpsp2shellWaitBuffer s.list).2.records }

def Call.Positive : Call → Prop
  | .add p => 0 < p.len
  | .waitBuffer => True

/-- What the calls do to a queue of at most `MSG_MAX` messages. -/
def fifoStep (q : Fifo Post msgMax) : Call → Fifo Post msgMax
  | .add p => q.add p
  | .waitBuffer => q.drain

/-- The first `min(len, P2S_MSG_LEN)` bytes of the text, up to its NUL. -/
def Post.text (p : Post) : List Byte :=
  (p.msg.takeWhile (· ≠ 0)).take (min p.len p2sMsgLen).toNat

/-- A record with the length and the text of a call. -/
structure Carries (r : Kp2sMsg) (p : Post) : Prop where
  len : r.len = min p.len p2sMsgLen
  text : r.msg.bytes = p.text ++ List.replicate (p2sMsgLen - p.text.length) 0

/-- The list and its histories stand for the queue `q`: it has accepted the same calls, and what it
has returned and what is pending are the records of theirs.  A call is refused exactly when the list
is full, and a drain fills the caller's array from its start and not past `MSG_MAX`. -/
structure Stands (s : Queue) (q : Fifo Post msgMax) : Prop where
  accepted : s.accepted = q.accepted
  returned : List.Forall₂ Carries s.returned q.returned
  pending : List.Forall₂ Carries s.list.pending q.pending
  order : List.Forall₂ Carries (s.returned ++ s.list.pending) s.accepted
  refused : ∀ p, kp2sAddMsg p s.list = none ↔ s.list.pending.length = msgMax
  drained : (kpsp2shellWaitBuffer s.list).2.msgList.map Prod.fst =
    List.range (kpsp2shellWaitBuffer s.list).2.count
  bounded : (kpsp2shellWaitBuffer s.list).2.count ≤ msgMax

/-! ### Records -/

theorem min_eq_newLen (p : Post) :
    (if p.len > p2sMsgLen then (p2sMsgLen : Int) else p.len) = min p.len p2sMsgLen := by
  split <;> omega

theorem strncpy_eq_pad (s : List Byte) (n : Nat) :
    strncpy s n = s.take n ++ List.replicate (n - (s.take n).length) 0 := by
  rw [strncpy, List.length_take]
  congr 2
  omega

theorem carries_record (p : Post) : Carries p.record p := by
  have hle : (min p.len p2sMsgLen).toNat ≤ p2sMsgLen := by omega
  refine ⟨min_eq_newLen p, ?_⟩
  simp only [Post.record, min_eq_newLen]
  rw [Buffer.zero_blit _ (by simp [strncpy]; omega), strncpy_eq_pad]
  rw [← Post.text, List.append_assoc, List.replicate_append_replicate]
  congr 2
  have hlen : p.text.length ≤ (min p.len p2sMsgLen).toNat := List.length_take_le _ _
  simp only [List.length_append, List.length_replicate]
  omega

/-! ### A drain -/

/-- A drain after `n` iterations: the slots behind it are free, what they held has been copied, one
record after the other, and the slots ahead are as they were. -/
structure Emptied (list : KmsgList) (n : Nat) (s : KmsgList × Wait) : Prop where
  i : s.2.i = n
  index : s.2.msgList.map Prod.fst = List.range s.2.count
  records : s.2.records = (list.slots.take n).filter Kp2sMsg.Used
  behind : ∀ slot ∈ s.1.slots.take n, ¬slot.Used
  ahead : s.1.slots.drop n = list.slots.drop n

theorem emptied_enter (list : KmsgList) : Emptied list 0 (list, Wait.enter) :=
  ⟨rfl, rfl, rfl, by simp, rfl⟩

theorem Emptied.iteration {list : KmsgList} {n : Nat} {s : KmsgList × Wait}
    (h : Emptied list n s) (hn : n < msgMax) :
    Emptied list (n + 1) (waitIteration s.1 s.2) := by
  obtain ⟨after, w⟩ := s
  obtain ⟨rfl, hindex, hrecords, hbehind, hahead⟩ := h
  simp only at hindex hrecords hbehind hahead hn ⊢
  obtain ⟨slot, hslots, hcases⟩ := waitIteration_cases after hn
  have htake : (after.slots.take w.i).length = w.i := by
    rw [List.length_take, after.size_eq]
    omega
  have hdrop : list.slots.drop w.i = slot :: after.slots.drop (w.i + 1) := by
    rw [← hahead]
    conv_lhs => rw [hslots]
    rw [List.drop_left' htake]
  have hlist : list.slots.take (w.i + 1) = list.slots.take w.i ++ [slot] := by
    rw [List.take_add, hdrop]
    rfl
  have hrest : list.slots.drop (w.i + 1) = after.slots.drop (w.i + 1) := by
    rw [← List.drop_drop, hdrop]
    rfl
  rcases hcases with ⟨hused, heq⟩ | ⟨hfree, heq⟩
  · rw [heq]
    have hset := set_slots (m := { slot with len := 0 }) hslots hn
    refine ⟨rfl, ?_, ?_, ?_, ?_⟩
    · simp [hindex, List.range_succ]
    · simp only [Wait.records] at hrecords ⊢
      rw [List.map_append, hrecords, hlist, List.filter_append]
      simp [hused]
    · rw [hset, List.append_cons, List.take_left' (by simp [htake])]
      intro m hm
      rcases List.mem_append.mp hm with hm | hm
      · exact hbehind m hm
      · rw [List.mem_singleton.mp hm]
        exact cleared_free slot
    · rw [hset, List.append_cons, List.drop_left' (by simp [htake]), hrest]
  · rw [heq]
    refine ⟨rfl, hindex, ?_, ?_, hrest.symm⟩
    · simp only [Wait.records] at hrecords ⊢
      rw [hrecords, hlist, List.filter_append]
      simp [hfree]
    · rw [hslots, List.append_cons, List.take_left' (by simp [htake])]
      intro m hm
      rcases List.mem_append.mp hm with hm | hm
      · exact hbehind m hm
      · rwa [List.mem_singleton.mp hm]

theorem emptied_iterate (list : KmsgList) {n : Nat} (hn : n ≤ msgMax) :
    Emptied list n ((fun s => waitIteration s.1 s.2)^[n] (list, Wait.enter)) := by
  induction n with
  | zero => exact emptied_enter list
  | succ n ih =>
    rw [Function.iterate_succ_apply']
    exact (ih (by omega)).iteration hn

/-- A drain returns what is pending, in order, and leaves every slot free. -/
theorem kpsp2shellWaitBuffer_spec (list : KmsgList) :
    Emptied list msgMax (kpsp2shellWaitBuffer list) :=
  emptied_iterate list le_rfl

theorem wait_records (list : KmsgList) : (kpsp2shellWaitBuffer list).2.records = list.pending := by
  rw [(kpsp2shellWaitBuffer_spec list).records, List.take_of_length_le list.size_eq.le]
  rfl

theorem wait_free (list : KmsgList) : ∀ slot ∈ (kpsp2shellWaitBuffer list).1.slots, ¬slot.Used := by
  have h := (kpsp2shellWaitBuffer_spec list).behind
  rwa [List.take_of_length_le (kpsp2shellWaitBuffer list).1.size_eq.le] at h

theorem pending_length_le (list : KmsgList) : list.pending.length ≤ msgMax :=
  (List.length_filter_le _ _).trans list.size_eq.le

theorem wait_count_le (list : KmsgList) : (kpsp2shellWaitBuffer list).2.count ≤ msgMax := by
  have hindex := congrArg List.length (kpsp2shellWaitBuffer_spec list).index
  have hrecords := congrArg List.length (wait_records list)
  simp only [List.length_map, List.length_range, Wait.records] at hindex hrecords
  rw [← hindex, hrecords]
  exact pending_length_le list

theorem refused_iff (p : Post) (list : KmsgList) :
    kp2sAddMsg p list = none ↔ list.pending.length = msgMax := by
  rw [kp2sAddMsg_eq_none, ← list.size_eq, KmsgList.pending, filter_length_eq]

/-! ### Runs -/

/-- The list, with its slots in use first, and the queue that it stands for. -/
structure Refines (s : Queue) (q : Fifo Post msgMax) : Prop where
  packed : Packed Kp2sMsg.Used s.list.slots
  accepted : s.accepted = q.accepted
  returned : s.returned = q.returned.map Post.record
  pending : s.list.pending = q.pending.map Post.record

theorem refines_start : Refines Queue.start Fifo.empty := by
  have hfree : ∀ slot ∈ Queue.start.list.slots, ¬slot.Used := by
    intro slot hslot
    rw [List.eq_of_mem_replicate hslot]
    exact lt_irrefl _
  refine ⟨packed_of_free hfree, rfl, rfl, ?_⟩
  exact List.filter_eq_nil_iff.mpr fun slot hslot hused => hfree slot hslot (by simpa using hused)

theorem Refines.add {s : Queue} {q : Fifo Post msgMax} (h : Refines s q) {p : Post}
    (hp : 0 < p.len) : ∃ t, s.step (.add p) = some t ∧ Refines t (q.add p) := by
  have hlen : q.pending.length = s.list.pending.length := by rw [h.pending, List.length_map]
  cases hadd : kp2sAddMsg p s.list with
  | none =>
    have hfull := (refused_iff p s.list).mp hadd
    refine ⟨s, by simp [Queue.step, hadd, not_lt.mpr hp.le], ?_⟩
    rwa [Fifo.add_of_full (hlen.trans hfull)]
  | some list =>
    have hroom : q.pending.length < msgMax := by
      have hne : ¬s.list.pending.length = msgMax := by simp [← refused_iff p, hadd]
      have := pending_length_le s.list
      omega
    obtain ⟨haccepted, hreturned, hpending⟩ := Fifo.add_of_lt hroom p
    have hplace := kp2sAddMsg_eq_some.mp hadd
    refine ⟨{ s with list, accepted := s.accepted ++ [p] },
      by simp [Queue.step, hadd, not_lt.mpr hp.le], h.packed.place hplace, ?_, ?_, ?_⟩
    · rw [haccepted, ← h.accepted]
    · rw [hreturned, ← h.returned]
    · rw [hpending, List.map_append, ← h.pending]
      exact h.packed.filter_place (used_record.mpr hp) hplace

theorem step_waitBuffer (s : Queue) :
    ∃ list, s.step .waitBuffer = some { s with list, returned := s.returned ++ s.list.pending } ∧
      ∀ slot ∈ list.slots, ¬slot.Used := by
  refine ⟨(kpsp2shellWaitBuffer s.list).1, ?_, wait_free s.list⟩
  rw [Queue.step, wait_records]

theorem Refines.drain {s : Queue} {q : Fifo Post msgMax} (h : Refines s q) :
    ∃ t, s.step .waitBuffer = some t ∧ Refines t q.drain := by
  obtain ⟨list, hstep, hfree⟩ := step_waitBuffer s
  refine ⟨_, hstep, packed_of_free hfree, h.accepted, ?_, ?_⟩
  · rw [h.returned, h.pending, ← List.map_append]
    rfl
  · refine List.filter_eq_nil_iff.mpr fun slot hslot hused => ?_
    exact hfree slot hslot (by simpa using hused)

theorem Refines.step {s : Queue} {q : Fifo Post msgMax} (h : Refines s q) {e : Call}
    (he : e.Positive) : ∃ t, s.step e = some t ∧ Refines t (fifoStep q e) := by
  cases e with
  | add p => exact h.add he
  | waitBuffer => exact h.drain

theorem Refines.run {s : Queue} {q : Fifo Post msgMax} (h : Refines s q) {es : List Call}
    (hes : ∀ e ∈ es, e.Positive) :
    ∃ t, run Queue.step s es = some t ∧ Refines t (es.foldl fifoStep q) := by
  induction es generalizing s q with
  | nil => exact ⟨s, rfl, h⟩
  | cons e es ih =>
    obtain ⟨he, hes⟩ := List.forall_mem_cons.mp hes
    obtain ⟨t, hstep, ht⟩ := h.step he
    obtain ⟨u, hu, href⟩ := ih ht hes
    exact ⟨u, (run_cons hstep es).trans hu, href⟩

theorem forall₂_map_record (ps : List Post) : List.Forall₂ Carries (ps.map Post.record) ps := by
  induction ps with
  | nil => exact .nil
  | cons p ps ih => exact .cons (carries_record p) ih

theorem Refines.stands {s : Queue} {q : Fifo Post msgMax} (h : Refines s q) : Stands s q where
  accepted := h.accepted
  returned := h.returned ▸ forall₂_map_record q.returned
  pending := h.pending ▸ forall₂_map_record q.pending
  order := by
    rw [h.returned, h.pending, ← List.map_append, q.order, h.accepted]
    exact forall₂_map_record q.accepted
  refused p := refused_iff p s.list
  drained := (kpsp2shellWaitBuffer_spec s.list).index
  bounded := wait_count_le s.list

/-- From the empty list on, calls with positive lengths keep the list standing for the queue that
takes the same calls. -/
theorem queue_refines_fifo (es : List Call) (h : ∀ e ∈ es, e.Positive) :
    ∃ s, run Queue.step Queue.start es = some s ∧ Stands s (es.foldl fifoStep Fifo.empty) := by
  obtain ⟨s, hrun, hs⟩ := refines_start.run h
  exact ⟨s, hrun, hs.stands⟩

/-- Two messages, of which the second is longer than its text, and a drain between them. -/
theorem queue_refines_two : ∃ s, run Queue.step Queue.start
    [.add ⟨2, ascii "ab"⟩, .waitBuffer, .add ⟨300, ascii "cd\x00e"⟩] = some s ∧
    Stands s ([.add ⟨2, ascii "ab"⟩, .waitBuffer, .add ⟨300, ascii "cd\x00e"⟩].foldl fifoStep
      Fifo.empty) :=
  queue_refines_fifo _ (by simp [Call.Positive])

end Psp2Shell.Kernel
