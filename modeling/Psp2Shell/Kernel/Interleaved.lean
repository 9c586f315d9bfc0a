import Psp2Shell.CLib.Runs
import Psp2Shell.Kernel.Model

/-! Calls of `kp2s_add_msg` between the iterations of a drain.  A message that takes a
slot behind the scan waits for the next drain, and one that then takes a slot ahead of it
is handed out before. -/

namespace Psp2Shell.Kernel

open CLib

inductive Event
  /-- A whole call of `kp2s_add_msg`. -/
  | add (p : Post)
  /-- `kpsp2shell_wait_buffer` starts its loop. -/
  | enter
  /-- An iteration of the loop. -/
  | iterate
  /-- `kpsp2shell_wait_buffer` returns to user space. -/
  | leave
deriving DecidableEq

/-- The list, the drain that is going on, the calls of `kp2s_add_msg` that have stored a message,
and what the drains that have ended have returned. -/
structure Module where
  list : KmsgList
  wait : Option Wait
  accepted : List Post
  returned : List Kp2sMsg

def Module.start : Module := ⟨.empty, none, [], []⟩

/-- `none` when the event cannot happen, or `strncpy` would be called with a negative length. -/
def Module.step (s : Module) : Event → Option Module
  | .add p =>
    if p.len < 0 then none
    else
      match kp2sAddMsg p s.list with
      | none => some s
      | some list =>
        some { s with list, accepted := if p.len > 0 then s.accepted ++ [p] else s.accepted }
  | .enter =>
    match s.wait with
    | none => some { s with wait := some Wait.enter }
    | some _ => none
  | .iterate =>
    match s.wait with
    | none => none
    | some w =>
      if w.i < msgMax then
        some { s with list := (waitIteration s.list w).1, wait := some (waitIteration s.list w).2 }
      else none
  | .leave =>
    match s.wait with
    | none => none
    | some w =>
      if w.i < msgMax then none
      else some { s with wait := none, returned := s.returned ++ w.records }

/-- The slot that the scan is at, the first one when no drain is going on. -/
def Module.position (s : Module) : Nat := s.wait.elim 0 Wait.i

/-- The messages that have been copied to user space, in the order of the copies. -/
def Module.handed (s : Module) : List Kp2sMsg := s.returned ++ s.wait.elim [] Wait.records

/-- The slots in use, in the order in which the scan comes to them. -/
def Module.coming (s : Module) : List Kp2sMsg :=
  (s.list.slots.drop s.position).filter Kp2sMsg.Used ++
    (s.list.slots.take s.position).filter Kp2sMsg.Used

/-- What has been handed out, and then what is still to come, is what was added, in the order of the
calls. -/
def InOrder (s : Module) : Prop := s.handed ++ s.coming = s.accepted.map Post.record

/-- An added message does not pass those behind the scan: there are none, or one of the slots behind
the scan is free, or none ahead of it is. -/
def Admissible (s : Module) : Event → Prop
  | .add p => 0 < p.len → s.position = 0 ∨
      (∃ slot ∈ s.list.slots.take s.position, ¬slot.Used) ∨
      ∀ slot ∈ s.list.slots.drop s.position, slot.Used
  | _ => True

instance (s : Module) : DecidablePred (Admissible s)
  | .add p => inferInstanceAs (Decidable (0 < p.len → s.position = 0 ∨
      (∃ slot ∈ s.list.slots.take s.position, ¬slot.Used) ∨
      ∀ slot ∈ s.list.slots.drop s.position, slot.Used))
  | .enter | .iterate | .leave => inferInstanceAs (Decidable True)

/-- The slots in use come first both behind the scan and ahead of it. -/
structure Scanning (s : Module) : Prop where
  bound : s.position ≤ msgMax
  behind : Packed Kp2sMsg.Used (s.list.slots.take s.position)
  ahead : Packed Kp2sMsg.Used (s.list.slots.drop s.position)
  order : InOrder s

/-! ### Adding -/

/-- What a call that finds a free slot does to the two stretches of slots. -/
theorem add_slots {p : Post} {list after : KmsgList} (h : kp2sAddMsg p list = some after)
    {i : Nat} (hi : i ≤ msgMax) :
    place Kp2sMsg.Used p.record (list.slots.take i) = some (after.slots.take i) ∧
        after.slots.drop i = list.slots.drop i ∨
      (∀ slot ∈ list.slots.take i, slot.Used) ∧ after.slots.take i = list.slots.take i ∧
        place Kp2sMsg.Used p.record (list.slots.drop i) = some (after.slots.drop i) := by
  have hplace := kp2sAddMsg_eq_some.mp h
  have hlen : (list.slots.take i).length = i := by
    rw [List.length_take, list.size_eq]
    omega
  rw [← List.take_append_drop i list.slots, place_append] at hplace
  cases hfront : place Kp2sMsg.Used p.record (list.slots.take i) with
  | some front =>
    simp only [hfront, Option.some.injEq] at hplace
    have hfrontlen : front.length = i := (place_length hfront).trans hlen
    left
    rw [← hplace, List.take_left' hfrontlen, List.drop_left' hfrontlen]
    exact ⟨rfl, rfl⟩
  | none =>
    simp only [hfront, Option.map_eq_some_iff] at hplace
    obtain ⟨back, hback, hafter⟩ := hplace
    right
    rw [← hafter, List.take_left' hlen, List.drop_left' hlen]
    exact ⟨place_eq_none.mp hfront, rfl, hback⟩

theorem step_add {s t : Module} {p : Post} (hstep : s.step (.add p) = some t) :
    kp2sAddMsg p s.list = none ∧ t = s ∨
      ∃ list, kp2sAddMsg p s.list = some list ∧
        t = { s with list, accepted := if p.len > 0 then s.accepted ++ [p] else s.accepted } := by
  simp only [Module.step] at hstep
  split at hstep
  · cases hstep
  · cases hadd : kp2sAddMsg p s.list with
    | none => exact Or.inl ⟨rfl, by simpa [hadd] using hstep.symm⟩
    | some list => exact Or.inr ⟨list, rfl, by simpa [hadd] using hstep.symm⟩

/-- A message that is stored while it may be comes after all others. -/
theorem coming_add {s : Module} {p : Post} {list : KmsgList} (h : Scanning s)
    (hc : Admissible s (.add p)) (hadd : kp2sAddMsg p s.list = some list) :
    ({ s with list } : Module).coming =
      s.coming ++ if 0 < p.len then [p.record] else [] := by
  simp only [Module.coming, Module.position]
  rcases add_slots hadd h.bound with ⟨hfront, hdrop⟩ | ⟨hused, htake, hback⟩
  · simp only [Module.position] at hdrop hfront
    rw [hdrop]
    by_cases hpos : 0 < p.len
    · rw [h.behind.filter_place (used_record.mpr hpos) hfront, if_pos hpos, List.append_assoc]
      rfl
    · rw [filter_place_of_free (used_record.not.mpr hpos) hfront, if_neg hpos, List.append_nil]
  · simp only [Module.position] at htake hback
    rw [htake]
    by_cases hpos : 0 < p.len
    · have hnone : s.list.slots.take (s.wait.elim 0 Wait.i) = [] := by
        rcases hc hpos with hzero | ⟨slot, hslot, hfree⟩ | hfull
        · exact (congrArg s.list.slots.take hzero).trans (List.take_zero)
        · exact absurd (hused slot hslot) hfree
        · exact absurd (hback.symm.trans (place_eq_none.mpr hfull)) (by simp)
      rw [h.ahead.filter_place (used_record.mpr hpos) hback, hnone, if_pos hpos]
      simp [Module.position]
    · rw [filter_place_of_free (used_record.not.mpr hpos) hback, if_neg hpos, List.append_nil]

theorem Scanning.add {s t : Module} {p : Post} (h : Scanning s) (hc : Admissible s (.add p))
    (hstep : s.step (.add p) = some t) : Scanning t := by
  obtain ⟨-, rfl⟩ | ⟨list, hadd, rfl⟩ := step_add hstep
  · exact h
  · have hpacked : Packed Kp2sMsg.Used (list.slots.take s.position) ∧
        Packed Kp2sMsg.Used (list.slots.drop s.position) := by
      rcases add_slots hadd h.bound with ⟨hfront, hdrop⟩ | ⟨-, htake, hback⟩
      · exact ⟨h.behind.place hfront, hdrop ▸ h.ahead⟩
      · exact ⟨htake ▸ h.behind, h.ahead.place hback⟩
    refine ⟨h.bound, hpacked.1, hpacked.2, ?_⟩
    have horder : s.handed ++ s.coming = s.accepted.map Post.record := h.order
    calc s.handed ++ ({ s with list } : Module).coming
        = s.accepted.map Post.record ++ if 0 < p.len then [p.record] else [] := by
          rw [coming_add h hc hadd, ← List.append_assoc, horder]
      _ = (if p.len > 0 then s.accepted ++ [p] else s.accepted).map Post.record := by
          split <;> simp

/-! ### Draining -/

theorem step_iterate {s t : Module} (hstep : s.step .iterate = some t) :
    ∃ w, s.wait = some w ∧ w.i < msgMax ∧
      t = { s with
        list := (waitIteration s.list w).1
        wait := some (waitIteration s.list w).2 } := by
  cases hw : s.wait with
  | none => simp [Module.step, hw] at hstep
  | some w =>
    simp only [Module.step, hw] at hstep
    split at hstep
    · exact ⟨w, rfl, ‹_›, by simpa using hstep.symm⟩
    · cases hstep

theorem Scanning.iterate {s t : Module} (h : Scanning s) (hstep : s.step .iterate = some t) :
    Scanning t := by
  obtain ⟨w, hw, hi, rfl⟩ := step_iterate hstep
  obtain ⟨slot, hslots, hcases⟩ := waitIteration_cases s.list hi
  have hposition : s.position = w.i := by rw [Module.position, hw]; rfl
  have htake : (s.list.slots.take w.i).length = w.i := by
    rw [List.length_take, s.list.size_eq]
    omega
  have hdrop : s.list.slots.drop w.i = slot :: s.list.slots.drop (w.i + 1) := by
    conv_lhs => rw [hslots]
    rw [List.drop_left' htake]
  have hbehind := h.behind
  have hahead := h.ahead
  have horder := h.order
  rw [hposition] at hbehind hahead
  rw [hdrop] at hahead
  simp only [InOrder, Module.handed, Module.coming, hposition, hw, hdrop, Option.elim] at horder
  rcases hcases with ⟨hused, heq⟩ | ⟨hfree, heq⟩
  · have hset := set_slots (m := { slot with len := 0 }) hslots hi
    have htake' : (s.list.set w.i { slot with len := 0 }).slots.take (w.i + 1) =
        s.list.slots.take w.i ++ [{ slot with len := 0 }] := by
      rw [hset, List.append_cons, List.take_left' (by simp [htake])]
    have hdrop' : (s.list.set w.i { slot with len := 0 }).slots.drop (w.i + 1) =
        s.list.slots.drop (w.i + 1) := by
      rw [hset, List.append_cons, List.drop_left' (by simp [htake])]
    rw [heq]
    refine ⟨hi, ?_, ?_, ?_⟩
    · exact htake' ▸ hbehind.concat (cleared_free slot)
    · exact hdrop' ▸ hahead.tail
    · simp only [InOrder, Module.handed, Module.coming, Module.position,
        Option.elim, htake', hdrop']
      rw [← horder]
      simp [Wait.records, hused, cleared_free]
  · have htake' : s.list.slots.take (w.i + 1) = s.list.slots.take w.i ++ [slot] := by
      rw [List.take_add, hdrop]
      rfl
    rw [heq]
    refine ⟨hi, ?_, hahead.tail, ?_⟩
    · exact htake' ▸ hbehind.concat hfree
    · simp only [InOrder, Module.handed, Module.coming, Module.position, Option.elim, htake']
      rw [← horder]
      simp [Wait.records, hfree]

theorem Scanning.enter {s t : Module} (h : Scanning s) (hstep : s.step .enter = some t) :
    Scanning t := by
  cases hw : s.wait with
  | some w => simp [Module.step, hw] at hstep
  | none =>
    simp only [Module.step, hw, Option.some.injEq] at hstep
    have hposition : s.position = 0 := by rw [Module.position, hw]; rfl
    obtain ⟨-, hbehind, hahead, horder⟩ := h
    rw [hposition] at hbehind hahead
    simp only [InOrder, Module.handed, Module.coming, hposition, hw, Option.elim] at horder
    rw [← hstep]
    exact ⟨Nat.zero_le _, hbehind, hahead, horder⟩

theorem Scanning.leave {s t : Module} (h : Scanning s) (hstep : s.step .leave = some t) :
    Scanning t := by
  cases hw : s.wait with
  | none => simp [Module.step, hw] at hstep
  | some w =>
    simp only [Module.step, hw] at hstep
    split at hstep
    · cases hstep
    · rename_i hi
      have hposition : s.position = w.i := by rw [Module.position, hw]; rfl
      obtain ⟨-, hbehind, hahead, horder⟩ := h
      have hsize : s.list.slots.length ≤ w.i := by rw [s.list.size_eq]; omega
      rw [hposition, List.take_of_length_le hsize] at hbehind
      simp only [InOrder, Module.handed, Module.coming, hposition, hw, Option.elim,
        List.take_of_length_le hsize, List.drop_of_length_le hsize] at horder
      rw [Option.some.injEq] at hstep
      rw [← hstep]
      refine ⟨Nat.zero_le _, packed_nil, hbehind, ?_⟩
      simpa [InOrder, Module.handed, Module.coming, Module.position] using horder

/-! ### Runs -/

theorem scanning_start : Scanning Module.start := by
  have hfree : ∀ slot ∈ Module.start.list.slots, ¬slot.Used := by
    intro slot hslot
    rw [List.eq_of_mem_replicate hslot]
    exact lt_irrefl _
  refine ⟨Nat.zero_le _, packed_nil, packed_of_free hfree, ?_⟩
  have hnone : Module.start.list.slots.filter Kp2sMsg.Used = [] :=
    List.filter_eq_nil_iff.mpr fun slot hslot hused => hfree slot hslot (by simpa using hused)
  show Module.start.list.slots.filter Kp2sMsg.Used ++ [] = []
  rw [hnone, List.append_nil]

theorem guards_order : Guards Module.step Scanning InOrder Admissible where
  keep := by
    intro s e t h hc hstep
    cases e with
    | add p => exact h.add hc hstep
    | enter => exact h.enter hstep
    | iterate => exact h.iterate hstep
    | leave => exact h.leave hstep
  good := Scanning.order

/-- In every run whose additions do not pass a message behind the scan, the messages come out in the
order in which they were added. -/
theorem messages_in_order {es : List Event} (h : EachStep Module.step Admissible Module.start es) :
    Always Module.step InOrder Module.start es :=
  guards_order.always scanning_start h

/-- A message that is added behind the scan, and one ahead of it once the list has been drained. -/
theorem messages_in_order_two : Always Module.step InOrder Module.start
    [.add ⟨1, ascii "a"⟩, .enter, .iterate, .add ⟨2, ascii "bc"⟩, .iterate] :=
  messages_in_order (by decide +kernel)

theorem not_inOrder {s : Module} {handed added : List Int}
    (hhanded : s.returned.map Kp2sMsg.len = handed)
    (hadded : s.accepted.map (fun p => p.record.len) = added) (h : ¬handed <+: added) :
    ¬InOrder s := by
  intro hin
  apply h
  rw [← hhanded, ← hadded]
  refine ⟨(s.wait.elim [] Wait.records ++ s.coming).map Kp2sMsg.len, ?_⟩
  rw [← List.map_append, ← List.append_assoc]
  exact (congrArg (List.map Kp2sMsg.len) hin).trans List.map_map

/-- Two messages wait; when the first has been handed out, a third takes its slot and a fourth the
slot behind the second, which the same drain hands out before the third. -/
def overtaking : List Event :=
  [.add ⟨1, ascii "a"⟩, .add ⟨2, ascii "bb"⟩, .enter, .iterate, .add ⟨3, ascii "ccc"⟩,
    .add ⟨4, ascii "dddd"⟩] ++ List.replicate 63 Event.iterate ++ [Event.leave, Event.enter] ++
    List.replicate 64 Event.iterate ++ [Event.leave]

theorem messages_overtake : ∃ t, run Module.step Module.start overtaking = some t ∧
    t.accepted.map Post.len = [1, 2, 3, 4] ∧ t.returned.map Kp2sMsg.len = [1, 2, 4, 3] ∧
    ¬InOrder t := by
  have h : (run Module.step Module.start overtaking).map (fun t =>
      (t.accepted.map Post.len, t.accepted.map (fun p => p.record.len),
        t.returned.map Kp2sMsg.len)) = some ([1, 2, 3, 4], [1, 2, 3, 4], [1, 2, 4, 3]) := by
    decide +kernel
  obtain ⟨t, ht, heq⟩ := Option.map_eq_some_iff.mp h
  simp only [Prod.mk.injEq] at heq
  exact ⟨t, ht, heq.1, heq.2.2, not_inOrder heq.2.2 heq.2.1 (by decide)⟩

end Psp2Shell.Kernel
