import Psp2Shell.CLib.Buffer
import Psp2Shell.CLib.SlotQueue

/-! The message list of the kernel module, `psp2shell_k/main.c`: the hooks of the debug print and of
the standard output add to it with `kp2s_add_msg`, and the user module takes from it with
`kpsp2shell_wait_buffer`. -/

namespace Psp2Shell.Kernel

open CLib

def p2sMsgLen : Nat := 256

def msgMax : Nat := 64

/-- `kp2s_msg`. -/
structure Kp2sMsg where
  msg : Buffer p2sMsgLen
  len : Int
deriving DecidableEq

/-- A slot holds a message while its length is positive. -/
def Kp2sMsg.Used (m : Kp2sMsg) : Prop := 0 < m.len

instance : DecidablePred Kp2sMsg.Used := fun m => inferInstanceAs (Decidable (0 < m.len))

/-- `kmsg_list`. -/
structure KmsgList where
  slots : List Kp2sMsg
  size_eq : slots.length = msgMax

/-- The list as the module starts with it. -/
def KmsgList.empty : KmsgList where
  slots := List.replicate msgMax ⟨Buffer.zero p2sMsgLen, 0⟩
  size_eq := List.length_replicate

/-- `kmsg_list[i] = m`. -/
def KmsgList.set (list : KmsgList) (i : Nat) (m : Kp2sMsg) : KmsgList where
  slots := list.slots.set i m
  size_eq := by rw [List.length_set, list.size_eq]

/-- The messages that wait in the list, by the number of their slot. -/
def KmsgList.pending (list : KmsgList) : List Kp2sMsg := list.slots.filter Kp2sMsg.Used

/-! ### Adding -/

/-- The arguments of a call of `kp2s_add_msg`: a length, and the bytes from the pointer on. -/
structure Post where
  len : Int
  msg : List Byte
deriving DecidableEq

/-- What `memset`, `strncpy` and the assignment of `len` leave in a slot, for a length that is not
negative: `strncpy` takes a negative one for a size beyond every slot. -/
def Post.record (p : Post) : Kp2sMsg :=
  let newLen := if p.len > p2sMsgLen then (p2sMsgLen : Int) else p.len
  ⟨(Buffer.zero p2sMsgLen).blit 0 (strncpy (p.msg.takeWhile (· ≠ 0)) newLen.toNat), newLen⟩

/-- `kp2s_add_msg`: `none` when every slot is in use, and then the list stays as it is. -/
def kp2sAddMsg (p : Post) (list : KmsgList) : Option KmsgList :=
  match h : place Kp2sMsg.Used p.record list.slots with
  | none => none
  | some slots => some ⟨slots, (place_length h).trans list.size_eq⟩

/-! ### Draining -/

/-- The locals of `kpsp2shell_wait_buffer`, and the copies that it has made to the caller's array,
each with its index there. -/
structure Wait where
  i : Nat
  count : Nat
  msgList : List (Nat × Kp2sMsg)

def Wait.enter : Wait := ⟨0, 0, []⟩

/-- The records that the caller gets. -/
def Wait.records (w : Wait) : List Kp2sMsg := w.msgList.map Prod.snd

/-- An iteration of the loop of `kpsp2shell_wait_buffer`. -/
def waitIteration (list : KmsgList) (w : Wait) : KmsgList × Wait :=
  match list.slots[w.i]? with
  | none => (list, w)
  | some slot =>
    if slot.len > 0 then
      (list.set w.i { slot with len := 0 },
        ⟨w.i + 1, w.count + 1, w.msgList ++ [(w.count, slot)]⟩)
    else (list, { w with i := w.i + 1 })

/-- `kpsp2shell_wait_buffer`. -/
def kpsp2shellWaitBuffer (list : KmsgList) : KmsgList × Wait :=
  (fun s => waitIteration s.1 s.2)^[msgMax] (list, Wait.enter)

/-! ### What the operations do -/

theorem kp2sAddMsg_eq_none {p : Post} {list : KmsgList} :
    kp2sAddMsg p list = none ↔ ∀ slot ∈ list.slots, slot.Used := by
  rw [← place_eq_none (x := p.record)]
  unfold kp2sAddMsg
  split <;> simp [*]

theorem kp2sAddMsg_eq_some {p : Post} {list after : KmsgList} :
    kp2sAddMsg p list = some after ↔ place Kp2sMsg.Used p.record list.slots = some after.slots := by
  obtain ⟨slots, hsize⟩ := after
  unfold kp2sAddMsg
  split <;> simp [*]

theorem used_record {p : Post} : p.record.Used ↔ 0 < p.len := by
  unfold Kp2sMsg.Used Post.record
  by_cases h : p.len > p2sMsgLen
  · have hpos : (0 : Int) < p2sMsgLen := by decide
    simp only [h, if_true]
    exact iff_of_true hpos (hpos.trans h)
  · simp only [h, if_false]

/-- An iteration reaches the slot at `i`, and hands it out when it is in use. -/
theorem waitIteration_cases (list : KmsgList) {w : Wait} (h : w.i < msgMax) :
    ∃ slot, list.slots = list.slots.take w.i ++ slot :: list.slots.drop (w.i + 1) ∧
      (slot.Used ∧ waitIteration list w = (list.set w.i { slot with len := 0 },
          ⟨w.i + 1, w.count + 1, w.msgList ++ [(w.count, slot)]⟩) ∨
        ¬slot.Used ∧ waitIteration list w = (list, { w with i := w.i + 1 })) := by
  have hi : w.i < list.slots.length := by rw [list.size_eq]; exact h
  refine ⟨list.slots[w.i], ?_, ?_⟩
  · rw [List.getElem_cons_drop, List.take_append_drop]
  · unfold waitIteration
    rw [List.getElem?_eq_getElem hi]
    by_cases hu : list.slots[w.i].Used
    · exact Or.inl ⟨hu, if_pos hu⟩
    · exact Or.inr ⟨hu, if_neg hu⟩

theorem set_slots {list : KmsgList} {i : Nat} {slot m : Kp2sMsg} {back : List Kp2sMsg}
    (h : list.slots = list.slots.take i ++ slot :: back) (hi : i < msgMax) :
    (list.set i m).slots = list.slots.take i ++ m :: back := by
  have htake : (list.slots.take i).length = i := by
    rw [List.length_take, list.size_eq]
    omega
  calc list.slots.set i m = (list.slots.take i ++ slot :: back).set i m := congrArg (·.set i m) h
    _ = list.slots.take i ++ m :: back := by simp [htake]

theorem cleared_free (m : Kp2sMsg) : ¬Kp2sMsg.Used { m with len := 0 } := by
  simp [Kp2sMsg.Used]

end Psp2Shell.Kernel
