import Psp2Shell.CLib.Format
import Psp2Shell.Kernel.Fifo

/-! The hooks of `psp2shell_k/main.c` that fill the message list: the two debug prints, and the
write to the standard output. -/

namespace Psp2Shell.Kernel

open CLib

/-- `ksceKernelStrncpyUserToKernel(dst, src, n)`, where `dst` is a zeroed object of `n` bytes and
`src` points to the string `s`, of which at most `n` bytes are looked at. -/
structure UserStrncpy where
  copy : (n : Nat) → List Byte → Buffer n
  short : ∀ n s, s.length < n → copy n s = (Buffer.zero n).blit 0 s
  long : ∀ n s, n ≤ s.length → (copy n s).bytes.take (n - 1) = s.take (n - 1)

/-- A string that does not fit leaves no NUL, as with `strncpy`. -/
def UserStrncpy.Fills (c : UserStrncpy) : Prop :=
  ∀ n s, n ≤ s.length → (c.copy n s).bytes = s.take n

/-- What the hooks find: `ready`, `__stdout_fd`, `ref_hooks[0]` and the message list. -/
structure Hooks where
  ready : Bool
  stdoutFd : Int
  writeHook : Int
  list : KmsgList

/-- What `vsnprintf` prints of a format and its arguments, and what it returns. -/
structure Print where
  text : List Byte
  ret : Int

/-- `kp2s_add_msg`, and `none` when a negative length makes its `strncpy` store past the record. -/
def Hooks.add (s : Hooks) (p : Post) : Option Hooks :=
  match kp2sAddMsg p s.list with
  | none => some s
  | some list => if p.len < 0 then none else some { s with list }

/-- The body of the two print hooks, up to the call of what they hook. -/
def printHook (s : Hooks) (p : Print) : Option Hooks :=
  let tempBuf := (Buffer.zero p2sMsgLen).blit 0 (snprintf p2sMsgLen p.text)
  if s.ready then s.add ⟨p.ret, tempBuf.bytes⟩ else some s

def ksceDebugPrintfHook (s : Hooks) (p : Print) : Option Hooks := printHook s p

def ksceDebugPrintf2Hook (_num0 _num1 : Int) (s : Hooks) (p : Print) : Option Hooks := printHook s p

/-- `sceIoWrite_hook` for the bytes `data`, up to the call of what it hooks. -/
def sceIoWriteHook (c : UserStrncpy) (s : Hooks) (fd : Int) (data : List Byte) : Option Hooks :=
  if s.writeHook ≤ 0 then some s
  else if fd = s.stdoutFd ∧ s.ready = true ∧ data.length < p2sMsgLen then
    s.add ⟨data.length, (c.copy data.length (data.takeWhile (· ≠ 0))).bytes⟩
  else some s

/-- The record has taken the place of one that was not in use, and nothing else has changed. -/
def Queued (s t : Hooks) (r : Kp2sMsg) : Prop :=
  r.Used ∧ ∃ front slot back, s.list.slots = front ++ slot :: back ∧ ¬slot.Used ∧
    t.list.slots = front ++ r :: back ∧ t = { s with list := t.list }

/-! ### What is queued -/

variable {c : UserStrncpy} {s : Hooks}

/-- With a slot left, the record of a post is queued. -/
theorem add_queues (hroom : s.list.pending.length < msgMax) {p : Post} (hlen : 0 < p.len) :
    ∃ t, s.add p = some t ∧ Queued s t p.record := by
  have hadd : kp2sAddMsg p s.list ≠ none := (refused_iff p s.list).not.mpr hroom.ne
  obtain ⟨list, hlist⟩ := Option.ne_none_iff_exists'.mp hadd
  obtain ⟨front, slot, back, hslots, -, hfree, hafter⟩ :=
    place_eq_some (kp2sAddMsg_eq_some.mp hlist)
  refine ⟨{ s with list }, ?_, used_record.mpr hlen, front, slot, back, hslots, hfree, hafter, rfl⟩
  rw [Hooks.add, hlist]
  exact if_neg (by omega)

theorem take_record (p : Post) : p.record.msg.bytes.take p.text.length = p.text := by
  rw [(carries_record p).text, List.take_left]

theorem takeWhile_plain {t : List Byte} (ht : 0 ∉ t) (n : Nat) :
    (t ++ List.replicate n 0).takeWhile (· ≠ 0) = t := by
  rw [takeWhile_append_of_no_nul ht, List.takeWhile_replicate]
  simp

/-- A printed text is posted up to its first `P2S_MSG_LEN - 1` bytes. -/
theorem post_print {text : List Byte} (hnul : 0 ∉ text) :
    (Post.mk text.length ((Buffer.zero p2sMsgLen).blit 0 (snprintf p2sMsgLen text)).bytes).text =
      text.take (p2sMsgLen - 1) := by
  have hlen : (snprintf p2sMsgLen text).length ≤ p2sMsgLen := by
    rw [snprintf, List.length_take]
    omega
  have hcut : 0 ∉ text.take (p2sMsgLen - 1) := fun h => hnul (List.mem_of_mem_take h)
  rw [Post.text, Buffer.zero_blit _ hlen, snprintf, takeWhile_plain hcut, List.take_of_length_le]
  rw [List.length_take]
  dsimp only
  omega

/-- A text that fills the record leaves a NUL as its last byte. -/
theorem record_long {text : List Byte} (hnul : 0 ∉ text) (hlen : p2sMsgLen ≤ text.length) :
    (Post.mk text.length
      ((Buffer.zero p2sMsgLen).blit 0 (snprintf p2sMsgLen text)).bytes).record.msg.bytes =
      text.take (p2sMsgLen - 1) ++ [0] := by
  have hcut : (text.take (p2sMsgLen - 1)).length = p2sMsgLen - 1 :=
    List.length_take_of_le (by omega)
  have hone : p2sMsgLen - (p2sMsgLen - 1) = 1 := by decide
  rw [(carries_record _).text, post_print hnul, hcut, hone]
  rfl

/-- Written bytes are posted up to their first NUL. -/
theorem post_write (hc : c.Fills) (data : List Byte) (hlen : data.length < p2sMsgLen) :
    (Post.mk data.length (c.copy data.length (data.takeWhile (· ≠ 0))).bytes).text =
      data.takeWhile (· ≠ 0) := by
  have hplain : 0 ∉ data.takeWhile (· ≠ 0) := fun h => by simpa using List.mem_takeWhile_imp h
  have hle : (data.takeWhile (· ≠ 0)).length ≤ data.length :=
    (List.takeWhile_prefix (fun b : Byte => decide (b ≠ 0))).length_le
  have hcopy : (c.copy data.length (data.takeWhile (· ≠ 0))).bytes.takeWhile (· ≠ 0) =
      data.takeWhile (· ≠ 0) := by
    rcases Nat.lt_or_ge (data.takeWhile (· ≠ 0)).length data.length with hlt | hge
    · rw [c.short _ _ hlt, Buffer.zero_blit _ hle, takeWhile_plain hplain]
    · rw [hc _ _ hge, List.take_of_length_le hle]
      simpa using takeWhile_plain hplain 0
  simp only [p2sMsgLen] at hlen ⊢
  rw [Post.text, hcopy, List.take_of_length_le]
  dsimp only [p2sMsgLen]
  omega

theorem printHook_ready (hready : s.ready = true) (p : Print) :
    printHook s p = s.add ⟨p.ret,
      ((Buffer.zero p2sMsgLen).blit 0 (snprintf p2sMsgLen p.text)).bytes⟩ :=
  if_pos hready

/-- A print of any length goes through. -/
theorem printHook_returns (s : Hooks) {p : Print} (hret : 0 ≤ p.ret) :
    ∃ t, printHook s p = some t := by
  rw [printHook]
  split
  · rw [Hooks.add]
    split
    · exact ⟨s, rfl⟩
    · exact ⟨_, if_neg hret.not_gt⟩
  · exact ⟨s, rfl⟩

/-- What the record of a printed text holds: its start, and all of it when it
leaves room for a NUL. -/
structure HoldsText (r : Kp2sMsg) (text : List Byte) : Prop where
  bounded : r.len ≤ p2sMsgLen
  start : r.msg.bytes.take (min text.length (p2sMsgLen - 1)) = text.take (p2sMsgLen - 1)
  len : text.length < p2sMsgLen → r.len = text.length
  whole : text.length < p2sMsgLen → r.msg.bytes.take text.length = text

theorem printHook_queues (hready : s.ready = true) (hroom : s.list.pending.length < msgMax)
    {text : List Byte} (hne : text ≠ []) (hnul : 0 ∉ text) :
    ∃ t r, printHook s ⟨text, text.length⟩ = some t ∧ Queued s t r ∧ HoldsText r text := by
  have hpos : (0 : Int) < text.length := Int.natCast_pos.mpr (List.length_pos_iff.mpr hne)
  let p : Post := ⟨text.length, ((Buffer.zero p2sMsgLen).blit 0 (snprintf p2sMsgLen text)).bytes⟩
  obtain ⟨t, hadd, hqueued⟩ := add_queues hroom (p := p) hpos
  have hlen := (carries_record p).len
  have hbytes := take_record p
  rw [post_print hnul, List.length_take, Nat.min_comm] at hbytes
  refine ⟨t, _, (printHook_ready hready _).trans hadd, hqueued, ?_, hbytes, fun hshort => ?_,
    fun hshort => ?_⟩
  · rw [hlen]
    exact min_le_right _ _
  · rw [hlen]
    dsimp only [p]
    omega
  · have hwhole : text.take (p2sMsgLen - 1) = text := List.take_of_length_le (by omega)
    rwa [Nat.min_eq_left (by omega : text.length ≤ p2sMsgLen - 1), hwhole] at hbytes

theorem sceIoWriteHook_queues (hc : c.Fills) (hready : s.ready = true) (hhook : 0 < s.writeHook)
    (hroom : s.list.pending.length < msgMax) {data : List Byte} (hne : data ≠ [])
    (hlen : data.length < p2sMsgLen) :
    ∃ t r, sceIoWriteHook c s s.stdoutFd data = some t ∧ Queued s t r ∧ r.len = data.length ∧
      r.msg.bytes.take (data.takeWhile (· ≠ 0)).length = data.takeWhile (· ≠ 0) := by
  have hpos : (0 : Int) < data.length := Int.natCast_pos.mpr (List.length_pos_iff.mpr hne)
  let p : Post := ⟨data.length, (c.copy data.length (data.takeWhile (· ≠ 0))).bytes⟩
  obtain ⟨t, hadd, hqueued⟩ := add_queues hroom (p := p) hpos
  have hbytes := take_record p
  rw [post_write hc data hlen] at hbytes
  refine ⟨t, _, ?_, hqueued, ?_, hbytes⟩
  · rw [sceIoWriteHook, if_neg (by omega), if_pos ⟨rfl, hready, hlen⟩, hadd]
  · rw [(carries_record p).len]
    dsimp only [p]
    omega

/-- A write of a record's size or more is left to the system. -/
theorem sceIoWriteHook_long (c : UserStrncpy) (s : Hooks) (fd : Int) {data : List Byte}
    (hlen : p2sMsgLen ≤ data.length) : sceIoWriteHook c s fd data = some s := by
  rw [sceIoWriteHook]
  split
  · rfl
  · exact if_neg fun h => Nat.not_lt.mpr hlen h.2.2

/-- With `ready` set and a slot left, printed texts and short writes to the standard output
are queued, up to what a record holds of a text, and up to the first NUL of a write; longer
writes queue nothing. -/
theorem hooks_queue (hready : s.ready = true) (hroom : s.list.pending.length < msgMax) :
    (∀ text, text ≠ [] → 0 ∉ text → ∃ t r, ksceDebugPrintfHook s ⟨text, text.length⟩ = some t ∧
      (∀ num0 num1, ksceDebugPrintf2Hook num0 num1 s ⟨text, text.length⟩ = some t) ∧ Queued s t r ∧
      HoldsText r text) ∧
    (c.Fills → 0 < s.writeHook → ∀ data, data ≠ [] → data.length < p2sMsgLen →
      ∃ t r, sceIoWriteHook c s s.stdoutFd data = some t ∧ Queued s t r ∧ r.len = data.length ∧
        r.msg.bytes.take (data.takeWhile (· ≠ 0)).length = data.takeWhile (· ≠ 0)) ∧
    ∀ fd data, p2sMsgLen ≤ data.length → sceIoWriteHook c s fd data = some s := by
  refine ⟨fun text hne hnul => ?_, fun hc hhook data hne hlen => ?_, fun fd data hlen => ?_⟩
  · obtain ⟨t, r, ht, hqueued, hholds⟩ := printHook_queues hready hroom hne hnul
    exact ⟨t, r, ht, fun _ _ => ht, hqueued, hholds⟩
  · exact sceIoWriteHook_queues hc hready hhook hroom hne hlen
  · exact sceIoWriteHook_long c s fd hlen

/-- A copy like `strncpy`. -/
def strncpyToKernel : UserStrncpy where
  copy n s := (Buffer.zero n).blit 0 (s.take n)
  short n s h := by rw [List.take_of_length_le h.le]
  long n s h := by
    rw [Buffer.zero_blit _ (List.length_take_le _ _),
      List.take_append_of_le_length (by simp; omega),
      List.take_take, Nat.min_eq_left (Nat.sub_le n 1)]

theorem strncpyToKernel_fills : strncpyToKernel.Fills := by
  intro n s h
  have hlen : (s.take n).length = n := List.length_take_of_le h
  show ((Buffer.zero n).blit 0 (s.take n)).bytes = s.take n
  rw [Buffer.zero_blit _ hlen.le, hlen, Nat.sub_self, List.replicate_zero, List.append_nil]

/-- The hooks of a module that has been started, with an empty list. -/
def startedHooks : Hooks := ⟨true, 1073807367, 1, .empty⟩

theorem started_pending : startedHooks.list.pending.length < msgMax := by
  have hnone : startedHooks.list.pending = [] := by
    rw [KmsgList.pending, List.filter_eq_nil_iff]
    intro slot hslot
    rw [List.eq_of_mem_replicate hslot]
    decide
  rw [hnone]
  decide

/-- A program writes `hi`. -/
theorem hooks_queue_hi : ∃ t r,
    sceIoWriteHook strncpyToKernel startedHooks startedHooks.stdoutFd (ascii "hi") = some t ∧
      Queued startedHooks t r ∧ r.len = 2 ∧ r.msg.bytes.take 2 = ascii "hi" :=
  (hooks_queue (c := strncpyToKernel) (s := startedHooks) rfl started_pending).2.1
    strncpyToKernel_fills (by decide) (ascii "hi") (by decide) (by decide)

/-- A write of 256 bytes queues nothing; of a printed text of 256 bytes the record counts a NUL; and
a print for which `vsnprintf` returns -1 stores past the record. -/
theorem hooks_fail :
    sceIoWriteHook strncpyToKernel startedHooks startedHooks.stdoutFd (List.replicate 256 97) =
      some startedHooks ∧
    (∃ t r, ksceDebugPrintfHook startedHooks ⟨List.replicate 256 97, 256⟩ = some t ∧
      Queued startedHooks t r ∧ r.len = 256 ∧ r.msg.bytes.take 256 ≠ List.replicate 256 97) ∧
    ksceDebugPrintfHook startedHooks ⟨[], -1⟩ = none := by
  have hnul : 0 ∉ List.replicate 256 (97 : Byte) := fun h =>
    absurd (List.eq_of_mem_replicate h) (by decide)
  have hcount : (List.replicate 256 (97 : Byte)).length = 256 := List.length_replicate
  refine ⟨sceIoWriteHook_long _ _ _ hcount.ge, ?_, rfl⟩
  generalize List.replicate 256 (97 : Byte) = text at hnul hcount ⊢
  let p : Post := ⟨text.length, ((Buffer.zero p2sMsgLen).blit 0 (snprintf p2sMsgLen text)).bytes⟩
  have hret : (256 : Int) = text.length := by omega
  obtain ⟨t, hadd, hqueued⟩ := add_queues started_pending (p := p) (by dsimp only [p]; omega)
  refine ⟨t, p.record, ?_, hqueued, ?_, fun hsame => ?_⟩
  · rw [hret]
    exact (printHook_ready rfl _).trans hadd
  · rw [(carries_record p).len]
    dsimp only [p, p2sMsgLen]
    omega
  · have hfull : p.record.msg.bytes.take 256 = p.record.msg.bytes :=
      List.take_of_length_le p.record.msg.size_eq.le
    have hzero : (0 : Byte) ∈ text := by
      rw [← hsame, hfull, record_long hnul hcount.ge]
      exact List.mem_append_right _ (List.mem_singleton_self 0)
    exact hnul hzero

end Psp2Shell.Kernel
