import Psp2Shell.Cmd.Loop
import Psp2Shell.Upload.Receive

/-! The exchange between the client and the server around a file: the client sends the file exactly
when the server reads it, and the server reads exactly the file. -/

namespace Psp2Shell.Upload

open CLib Cmd

/-- The bytes of the server's replies so far. -/
def replyBytes (replies : List Send) : List Byte := (replies.map Send.bytes).flatten

/-- An exchange that leaves both sides in step.  `reply` is what the client's `recv` returns,
`content` the file, and the client's later commands follow it on the socket. -/
structure InStep (console : Console) (h : Handling) (reply content : List Byte) : Prop where
  one_reply : h.replies.length = 1
  agrees : p2sCmdWaitResult (.bytes reply) = some 0 ↔ h.reads console = true
  returns : ∀ later net, Arrives (payload reply content ++ later) net →
    ∃ fuel r, h.run console fuel net = some r
  exact : ∀ later net fuel r, Arrives (payload reply content ++ later) net →
    h.run console fuel net = some r → Arrives later r.rest

namespace Kind

/-- The destination of an upload can be opened; `reload` needs a running application first. -/
def opens : Kind → Console → Bool
  | put, console | load, console => console.opened
  | reload, console => console.title && console.opened

/-- The reply of an upload's handler. -/
def reply (u : Kind) (console : Console) : Send :=
  .send (if u.opens console then CmdType.ok.code else CmdType.nok.code)

theorem handle_eq (u : Kind) (console : Console) (size : Nat) :
    u.handle console size =
      ⟨[u.reply console], if u.opens console then some size else none⟩ := by
  obtain ⟨opened, title, malloc⟩ := console
  cases u <;> cases opened <;> cases title <;> rfl

end Kind

theorem p2sCmdParseUpload_eq {u : Kind} {cmd : P2sCmd} {size : List Byte}
    (htype : cmd.type = u.type.code) (hsize : cmd.arg u.sizeArg = some size) (console : Console) :
    p2sCmdParseUpload console cmd = some (u.handle console (announced size)) := by
  cases u with
  | put =>
    have hput : cmd.type = CmdType.put.code := htype
    have harg : cmd.arg 2 = some size := hsize
    rw [p2sCmdParseUpload, if_pos hput, harg]
    rfl
  | load =>
    have hload : cmd.type = CmdType.load.code := htype
    have harg : cmd.arg 1 = some size := hsize
    have hput : cmd.type ≠ CmdType.put.code := by rw [hload]; decide
    rw [p2sCmdParseUpload, if_neg hput, if_pos hload, harg]
    rfl
  | reload =>
    have hreload : cmd.type = CmdType.reload.code := htype
    have harg : cmd.arg 0 = some size := hsize
    have hput : cmd.type ≠ CmdType.put.code := by rw [hreload]; decide
    have hload : cmd.type ≠ CmdType.load.code := by rw [hreload]; decide
    rw [p2sCmdParseUpload, if_neg hput, if_neg hload, if_pos hreload, harg]
    rfl

/-! ### The reply -/

/-- The client takes a reply for `CMD_OK` when it starts with the digits of `CMD_OK`. -/
theorem p2sCmdWaitResult_eq_zero {c : List Byte} (hsize : c.length ≤ p2sSizeCmd)
    (hroom : c.length < p2sSizeCmd ∨ 0 ∈ c) :
    p2sCmdWaitResult (.bytes c) = some 0 ↔ [54, 52] <+: c := by
  have hs := cstring_recvBuffer hsize hroom
  have hreceived : [54, 52] <+: c ↔ [54, 52] <+: received c := by
    refine ⟨?_, fun h => h.trans (received_isPrefix c)⟩
    rintro ⟨rest, rfl⟩
    exact ⟨received rest, rfl⟩
  rw [hreceived]
  by_cases hlen : c.length < 2
  · apply iff_of_false (by simp [p2sCmdWaitResult, hlen])
    intro h
    have := h.length_le.trans (received_isPrefix c).length_le
    simp only [List.length_cons, List.length_nil] at this
    omega
  · by_cases ht : TypeDigits (received c)
    · have hresult : p2sCmdWaitResult (.bytes c) =
          some (if typeValue (received c) ≠ CmdType.ok.code then -1 else 0) := by
        simp only [p2sCmdWaitResult, if_neg hlen, p2sCmdToCmd_accepts hs _ ht, ne_eq,
          not_true_eq_false, if_false]
        rfl
      obtain ⟨a, b, rest, hrest, ha, hb, -⟩ := ht
      have ha' := isdigit_iff.mp ha
      have hb' := isdigit_iff.mp hb
      have hok : CmdType.ok.code = 64 := rfl
      rw [hresult, hrest, typeValue_cons, strtol_two_digits ha hb, hok]
      constructor
      · intro h
        have hvalue : 10 * (a.toNat - 48 : Int) + (b.toNat - 48) = 64 := by
          by_contra hne
          simp [hne] at h
        have ha54 : a = 54 := UInt8.toNat_inj.mp (show a.toNat = 54 by omega)
        have hb52 : b = 52 := UInt8.toNat_inj.mp (show b.toNat = 52 by omega)
        exact ⟨rest, by rw [ha54, hb52]; rfl⟩
      · rintro ⟨t, ht⟩
        obtain ⟨rfl, rfl, -⟩ : a = 54 ∧ b = 52 ∧ t = rest := by
          simpa [eq_comm] using ht
        rfl
    · obtain ⟨left, hl⟩ := p2sCmdToCmd_refuses hs P2sCmd.cleared ht
      refine iff_of_false ?_ ?_
      · simp [p2sCmdWaitResult, hlen, hl]
      · rintro ⟨t, hrest⟩
        exact ht ⟨54, 52, t, hrest.symm, by decide, by decide, by decide⟩

/-- What the client's `recv` returns: up to `n` of the bytes that the server has replied, after the
`k` bytes that the client has already received. -/
def firstRecv (replies : List Send) (k n : Nat) : List Byte :=
  ((replyBytes replies).drop k).take n

/-- The replies `CMD_OK` and `CMD_NOK`. -/
def IsReply (s : Send) : Prop := ∃ t : CmdType, s = .send t.code

theorem isReply (u : Kind) (console : Console) : IsReply (u.reply console) := by
  unfold Kind.reply
  split
  · exact ⟨_, rfl⟩
  · exact ⟨_, rfl⟩

theorem IsReply.bytes {s : Send} (h : IsReply s) : ∃ a b, s.bytes = [a, b, 0, 0] := by
  obtain ⟨t, rfl⟩ := h
  have htype : TwoDigits t.code := twoDigits_code t
  obtain ⟨a, b, hab, -⟩ := htype.decimal_eq
  have hs : (Send.send t.code).WellFormed :=
    ⟨htype, by simp [Send.args, Send.fmtArgs], by simp [Send.args, Send.fmtArgs]⟩
  have hdecimal : decimal (Send.send t.code).type = [a, b] := hab
  exact ⟨a, b, by rw [hs.bytes_eq, hdecimal]; rfl⟩

/-- Of any three bytes of replies in a row, one is a NUL. -/
theorem nul_of_replies {replies : List Send} (h : ∀ s ∈ replies, IsReply s) {k : Nat}
    (hk : k + 3 ≤ (replyBytes replies).length) :
    ∃ i < 3, (replyBytes replies)[k + i]? = some 0 := by
  induction replies generalizing k with
  | nil => simp [replyBytes] at hk
  | cons s replies ih =>
    obtain ⟨a, b, hab⟩ := (h s (by simp)).bytes
    have hbytes : replyBytes (s :: replies) = [a, b, 0, 0] ++ replyBytes replies := by
      simp [replyBytes, hab]
    rw [hbytes] at hk ⊢
    match k with
    | 0 => exact ⟨2, by omega, rfl⟩
    | 1 => exact ⟨1, by omega, rfl⟩
    | 2 => exact ⟨0, by omega, rfl⟩
    | 3 => exact ⟨0, by omega, rfl⟩
    | k + 4 =>
      have hlen : k + 3 ≤ (replyBytes replies).length := by
        simp only [List.length_append, List.length_cons, List.length_nil] at hk
        omega
      obtain ⟨i, hi, hnul⟩ := ih (fun r hr => h r (List.mem_cons_of_mem _ hr)) hlen
      refine ⟨i, hi, ?_⟩
      rw [List.getElem?_append_right (by simp; omega), ← hnul]
      congr 1
      simp
      omega

theorem firstRecv_room {replies : List Send} (h : ∀ s ∈ replies, IsReply s) (k n : Nat) :
    (firstRecv replies k n).length < p2sSizeCmd ∨ 0 ∈ firstRecv replies k n := by
  by_cases hlen : (firstRecv replies k n).length < 3
  · exact Or.inl (hlen.trans (by decide))
  · simp only [firstRecv, List.length_take, List.length_drop] at hlen
    obtain ⟨i, hi, hnul⟩ := nul_of_replies h (k := k) (by omega)
    refine Or.inr (List.mem_of_getElem? (i := i) ?_)
    rw [firstRecv, List.getElem?_take_of_lt (by omega), List.getElem?_drop, hnul]

/-! ### The exchange -/

theorem sendFile_flatten (content : List Byte) : (sendFile content).flatten = content := by
  induction content using sendFile.induct with
  | case1 => rw [sendFile, if_pos rfl]; rfl
  | case2 content hne ih =>
    rw [sendFile, if_neg hne, List.flatten_cons, ih, List.take_append_drop]

theorem payload_eq (reply content : List Byte) : payload reply content =
    if p2sCmdWaitResult (.bytes reply) = some 0 then content else [] := by
  rw [payload, sendFile_flatten]

theorem reads_eq (u : Kind) (console : Console) (size : Nat) :
    (u.handle console size).reads console = (u.opens console && console.malloc) := by
  rw [Kind.handle_eq]
  cases u.opens console <;> rfl

theorem run_of_not_reads {u : Kind} {console : Console} (size : Nat)
    (h : ¬(u.opens console = true ∧ console.malloc = true)) (fuel : Nat) (net : List Recv) :
    (u.handle console size).run console fuel net = some ⟨0, [], net⟩ := by
  rw [Kind.handle_eq]
  cases ho : u.opens console with
  | false => rfl
  | true =>
    have hm : console.malloc = false := by simpa [ho] using h
    simp [Handling.run, p2sRecvFile, hm]

theorem run_of_reads {u : Kind} {console : Console} (size : Nat)
    (h : u.opens console = true ∧ console.malloc = true) (fuel : Nat) (net : List Recv) :
    (u.handle console size).run console fuel net =
      recvFileLoop fuel size p2sSizeData 0 (Buffer.zero _) net := by
  rw [Kind.handle_eq, h.1, if_pos rfl]
  simp [Handling.run, p2sRecvFile, h.2]

theorem arrives_all (stream : List Byte) : ∃ net, Arrives stream net := by
  by_cases h : stream = []
  · exact ⟨[], h ▸ arrives_nil⟩
  · exact ⟨[.bytes stream], by simpa using arrives_cons h arrives_nil⟩

/-- An upload stays in step exactly when the client takes the reply for `CMD_OK` just in the case
that the server reads the file, and then the announced size is that of the file. -/
theorem inStep_iff {u : Kind} {console : Console} {size : Nat} {reply content : List Byte}
    (hroom : reply.length ≤ p2sSizeCmd ∧ (reply.length < p2sSizeCmd ∨ 0 ∈ reply)) :
    InStep console (u.handle console size) reply content ↔
      ([54, 52] <+: reply ↔ u.opens console = true ∧ console.malloc = true) ∧
      (u.opens console = true ∧ console.malloc = true → size = content.length) := by
  have hjudge := p2sCmdWaitResult_eq_zero hroom.1 hroom.2
  have hreads : (u.handle console size).reads console = true ↔
      u.opens console = true ∧ console.malloc = true := by
    rw [reads_eq, Bool.and_eq_true]
  have hbuf : 0 < p2sSizeData := by decide
  constructor
  · intro h
    have hagrees := h.agrees
    rw [hjudge, hreads] at hagrees
    refine ⟨hagrees, fun hr => ?_⟩
    have hpayload : payload reply content = content := by
      rw [payload_eq, if_pos (hjudge.mpr (hagrees.mpr hr))]
    -- enough bytes follow the file for the server to return
    have hlater : size ≤ (payload reply content ++ List.replicate size 0).length := by simp
    obtain ⟨net, hnet⟩ := arrives_all (payload reply content ++ List.replicate size 0)
    obtain ⟨r, hr'⟩ := recvFileLoop_returns hnet hbuf le_rfl hlater (Nat.lt_succ_self size) 0
      (Buffer.zero _)
    have hrest := h.exact _ _ _ r hnet ((run_of_reads size hr _ net).trans hr')
    obtain ⟨-, -, -, hexact⟩ := recvFileLoop_exact hnet hbuf le_rfl hr'
    have hlen := congrArg List.length (hexact.unique hrest)
    simp only [hpayload, List.length_drop, List.length_append, List.length_replicate] at hlen
    omega
  · rintro ⟨hagrees, hsize⟩
    refine ⟨by rw [Kind.handle_eq]; rfl, by rw [hjudge, hreads]; exact hagrees, ?_, ?_⟩
    · intro later net hnet
      by_cases hr : u.opens console = true ∧ console.malloc = true
      · have hpayload : payload reply content = content := by
          rw [payload_eq, if_pos (hjudge.mpr (hagrees.mpr hr))]
        obtain ⟨r, hr'⟩ := recvFileLoop_returns hnet hbuf le_rfl
          (by rw [hpayload, hsize hr, List.length_append]; omega) (Nat.lt_succ_self size) 0
          (Buffer.zero _)
        exact ⟨size + 1, r, (run_of_reads size hr _ net).trans hr'⟩
      · exact ⟨0, _, run_of_not_reads size hr 0 net⟩
    · intro later net fuel r hnet hrun
      by_cases hr : u.opens console = true ∧ console.malloc = true
      · have hpayload : payload reply content = content := by
          rw [payload_eq, if_pos (hjudge.mpr (hagrees.mpr hr))]
        rw [run_of_reads size hr] at hrun
        obtain ⟨-, -, -, hexact⟩ := recvFileLoop_exact hnet hbuf le_rfl hrun
        rwa [hpayload, hsize hr, List.drop_left] at hexact
      · have hpayload : payload reply content = [] := by
          rw [payload_eq, if_neg fun h => hr (hagrees.mp (hjudge.mp h))]
        rw [run_of_not_reads size hr] at hrun
        cases hrun
        simpa [hpayload] using hnet

/-- A decoded upload command, after any exchanges before it: the exchange stays in step exactly when
the client's `recv` starts with the digits of `CMD_OK` just in the case that the destination opens
and the server gets its buffer, and then the announced size is that of the file. -/
theorem upload_in_step_iff {u : Kind} {cmd : P2sCmd} {size : List Byte}
    (htype : cmd.type = u.type.code) (hsize : cmd.arg u.sizeArg = some size) (console : Console)
    {earlier : List Send} (hearlier : ∀ s ∈ earlier, IsReply s) (k : Nat) {n : Nat}
    (hn : n ≤ p2sSizeCmd) (content : List Byte) :
    ∃ h, p2sCmdParseUpload console cmd = some h ∧
      (InStep console h (firstRecv (earlier ++ h.replies) k n) content ↔
        ([54, 52] <+: firstRecv (earlier ++ [u.reply console]) k n ↔
          u.opens console = true ∧ console.malloc = true) ∧
        (u.opens console = true ∧ console.malloc = true → announced size = content.length)) := by
  refine ⟨_, p2sCmdParseUpload_eq htype hsize console, ?_⟩
  have hreplies : (u.handle console (announced size)).replies = [u.reply console] := by
    rw [Kind.handle_eq]
  have hall : ∀ s ∈ earlier ++ [u.reply console], IsReply s := by
    intro s hs
    rcases List.mem_append.mp hs with hs | hs
    · exact hearlier s hs
    · rw [List.mem_singleton.mp hs]
      exact isReply u console
  rw [hreplies]
  exact inStep_iff ⟨(List.length_take_le _ _).trans hn, firstRecv_room hall k n⟩

/-- The upload of the file `f` of three bytes, the first of a connection. -/
theorem upload_in_step_put : ∃ h,
    p2sCmdParseUpload ⟨true, true, true⟩ (P2sCmd.ofArgs CmdType.put.code [[102], [48], [51]]) =
      some h ∧
    InStep ⟨true, true, true⟩ h (firstRecv ([] ++ h.replies) 0 p2sSizeCmd) [1, 2, 3] := by
  have harg : (P2sCmd.ofArgs CmdType.put.code [[102], [48], [51]]).arg 2 = some [51] := by
    decide +kernel
  have hearlier : ∀ s ∈ ([] : List Send), IsReply s := by simp
  obtain ⟨h, hparse, hiff⟩ := upload_in_step_iff (u := .put) rfl harg ⟨true, true, true⟩ hearlier
    0 le_rfl [1, 2, 3]
  exact ⟨h, hparse, hiff.mpr (by decide +kernel)⟩

/-- When `p2s_malloc` fails, the server has replied `CMD_OK` and the client sends the file, which
the server does not read. -/
theorem upload_out_of_step :
    p2sCmdParseUpload ⟨true, true, false⟩ (P2sCmd.ofArgs CmdType.put.code [[102], [48], [51]]) =
      some ⟨[.send 64], some 3⟩ ∧
    ¬InStep ⟨true, true, false⟩ ⟨[.send 64], some 3⟩ (firstRecv [.send 64] 0 p2sSizeCmd)
      [1, 2, 3] := by
  constructor
  · have harg : (P2sCmd.ofArgs CmdType.put.code [[102], [48], [51]]).arg 2 = some [51] := by
      decide +kernel
    have hsize : announced [51] = 3 := by decide +kernel
    rw [p2sCmdParseUpload_eq (u := .put) rfl harg ⟨true, true, false⟩, hsize]
    rfl
  · intro h
    have hreply : firstRecv [.send 64] 0 p2sSizeCmd = [54, 52, 0, 0] := by decide +kernel
    have hsends := (h.agrees.mp (by
      rw [hreply, p2sCmdWaitResult_eq_zero (by decide) (by decide)]
      decide))
    exact absurd hsends (by decide)

end Psp2Shell.Upload
