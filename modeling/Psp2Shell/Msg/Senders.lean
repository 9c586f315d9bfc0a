import Psp2Shell.Msg.RoundTrip

/-! The two senders of `common/p2s_msg.c` side by side: what a client decodes of each. -/

namespace Psp2Shell.Msg

open CLib Cmd

/-- `p2s_msg_send`: what goes to the socket, all of its buffer. -/
def p2sMsgSend (color : Int) (msg : List Byte) : Option (List Byte) :=
  let len := msg.length + 2
  ((Buffer.zero len).snprintf len (format (ascii "%i%s") [.int color, .str msg])).map Buffer.bytes

/-- What `p2s_msg_to_msg` leaves of transmitted bytes in the zeroed buffer of `p2s_msg_receive`, and
`none` when it returns -1. -/
def decoded (old : P2sMsg) (bytes : List Byte) : Option (Int × List Byte) := do
  let (ret, msg) ← p2sMsgToMsg old (recvBuffer bytes).bytes
  if ret = 0 then return (msg.color, ← msg.buffer.str) else none

/-- Both senders transmit, and a client decodes the same color and text of each. -/
def SendersAgree (old msg : P2sMsg) (color : Int) (text : List Byte) : Prop :=
  ∃ bytes bytes' decoding, p2sMsgSend color text = some bytes ∧ p2sMsgSendMsg msg = some bytes' ∧
    decoded old bytes = some decoding ∧ decoded old bytes' = some decoding

variable {color : Int} {text : List Byte}

/-- A buffer that is too short by one: the last byte of the text gives way to the NUL. -/
theorem p2sMsgSend_eq (hcolor : TwoDigits color) (hne : text ≠ []) :
    p2sMsgSend color text = some (decimal color ++ text.dropLast ++ [0]) := by
  have hformat : format (ascii "%i%s") [.int color, .str text] = decimal color ++ text := by
    simp [format, ascii]
  have hpos := List.length_pos_iff.mpr hne
  have hcut : snprintf (text.length + 2) (decimal color ++ text) =
      decimal color ++ text.dropLast := by
    rw [snprintf, List.dropLast_eq_take, List.take_append, hcolor.decimal_length,
      List.take_of_length_le (by rw [hcolor.decimal_length]; omega)]
    congr 2
  have hwidth : (decimal color ++ text.dropLast).length < text.length + 2 := by
    rw [List.length_append, hcolor.decimal_length, List.length_dropLast]
    omega
  have hbytes : (decimal color ++ text.dropLast ++ [0]).length = text.length + 2 := by
    simp only [List.length_append, hcolor.decimal_length, List.length_dropLast,
      List.length_singleton]
    omega
  simp only [p2sMsgSend, Buffer.snprintf, if_neg (Nat.succ_ne_zero _), hformat, hcut, Buffer.strcpy,
    Nat.zero_add, if_pos hwidth, Option.map_some]
  rw [Buffer.zero_blit _ hbytes.le, hbytes, Nat.sub_self, List.replicate_zero, List.append_nil]

theorem decoded_text {s : List Byte} (hcolor : TwoDigits color) (hne : text ≠ [])
    (hlen : text.length < p2sKmsgSize)
    (hs : cstring (recvBuffer s).bytes = some (decimal color ++ text))
    (old : P2sMsg) : decoded old s = some (color, text) := by
  obtain ⟨m, hdecode, rfl, hm⟩ := p2sMsgToMsg_text hcolor hs hne hlen old
  have hstr : m.buffer.str = some text := hm
  simp [decoded, hdecode, hstr]

theorem decoded_short {s : List Byte} (hs : cstring (recvBuffer s).bytes = some (decimal color))
    (hcolor : TwoDigits color) (old : P2sMsg) : decoded old s = none := by
  have hshort : (decimal color).length < 3 := by
    rw [hcolor.decimal_length]
    decide
  simp [decoded, p2sMsgToMsg, hs, hshort]

theorem digits_text_plain (hnul : 0 ∉ text) : 0 ∉ decimal color ++ text := by
  rw [List.mem_append, not_or]
  exact ⟨nul_not_mem_decimal color, hnul⟩

/-- A client decodes of `p2s_msg_send` the text without its last byte, and nothing
of a text of one byte. -/
theorem decoded_send (hcolor : TwoDigits color) (hnul : 0 ∉ text) (hne : text ≠ [])
    (hlen : text.length < p2sKmsgSize) (old : P2sMsg) :
    ∃ bytes, p2sMsgSend color text = some bytes ∧
      decoded old bytes = if text.length = 1 then none else some (color, text.dropLast) := by
  refine ⟨_, p2sMsgSend_eq hcolor hne, ?_⟩
  have hdrop : 0 ∉ text.dropLast := fun h => hnul (List.mem_of_mem_dropLast h)
  have hwidth : (decimal color ++ text.dropLast).length < p2sSizeMsg := by
    rw [List.length_append, hcolor.decimal_length, List.length_dropLast]
    simp only [p2sSizeMsg]
    omega
  have hs : cstring (recvBuffer (decimal color ++ text.dropLast ++ [0])).bytes =
      some (decimal color ++ text.dropLast) := by
    rw [recvBuffer, zero_blit_nul]
    exact recvBuffer_str (digits_text_plain hdrop) hwidth
  split
  · next hone =>
    have hnil : text.dropLast = [] := by
      rw [← List.length_eq_zero_iff, List.length_dropLast, hone]
    rw [hnil, List.append_nil] at hs ⊢
    exact decoded_short hs hcolor old
  · next hone =>
    have hpos := List.length_pos_iff.mpr hne
    have hrest : text.dropLast ≠ [] := by
      rw [← List.length_pos_iff, List.length_dropLast]
      omega
    exact decoded_text hcolor hrest (by rw [List.length_dropLast]; omega) hs old

theorem decoded_send_msg {msg : P2sMsg} (hcolor : TwoDigits msg.color)
    (htext : cstring msg.buffer.bytes = some text) (hne : text ≠ []) (old : P2sMsg) :
    ∃ bytes, p2sMsgSendMsg msg = some bytes ∧ decoded old bytes = some (msg.color, text) := by
  obtain ⟨buffer, hbuffer, hstr⟩ := p2sMsgToString_text hcolor htext
  obtain ⟨hnul, hlen⟩ := text_length htext
  have hwidth : (decimal msg.color ++ text).length < p2sSizeMsg := by
    rw [List.length_append, hcolor.decimal_length]
    simp only [p2sSizeMsg]
    omega
  refine ⟨_, by rw [p2sMsgSendMsg, hbuffer]; exact hstr, ?_⟩
  exact decoded_text hcolor hne hlen (recvBuffer_str (digits_text_plain hnul) hwidth) old

theorem not_sendersAgree {msg : P2sMsg} (hcolor : TwoDigits msg.color)
    (htext : cstring msg.buffer.bytes = some text) (hne : text ≠ []) (old : P2sMsg) :
    ¬SendersAgree old msg msg.color text := by
  obtain ⟨hnul, hlen⟩ := text_length htext
  obtain ⟨sent, hsent, hdecode⟩ := decoded_send hcolor hnul hne hlen old
  obtain ⟨sent', hsent', hdecode'⟩ := decoded_send_msg hcolor htext hne old
  rintro ⟨bytes, bytes', decoding, hbytes, hbytes', hd, hd'⟩
  rw [hsent] at hbytes
  rw [hsent'] at hbytes'
  rw [← Option.some.inj hbytes, hdecode] at hd
  rw [← Option.some.inj hbytes', hdecode'] at hd'
  rw [← Option.some.inj hd'] at hd
  split at hd
  · cases hd
  · have hlast := congrArg List.length (Prod.ext_iff.mp (Option.some.inj hd)).2
    have hpos := List.length_pos_iff.mpr hne
    simp only [List.length_dropLast] at hlast
    omega

/-- The two senders never agree: `p2s_msg_send` loses the last byte of every text. -/
theorem senders_never_agree {msg : P2sMsg} (hcolor : TwoDigits msg.color)
    (htext : cstring msg.buffer.bytes = some text) (hne : text ≠ []) (old : P2sMsg) :
    ¬SendersAgree old msg msg.color text ∧
      ∃ bytes, p2sMsgSend msg.color text = some bytes ∧
        decoded old bytes = if text.length = 1 then none else some (msg.color, text.dropLast) := by
  obtain ⟨hnul, hlen⟩ := text_length htext
  exact ⟨not_sendersAgree hcolor htext hne old, decoded_send hcolor hnul hne hlen old⟩

/-- The green text `ok`. -/
theorem senders_never_agree_ok :
    ¬SendersAgree ⟨0, Buffer.zero _⟩ (psp2shellPrintColor .green (ascii "ok")) 13 (ascii "ok") :=
  (@senders_never_agree (ascii "ok") (psp2shellPrintColor .green (ascii "ok"))
    (Color.twoDigits .green) (by decide +kernel) (by decide) ⟨0, Buffer.zero _⟩).1

/-- Of the green text `ok`, a client decodes `o` from the one sender and `ok` from the other. -/
theorem senders_disagree_ok :
    (p2sMsgSend 13 (ascii "ok")).bind (decoded ⟨0, Buffer.zero _⟩) = some (13, ascii "o") ∧
    (p2sMsgSendMsg (psp2shellPrintColor .green (ascii "ok"))).bind (decoded ⟨0, Buffer.zero _⟩) =
      some (13, ascii "ok") ∧
    ¬SendersAgree ⟨0, Buffer.zero _⟩ (psp2shellPrintColor .green (ascii "ok")) 13 (ascii "ok") := by
  have htext : cstring (psp2shellPrintColor .green (ascii "ok")).buffer.bytes =
      some (ascii "ok") := by
    decide +kernel
  have hne : ascii "ok" ≠ [] := by decide
  have hcolor := Color.twoDigits .green
  obtain ⟨bytes, hbytes, hdecode⟩ :=
    decoded_send hcolor (by decide) hne (by decide) ⟨0, Buffer.zero _⟩
  obtain ⟨bytes', hbytes', hdecode'⟩ := decoded_send_msg hcolor htext hne ⟨0, Buffer.zero _⟩
  refine ⟨?_, ?_, not_sendersAgree hcolor htext hne _⟩
  · rw [show (13 : Int) = Color.green.code from rfl, hbytes, Option.bind_some, hdecode]
    rfl
  · rw [hbytes', Option.bind_some, hdecode']
    rfl

end Psp2Shell.Msg
