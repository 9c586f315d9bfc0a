import Psp2Shell.Cmd.Send
import Psp2Shell.CLib.Strings
import Psp2Shell.Msg.Model

/-! The codec of `common/p2s_msg.c` in both directions: what `p2s_msg_to_string` stores and what
`p2s_msg_to_msg` makes of it. -/

namespace Psp2Shell.Msg

open CLib Cmd

/-- A run of `p2s_msg_to_string`: what it returns, and its stores into `buffer` by offset. -/
structure Encoding where
  ret : Int
  stores : List (Nat × List Byte)

/-- `p2s_msg_to_string` as its `memset`, its `sprintf` and its `snprintf`. -/
def encoding (msg : P2sMsg) : Option Encoding :=
  (cstring msg.buffer.bytes).map fun text => ⟨0,
    [(0, List.replicate p2sSizeMsg 0),
      (0, format [37, 105] [.int msg.color] ++ [0]),
      (2, snprintf (p2sSizeMsg - 2) (format [37, 115] [.str text]) ++ [0])]⟩

/-- The buffer after some stores. -/
def storeEach {n : Nat} (buffer : Buffer n) (stores : List (Nat × List Byte)) : Buffer n :=
  stores.foldl (fun b s => b.blit s.1 s.2) buffer

theorem blit_zeros {n : Nat} (buffer : Buffer n) :
    buffer.blit 0 (List.replicate n 0) = Buffer.zero n := by
  apply Buffer.ext
  intro i hi
  rw [Buffer.blit_get_inside _ hi (Nat.zero_le _) (by simpa using hi), Buffer.zero_get hi]
  simp [hi]

theorem zero_blit_nul {n : Nat} (s : List Byte) :
    (Buffer.zero n).blit 0 (s ++ [0]) = (Buffer.zero n).blit 0 s := by
  apply Buffer.ext
  intro i hi
  by_cases hin : i < s.length
  · rw [Buffer.blit_get_inside _ hi (Nat.zero_le _) (by simp; omega),
      Buffer.blit_get_inside _ hi (Nat.zero_le _) (by simpa using hin),
      List.getElem?_append_left (by simpa)]
  · have hzero : ((Buffer.zero n).blit 0 s).bytes[i]? = some 0 := by
      rw [Buffer.blit_get_outside _ (Or.inr (by omega)), Buffer.zero_get hi]
    rw [hzero]
    by_cases heq : i = s.length
    · rw [Buffer.blit_get_inside _ hi (Nat.zero_le _) (by simp; omega)]
      simp [heq]
    · rw [Buffer.blit_get_outside _ (Or.inr (by simp; omega)), Buffer.zero_get hi]

/-- The stores leave the buffer of `p2sMsgToString`, whatever it held before. -/
theorem p2sMsgToString_stores (msg : P2sMsg) (buffer : Buffer p2sSizeMsg) :
    p2sMsgToString msg = (encoding msg).map fun e => storeEach buffer e.stores := by
  unfold p2sMsgToString encoding
  cases cstring msg.buffer.bytes with
  | none => rfl
  | some text => simp [storeEach, blit_zeros, zero_blit_nul]

/-! ### Encoding -/

theorem text_length {msg : P2sMsg} {text : List Byte} (h : cstring msg.buffer.bytes = some text) :
    0 ∉ text ∧ text.length < p2sKmsgSize :=
  ⟨(Buffer.str_eq_some h).1, (Buffer.str_eq_some h).2.1⟩

theorem stores_inside {msg : P2sMsg} {text : List Byte} (hcolor : TwoDigits msg.color)
    (htext : cstring msg.buffer.bytes = some text) :
    ∃ e, encoding msg = some e ∧ e.ret = 0 ∧ (∀ s ∈ e.stores, s.1 + s.2.length ≤ p2sSizeMsg) ∧
      ∀ buffer, p2sMsgToString msg = some (storeEach buffer e.stores) := by
  have hdigits : (format [37, 105] [.int msg.color]).length = 2 := by
    simpa [format] using hcolor.decimal_length
  have hlen := (text_length htext).2
  obtain ⟨e, he⟩ : ∃ e, encoding msg = some e := ⟨_, by rw [encoding, htext, Option.map_some]⟩
  obtain ⟨text', -, rfl⟩ := Option.map_eq_some_iff.mp he
  refine ⟨_, he, rfl, fun s hs => ?_, fun buffer => ?_⟩
  · simp only [List.mem_cons, List.not_mem_nil, or_false] at hs
    rcases hs with rfl | rfl | rfl
    · simp
    · simp only [List.length_append, hdigits, List.length_singleton, p2sSizeMsg]
      omega
    · simp only [snprintf, List.length_append, List.length_take, List.length_singleton, p2sSizeMsg]
      omega
  · rw [p2sMsgToString_stores msg buffer, he, Option.map_some]

/-- A message with a color of two digits is encoded as these digits and its text. -/
theorem p2sMsgToString_text {msg : P2sMsg} {text : List Byte} (hcolor : TwoDigits msg.color)
    (htext : cstring msg.buffer.bytes = some text) :
    ∃ buffer, p2sMsgToString msg = some buffer ∧
      cstring buffer.bytes = some (decimal msg.color ++ text) := by
  obtain ⟨hnul, hlen⟩ := text_length htext
  have hcut : snprintf (p2sSizeMsg - 2) (format [37, 115] [.str text]) = text := by
    have hformat : format [37, 115] [.str text] = text := by simp [format]
    rw [hformat, snprintf_of_lt (by simp only [p2sSizeMsg, p2sKmsgSize] at *; omega)]
  have hdigits : format [37, 105] [.int msg.color] = decimal msg.color := by simp [format]
  have hwidth : (decimal msg.color ++ (text ++ [0])).length ≤ p2sSizeMsg := by
    simp only [List.length_append, hcolor.decimal_length, List.length_singleton, p2sSizeMsg,
      p2sKmsgSize] at *
    omega
  refine ⟨_, by rw [p2sMsgToString, htext], ?_⟩
  have htwo : 2 = 0 + (decimal msg.color).length := by rw [hcolor.decimal_length]
  rw [hcut, hdigits, htwo, Buffer.blit_blit, Buffer.zero_blit _ hwidth, ← List.append_assoc,
    List.append_assoc]
  exact cstring_terminated (by simp [nul_not_mem_decimal, hnul]) _

/-! ### Decoding -/

/-- The digits of a color and a text are decoded to these. -/
theorem p2sMsgToMsg_text {color : Int} (hcolor : TwoDigits color) {text mem : List Byte}
    (hmem : cstring mem = some (decimal color ++ text)) (hne : text ≠ [])
    (hlen : text.length < p2sKmsgSize) (old : P2sMsg) :
    ∃ m, p2sMsgToMsg old mem = some (0, m) ∧ m.color = color ∧
      cstring m.buffer.bytes = some text := by
  obtain ⟨a, b, hab, -, -, -, hvalue⟩ := hcolor.decimal_eq
  have hnul : 0 ∉ decimal color ++ text := by
    exact (Buffer.str_eq_some (b := ⟨mem, rfl⟩) hmem).1
  have hpos := List.length_pos_iff.mpr hne
  have hlow := hcolor.low
  refine ⟨⟨color, (Buffer.zero _).blit 0 (strncpy text p2sKmsgSize)⟩, ?_, rfl, ?_⟩
  · have hshort : ¬(decimal color ++ text).length < 3 := by
      rw [List.length_append, hcolor.decimal_length]
      omega
    have htwo : strncpy (decimal color ++ text) 2 = [a, b] := by
      rw [hab, strncpy_of_le (by simp)]
      rfl
    have hdrop : (decimal color ++ text).drop 2 = text := by
      rw [hab]
      rfl
    have hcode : ¬color < Color.none.code := by
      simp only [Color.code]
      omega
    simp only [p2sMsgToMsg, hmem, if_neg hshort, htwo, hdrop, hvalue, if_neg hcode]
  · exact Buffer.str_strncpy_of_lt (fun h => hnul (List.mem_append_right _ h)) hlen

/-- A text without NULs and shorter than the receive buffer is the string in it. -/
theorem recvBuffer_str {s : List Byte} (hnul : 0 ∉ s) (hlen : s.length < p2sSizeMsg) :
    cstring (recvBuffer s).bytes = some s :=
  Buffer.cstring_zero_blit_plain hnul hlen

/-- The text that `msg_thread` has of a message that is sent as one and received as one. -/
def clientText (old sent : P2sMsg) : Option (List Byte) := do
  let bytes ← p2sMsgSendMsg sent
  let msg ← msgThread old (.bytes bytes)
  cstring msg.buffer.bytes

theorem Color.twoDigits (color : Color) : TwoDigits color.code := by
  cases color <;> decide

/-- `vsnprintf` keeps the first `P2S_KMSG_SIZE - 1` bytes of what `psp2shell_print_color` prints. -/
theorem printed_text (color : Color) {text : List Byte} (hnul : 0 ∉ text) :
    cstring (psp2shellPrintColor color text).buffer.bytes = some (snprintf p2sKmsgSize text) := by
  have hcut : (snprintf p2sKmsgSize text).length < p2sKmsgSize := by
    rw [snprintf, List.length_take]
    simp only [p2sKmsgSize]
    omega
  exact Buffer.cstring_zero_blit_plain (fun h => hnul (List.mem_of_mem_take h)) hcut

/-- What is printed is received as one message, up to its first `P2S_KMSG_SIZE - 1` bytes. -/
theorem msgThread_print (old : P2sMsg) (color : Color) {text : List Byte} (hne : text ≠ [])
    (hnul : 0 ∉ text) :
    ∃ bytes msg, p2sMsgSendMsg (psp2shellPrintColor color text) = some bytes ∧ bytes ≠ [] ∧
      msgThread old (.bytes bytes) = some msg ∧ msg.color = color.code ∧
      cstring msg.buffer.bytes = some (snprintf p2sKmsgSize text) := by
  have hcolor := color.twoDigits
  have htext := printed_text color hnul
  have hcut : snprintf p2sKmsgSize text ≠ [] := by simp [snprintf, p2sKmsgSize, hne]
  have hpos := List.length_pos_iff.mpr hcut
  have hlen := (text_length htext).2
  obtain ⟨buffer, hbuffer, hstr⟩ := p2sMsgToString_text hcolor htext
  have hwidth : (decimal color.code ++ snprintf p2sKmsgSize text).length =
      2 + (snprintf p2sKmsgSize text).length := by
    rw [List.length_append, hcolor.decimal_length]
  have hshort : (decimal color.code ++ snprintf p2sKmsgSize text).length < p2sSizeMsg := by
    simp only [hwidth, p2sSizeMsg]
    omega
  have hrecv : cstring (recvBuffer (decimal color.code ++ snprintf p2sKmsgSize text)).bytes =
      some (decimal color.code ++ snprintf p2sKmsgSize text) :=
    recvBuffer_str (Buffer.str_eq_some hstr).1 hshort
  obtain ⟨msg, hdecode, hmsgColor, hmsg⟩ := p2sMsgToMsg_text hcolor hrecv hcut hlen old
  refine ⟨decimal color.code ++ snprintf p2sKmsgSize text, msg, ?_, ?_, ?_, hmsgColor, hmsg⟩
  · rw [p2sMsgSendMsg, hbuffer]
    exact hstr
  · exact List.append_ne_nil_of_right_ne_nil _ hcut
  · rw [msgThread, p2sMsgReceive, if_neg (by omega), hdecode]
    rfl

/-- What is printed arrives up to its first `P2S_KMSG_SIZE - 1` bytes. -/
theorem clientText_print (old : P2sMsg) (color : Color) {text : List Byte} (hne : text ≠ [])
    (hnul : 0 ∉ text) :
    clientText old (psp2shellPrintColor color text) = some (snprintf p2sKmsgSize text) := by
  obtain ⟨bytes, msg, hsend, -, hthread, -, hmsg⟩ := msgThread_print old color hne hnul
  simp only [clientText, hsend, hthread, bind, Option.bind, hmsg]

/-- What the decoder accepts starts with the digits of the color that it finds. -/
theorem accepted_text {mem s : List Byte} {old m : P2sMsg} (hmem : cstring mem = some s)
    (h : p2sMsgToMsg old mem = some (0, m)) (hlen : s.length ≤ p2sKmsgSize + 1) :
    ∃ text, s = decimal m.color ++ text ∧ TwoDigits m.color ∧
      cstring m.buffer.bytes = some text := by
  have hnul : 0 ∉ s := (Buffer.str_eq_some (b := ⟨mem, rfl⟩) hmem).1
  simp only [p2sMsgToMsg, hmem] at h
  by_cases hshort : s.length < 3
  · rw [if_pos hshort] at h
    simp at h
  rw [if_neg hshort] at h
  obtain ⟨a, b, text, rfl⟩ : ∃ a b text, s = a :: b :: text := by
    match s, hshort with
    | a :: b :: text, _ => exact ⟨a, b, text, rfl⟩
    | [_], hshort | [], hshort => exact absurd (by simp) hshort
  have htwo : strncpy (a :: b :: text) 2 = [a, b] := strncpy_of_le (by simp)
  rw [htwo] at h
  by_cases hlow : strtol 32 [a, b] < Color.none.code
  · rw [if_pos hlow] at h
    simp at h
  rw [if_neg hlow] at h
  simp only [Option.some.injEq, Prod.mk.injEq, true_and] at h
  subst h
  simp only [Color.code] at hlow
  -- a number from ten on is spelled by two digits
  have hlow : 10 ≤ strtol 32 [a, b] := Int.not_lt.mp hlow
  obtain ⟨hhigh, hdecimal⟩ := decimal_strtol_two hlow
  refine ⟨text, ?_, ⟨hlow, hhigh⟩,
    Buffer.str_strncpy_of_lt (fun h => hnul (List.mem_of_mem_drop h)) ?_⟩
  · rw [hdecimal]
    rfl
  · simp only [List.length_cons, List.length_drop] at hlen ⊢
    omega

/-- Every message with a color of two digits and a text is encoded by stores inside the
buffer and decoded to itself, and every string that is decoded and not longer than a message
is encoded to itself. -/
theorem message_round_trip :
    (∀ (msg old : P2sMsg) (text : List Byte), TwoDigits msg.color →
      cstring msg.buffer.bytes = some text → text ≠ [] →
      (∃ e, encoding msg = some e ∧ e.ret = 0 ∧ (∀ s ∈ e.stores, s.1 + s.2.length ≤ p2sSizeMsg) ∧
        ∀ buffer, p2sMsgToString msg = some (storeEach buffer e.stores)) ∧
      ∃ buffer s, p2sMsgToString msg = some buffer ∧ cstring buffer.bytes = some s ∧
        s.length = 2 + text.length ∧ ∀ mem, cstring mem = some s →
          ∃ m, p2sMsgToMsg old mem = some (0, m) ∧ m.color = msg.color ∧
            cstring m.buffer.bytes = some text) ∧
    ∀ (mem s : List Byte) (old m : P2sMsg), cstring mem = some s → s.length ≤ p2sKmsgSize + 1 →
      p2sMsgToMsg old mem = some (0, m) →
        ∃ buffer, p2sMsgToString m = some buffer ∧ cstring buffer.bytes = some s := by
  constructor
  · intro msg old text hcolor htext hne
    obtain ⟨buffer, hbuffer, hstr⟩ := p2sMsgToString_text hcolor htext
    refine ⟨stores_inside hcolor htext, buffer, _, hbuffer, hstr, ?_, fun mem hmem => ?_⟩
    · rw [List.length_append, hcolor.decimal_length]
    · exact p2sMsgToMsg_text hcolor hmem hne (text_length htext).2 old
  · intro mem s old m hmem hlen h
    obtain ⟨text, rfl, hcolor, htext⟩ := accepted_text hmem h hlen
    exact p2sMsgToString_text hcolor htext

/-- A green message, and a string that is decoded to a yellow one. -/
theorem message_round_trip_green :
    (∃ buffer, p2sMsgToString (psp2shellPrintColor .green [49, 50]) = some buffer ∧
      ∃ m, p2sMsgToMsg ⟨0, Buffer.zero _⟩ buffer.bytes = some (0, m) ∧ m.color = 13 ∧
        cstring m.buffer.bytes = some [49, 50]) ∧
    ∃ m buffer, p2sMsgToMsg ⟨0, Buffer.zero _⟩ [49, 50, 97, 0] = some (0, m) ∧
      p2sMsgToString m = some buffer ∧ cstring buffer.bytes = some [49, 50, 97] := by
  constructor
  · obtain ⟨-, buffer, s, hbuffer, hs, -, hdecode⟩ := message_round_trip.1
      (psp2shellPrintColor .green [49, 50]) ⟨0, Buffer.zero _⟩ [49, 50] (Color.twoDigits .green)
      (by decide +kernel) (by decide)
    exact ⟨buffer, hbuffer, hdecode _ hs⟩
  · have hmem : cstring [49, 50, 97, 0] = some [49, 50, 97] := by decide
    obtain ⟨buffer, hbuffer, hs⟩ :=
      message_round_trip.2 _ _ ⟨0, Buffer.zero _⟩ _ hmem (by decide) rfl
    exact ⟨_, buffer, rfl, hbuffer, hs⟩

end Psp2Shell.Msg
