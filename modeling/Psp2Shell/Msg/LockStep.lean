import Psp2Shell.Cmd.Loop
import Psp2Shell.Msg.Model

/-! The acknowledgements of a session: one for each printed message, in order, in exactly the runs
where the client's pieces of the stream are recognizable. -/

namespace Psp2Shell.Msg

open CLib Cmd

/-- Bytes that `msg_thread` acknowledges: the two digits of a color from `COL_RED` to `COL_HEX`, and
a byte of text. -/
def AckedHeader (bytes : List Byte) : Prop :=
  ∃ d x rest, bytes = 49 :: d :: x :: rest ∧ 49 ≤ d ∧ d ≤ 52 ∧ x ≠ 0

/-- A step of a session that keeps both sides in step: a message starts in the piece that the client
receives exactly when the piece reads as one that is acknowledged, the piece leaves room for a NUL
or holds one, and the server's wait does not time out. -/
def Recognizable (s : Session) : Event → Prop
  | .recv n =>
    (starts (s.wire.take n) ≠ [] ↔ AckedHeader ((s.wire.take n).map Prod.fst)) ∧
      ((s.wire.take n).length < p2sSizeMsg ∨ 0 ∈ (s.wire.take n).map Prod.fst)
  | .timeout => False
  | _ => True

theorem ackedHeader_cons {c d x : Byte} {rest : List Byte} :
    AckedHeader (c :: d :: x :: rest) ↔ c = 49 ∧ 49 ≤ d ∧ d ≤ 52 ∧ x ≠ 0 := by
  constructor
  · rintro ⟨d', x', rest', heq, h⟩
    obtain ⟨rfl, rfl, rfl, rfl⟩ : c = 49 ∧ d = d' ∧ x = x' ∧ rest = rest' := by simpa using heq
    exact ⟨rfl, h⟩
  · rintro ⟨rfl, h⟩
    exact ⟨d, x, rest, rfl, h⟩

instance decidableAckedHeader : ∀ bytes, Decidable (AckedHeader bytes)
  | [] | [_] | [_, _] => isFalse fun ⟨_, _, _, h, _⟩ => by simp at h
  | c :: d :: x :: _ => decidable_of_iff (c = 49 ∧ 49 ≤ d ∧ d ≤ 52 ∧ x ≠ 0) ackedHeader_cons.symm

instance decidableRecognizable (s : Session) : DecidablePred (Recognizable s)
  | .recv _ => inferInstanceAs (Decidable (_ ∧ _))
  | .timeout => isFalse id
  | .print .. | .raw _ | .reply => isTrue trivial

/-- The acknowledgement of each message from number 0 to number `n - 1`. -/
def ackUpTo (n : Nat) : List (List Nat) := (List.range n).map fun k => [k]

/-- The end of each wait for a message by its acknowledgement. -/
def releasedUpTo (n : Nat) : List (Nat × Option (List Nat)) :=
  (List.range n).map fun k => (k, some [k])

/-- The client has acknowledged each message that it has received, once and in order, and nothing
else; the wait for a message is ended by its acknowledgement, and while it lasts the message or its
acknowledgement is on its way. -/
structure LockStep (s : Session) : Prop where
  acked : s.ackLog ++ (starts s.wire).map (fun k => [k]) = ackUpTo s.sent
  released : s.released = releasedUpTo s.released.length
  awaited : ∀ k, s.waiting = some k → k ∈ starts s.wire ∨ [k] ∈ s.acks
  inside : s.overrun = false

/-! ### The codec -/

theorem p2sMsgSendMsg_print (color : Color) (text : List Byte) : ∃ a b rest,
    p2sMsgSendMsg (psp2shellPrintColor color text) = some (a :: b :: rest) := by
  have hlen : (snprintf p2sKmsgSize text).length < p2sKmsgSize := by
    rw [snprintf, List.length_take]
    simp only [p2sKmsgSize]
    omega
  have hstring := Buffer.cstring_zero_blit hlen.le (Or.inl hlen)
  obtain ⟨a, b, hcolor, ha, hb⟩ : ∃ a b, format [37, 105] [.int color.code] = [a, b] ∧
      a ≠ 0 ∧ b ≠ 0 := by
    cases color <;> exact ⟨_, _, rfl, by decide, by decide⟩
  generalize htail : snprintf (p2sSizeMsg - 2) (format [37, 115]
    [.str ((snprintf p2sKmsgSize text).takeWhile (· ≠ 0))]) = tail
  have hwidth : ([a, b] ++ (tail ++ [0])).length ≤ p2sSizeMsg := by
    rw [← htail, snprintf]
    simp only [List.length_append, List.length_take, List.length_cons, List.length_nil, p2sSizeMsg,
      p2sKmsgSize]
    omega
  have hnul : (0 : Byte) ∈ [a, b] ++ (tail ++ [0]) := by simp
  refine ⟨a, b, (tail ++ [0]).takeWhile (· ≠ 0), ?_⟩
  simp only [p2sMsgSendMsg, p2sMsgToString, psp2shellPrintColor, hstring, hcolor, htail,
    Option.bind_some]
  rw [show 2 = 0 + [a, b].length from rfl, Buffer.blit_blit,
    Buffer.cstring_zero_blit hwidth (Or.inr hnul)]
  simp [ha, hb]

theorem ackedHeader_received (c : List Byte) : AckedHeader c ↔ AckedHeader (received c) := by
  constructor
  · rintro ⟨d, x, rest, rfl, hlow, hhigh, hx⟩
    have hd : d ≠ 0 := by
      rintro rfl
      exact absurd hlow (by decide)
    refine ⟨d, x, received rest, ?_, hlow, hhigh, hx⟩
    simp [received, hd, hx]
  · rintro ⟨d, x, rest, hrest, hlow, hhigh, hx⟩
    obtain ⟨t, ht⟩ := received_isPrefix c
    exact ⟨d, x, rest ++ t, by rw [← ht, hrest]; rfl, hlow, hhigh, hx⟩

/-- The colors that are acknowledged, by their digits. -/
theorem ackedHeader_iff {s : List Byte} (hlen : 3 ≤ s.length) (hnul : 0 ∉ s) :
    AckedHeader s ↔ 11 ≤ typeValue s ∧ typeValue s ≤ 14 := by
  obtain ⟨a, b, x, rest, rfl⟩ : ∃ a b x rest, s = a :: b :: x :: rest := by
    match s, hlen with
    | a :: b :: x :: rest, _ => exact ⟨a, b, x, rest, rfl⟩
  have hx : x ≠ 0 := fun h => hnul (by simp [h])
  rw [typeValue_cons]
  constructor
  · rintro ⟨d, y, t, heq, hlow, hhigh, -⟩
    obtain ⟨rfl, rfl, rfl, rfl⟩ : a = 49 ∧ b = d ∧ x = y ∧ rest = t := by simpa using heq
    rw [UInt8.le_iff_toNat_le] at hlow hhigh
    have hb : isdigit b = true := isdigit_iff.mpr ⟨by simp at hlow; omega, by simp at hhigh; omega⟩
    rw [strtol_two_digits (by decide) hb]
    simp at hlow hhigh ⊢
    omega
  · rintro ⟨hlow, hhigh⟩
    have hdigits := isdigit_of_le_strtol (by omega : 10 ≤ strtol 32 [a, b])
    have ha := isdigit_iff.mp hdigits.1
    have hb := isdigit_iff.mp hdigits.2
    rw [strtol_two_digits hdigits.1 hdigits.2] at hlow hhigh
    have ha49 : a = 49 := UInt8.toNat_inj.mp (show a.toNat = 49 by omega)
    refine ⟨b, x, rest, by rw [ha49], ?_, ?_, hx⟩
    · rw [UInt8.le_iff_toNat_le]
      exact show 49 ≤ b.toNat by omega
    · rw [UInt8.le_iff_toNat_le]
      exact show b.toNat ≤ 52 by omega

theorem acknowledges_iff {m : P2sMsg} :
    acknowledges m = true ↔ 11 ≤ m.color ∧ m.color ≤ 14 := by
  simp only [acknowledges, Bool.or_eq_true, decide_eq_true_eq]
  simp only [Color.code]
  omega

/-- A received text that starts with a color and goes on. -/
def ReadsAsMsg (bs : List Byte) : Prop := 3 ≤ (received bs).length ∧ TypeDigits (received bs)

instance (bs : List Byte) : Decidable (ReadsAsMsg bs) := inferInstanceAs (Decidable (_ ∧ _))

section

variable {bs : List Byte}

/-- The message that is made of a received text. -/
def decodedMsg (bs : List Byte) : P2sMsg :=
  ⟨typeValue (received bs), (Buffer.zero _).blit 0 (strncpy ((received bs).drop 2) p2sKmsgSize)⟩

theorem p2sMsgReceive_msg (hsize : bs.length ≤ p2sSizeMsg) (hroom : bs.length < p2sSizeMsg ∨ 0 ∈ bs)
    (hmsg : ReadsAsMsg bs) (old : P2sMsg) :
    p2sMsgReceive old (.bytes bs) = some (0, decodedMsg bs) := by
  obtain ⟨hlen, hdigits⟩ := hmsg
  have hs : cstring (recvBuffer bs).bytes = some (received bs) :=
    Buffer.cstring_zero_blit hsize hroom
  have hbytes : 3 ≤ bs.length := hlen.trans (received_isPrefix bs).length_le
  have hcolor : ¬strtol 32 (strncpy (received bs) 2) < Color.none.code := by
    have hstart := (start_le_typeValue hdigits.two_le).mpr hdigits
    exact Int.not_lt.mpr hstart
  simp [p2sMsgReceive, Nat.not_lt.mpr hbytes, p2sMsgToMsg, hs, Nat.not_lt.mpr hlen,
    hcolor, decodedMsg, typeValue]

/-- A text that is no message is left in the buffer as it is. -/
theorem p2sMsgReceive_raw (hsize : bs.length ≤ p2sSizeMsg) (hroom : bs.length < p2sSizeMsg ∨ 0 ∈ bs)
    (hraw : ¬ReadsAsMsg bs) (old : P2sMsg) :
    ∃ color, p2sMsgReceive old (.bytes bs) =
      some (if bs = [] then p2sErrSocket else p2sErrInvalidMsg, ⟨color, rawText bs⟩) := by
  have hs : cstring (recvBuffer bs).bytes = some (received bs) :=
    Buffer.cstring_zero_blit hsize hroom
  by_cases hbytes : bs.length < 3
  · exact ⟨old.color, by simp [p2sMsgReceive, hbytes]⟩
  · have hne : bs ≠ [] := by
      rintro rfl
      exact hbytes (by decide)
    by_cases hlen : (received bs).length < 3
    · exact ⟨old.color, by simp [p2sMsgReceive, hbytes, p2sMsgToMsg, hs, hlen, hne]⟩
    · have hcolor : strtol 32 (strncpy (received bs) 2) < Color.none.code := by
        by_contra hno
        have hstart : CmdType.start.code ≤ typeValue (received bs) := Int.not_lt.mp hno
        exact hraw ⟨Nat.not_lt.mp hlen, (start_le_typeValue (by omega)).mp hstart⟩
      exact ⟨0, by simp [p2sMsgReceive, hbytes, p2sMsgToMsg, hs, hlen, hcolor, hne]⟩

theorem msgThread_msg (hsize : bs.length ≤ p2sSizeMsg) (hroom : bs.length < p2sSizeMsg ∨ 0 ∈ bs)
    (hmsg : ReadsAsMsg bs) (old : P2sMsg) : msgThread old (.bytes bs) = some (decodedMsg bs) := by
  rw [msgThread, p2sMsgReceive_msg hsize hroom hmsg]
  rfl

theorem msgThread_raw (hsize : bs.length ≤ p2sSizeMsg) (hroom : bs.length < p2sSizeMsg ∨ 0 ∈ bs)
    (hraw : ¬ReadsAsMsg bs) (old : P2sMsg) :
    msgThread old (.bytes bs) = some ⟨Color.none.code, rawText bs⟩ := by
  have hret : (if bs = [] then p2sErrSocket else p2sErrInvalidMsg) ≠ 0 := by
    split <;> decide
  obtain ⟨color, hreceive⟩ := p2sMsgReceive_raw hsize hroom hraw old
  simp only [msgThread, hreceive, if_pos hret]

/-- A buffer that is full of bytes other than NUL is read past its end. -/
theorem p2sMsgReceive_overrun (hsize : bs.length = p2sSizeMsg) (hnul : 0 ∉ bs) (old : P2sMsg) :
    p2sMsgReceive old (.bytes bs) = .none := by
  have hstring : cstring (recvBuffer bs).bytes = .none := by
    rw [cstring_eq_none, recvBuffer, Buffer.nul_mem_zero_blit hsize.le, not_or]
    exact ⟨by omega, hnul⟩
  have hbig : ¬bs.length < 3 := by
    rw [hsize]
    decide
  simp only [p2sMsgReceive, if_neg hbig, p2sMsgToMsg, hstring]

end

theorem msgThread_acknowledges {c : List Byte} (hsize : c.length ≤ p2sSizeMsg)
    (hroom : c.length < p2sSizeMsg ∨ 0 ∈ c) (msg : P2sMsg) :
    ∃ m, msgThread msg (.bytes c) = some m ∧ (acknowledges m = true ↔ AckedHeader c) := by
  rw [ackedHeader_received]
  by_cases hmsg : ReadsAsMsg c
  · refine ⟨decodedMsg c, msgThread_msg hsize hroom hmsg msg, ?_⟩
    rw [acknowledges_iff, ackedHeader_iff hmsg.1 (received_no_nul c)]
    rfl
  · refine ⟨_, msgThread_raw hsize hroom hmsg msg,
      iff_of_false (by simp [acknowledges, Color.code]) ?_⟩
    intro hheader
    have hlen : 3 ≤ (received c).length := by
      obtain ⟨d, x, rest, heq, -⟩ := hheader
      simp [heq]
    have hcolor := ((ackedHeader_iff hlen (received_no_nul c)).mp hheader).1
    exact hmsg ⟨hlen, (start_le_typeValue (by omega)).mp (le_trans (by decide) hcolor)⟩

/-! ### The wire -/

theorem starts_append (v w : List WireByte) : starts (v ++ w) = starts v ++ starts w :=
  List.filterMap_append

theorem starts_split (wire : List WireByte) (n : Nat) :
    starts (wire.take n) ++ starts (wire.drop n) = starts wire := by
  rw [← starts_append, List.take_append_drop]

theorem starts_plain (bytes : List Byte) : starts (bytes.map fun b => (b, .none)) = [] := by
  simp [starts]

theorem starts_message (k : Nat) (b : Byte) (bytes : List Byte) :
    starts (message k (b :: bytes)) = [k] := by
  have hrest := starts_plain bytes
  simp only [starts] at hrest
  simp [starts, message, hrest]

/-! ### The invariant -/

/-- The states of a session in step: no wait is on, or the last message is on its way and the server
waits for it, or its acknowledgement is. -/
inductive InStep (s : Session) : Prop
  | idle : s.waiting = .none → starts s.wire = [] → s.acks = [] → s.ackLog = ackUpTo s.sent →
      s.released = releasedUpTo s.sent → s.overrun = false → InStep s
  | sent {k : Nat} : s.waiting = some k → s.sent = k + 1 → starts s.wire = [k] → s.acks = [] →
      s.ackLog = ackUpTo k → s.released = releasedUpTo k → s.overrun = false → InStep s
  | answered {k : Nat} : s.waiting = some k → s.sent = k + 1 → starts s.wire = [] →
      s.acks = [[k]] → s.ackLog = ackUpTo (k + 1) → s.released = releasedUpTo k →
      s.overrun = false → InStep s

theorem ackUpTo_succ (n : Nat) : ackUpTo (n + 1) = ackUpTo n ++ [[n]] := by
  simp [ackUpTo, List.range_succ]

theorem releasedUpTo_succ (n : Nat) :
    releasedUpTo (n + 1) = releasedUpTo n ++ [(n, some [n])] := by
  simp [releasedUpTo, List.range_succ]

theorem releasedUpTo_length (n : Nat) : (releasedUpTo n).length = n := by
  simp [releasedUpTo]

theorem inStep_start (msg : P2sMsg) : InStep (Session.start msg) :=
  .idle rfl rfl rfl rfl rfl rfl

theorem InStep.lockStep {s : Session} (h : InStep s) : LockStep s := by
  cases h with
  | idle hwait hstarts hacks hlog hreleased hin =>
    refine ⟨by simp [hlog, hstarts], by rw [hreleased, releasedUpTo_length], ?_, hin⟩
    intro k hk
    rw [hwait] at hk
    cases hk
  | @sent k hwait hsent hstarts hacks hlog hreleased hin =>
    refine ⟨by rw [hlog, hstarts, hsent, ackUpTo_succ]; rfl,
      by rw [hreleased, releasedUpTo_length], ?_, hin⟩
    intro k' hk
    rw [hwait] at hk
    cases hk
    exact Or.inl (by simp [hstarts])
  | @answered k hwait hsent hstarts hacks hlog hreleased hin =>
    refine ⟨by simp [hlog, hstarts, hsent], by rw [hreleased, releasedUpTo_length], ?_, hin⟩
    intro k' hk
    rw [hwait] at hk
    cases hk
    exact Or.inr (by simp [hacks])

/-! ### Steps -/

theorem step_print {s t : Session} {color : Color} {text : List Byte}
    (h : step s (.print color text) = some t) : s.waiting = .none ∧ ∃ wire,
      starts wire = starts s.wire ++ [s.sent] ∧
      t = { s with wire := wire, waiting := some s.sent, sent := s.sent + 1 } := by
  obtain ⟨a, b, rest, hbytes⟩ := p2sMsgSendMsg_print color text
  simp only [step, hbytes] at h
  split at h
  · cases h
  · rename_i hwait
    cases h
    exact ⟨by simpa using hwait, _, by rw [starts_append, starts_message], rfl⟩

theorem step_recv {s t : Session} {n : Nat} (h : step s (.recv n) = some t)
    (hroom : (s.wire.take n).length < p2sSizeMsg ∨ 0 ∈ (s.wire.take n).map Prod.fst) :
    ∃ msg, (AckedHeader ((s.wire.take n).map Prod.fst) ∧ t = { s with
        wire := s.wire.drop n
        msg := msg
        acks := s.acks ++ [starts (s.wire.take n)]
        ackLog := s.ackLog ++ [starts (s.wire.take n)] }) ∨
      (¬AckedHeader ((s.wire.take n).map Prod.fst) ∧
        t = { s with wire := s.wire.drop n, msg := msg }) := by
  simp only [step] at h
  split at h
  · cases h
  · rename_i hn
    rw [not_or, not_or, not_lt, not_lt] at hn
    have hlen : (s.wire.take n).length = n := List.length_take_of_le hn.2.1
    have hsize : ((s.wire.take n).map Prod.fst).length ≤ p2sSizeMsg := by
      rw [List.length_map, hlen]
      exact hn.2.2
    obtain ⟨m, hm, hack⟩ :=
      msgThread_acknowledges hsize (by rw [List.length_map]; exact hroom) s.msg
    rw [hm] at h
    refine ⟨m, ?_⟩
    by_cases hacked : acknowledges m = true
    · simp only [if_pos hacked] at h
      cases h
      exact Or.inl ⟨hack.mp hacked, rfl⟩
    · simp only [if_neg hacked] at h
      cases h
      exact Or.inr ⟨fun hh => hacked (hack.mpr hh), rfl⟩

theorem step_recv_overrun {s t : Session} {n : Nat} (h : step s (.recv n) = some t)
    (hroom : ¬((s.wire.take n).length < p2sSizeMsg ∨ 0 ∈ (s.wire.take n).map Prod.fst)) :
    t.overrun = true := by
  rw [not_or] at hroom
  simp only [step] at h
  split at h
  · cases h
  · rename_i hn
    rw [not_or, not_or, not_lt, not_lt] at hn
    have hlen : (s.wire.take n).length = n := List.length_take_of_le hn.2.1
    have hfull : ((s.wire.take n).map Prod.fst).length = p2sSizeMsg := by
      rw [List.length_map]
      omega
    have hnone : msgThread s.msg (.bytes ((s.wire.take n).map Prod.fst)) = .none := by
      rw [msgThread, p2sMsgReceive_overrun hfull hroom.2]
    rw [hnone] at h
    cases h
    rfl

theorem step_reply {s t : Session} (h : step s .reply = some t) : ∃ k a acks,
    s.waiting = some k ∧ s.acks = a :: acks ∧
      t = { s with acks := acks, waiting := .none, released := s.released ++ [(k, some a)] } := by
  simp only [step] at h
  split at h
  · rename_i k a acks hk ha
    cases h
    exact ⟨k, a, acks, hk, ha, rfl⟩
  · cases h

theorem step_timeout {s t : Session} (h : step s .timeout = some t) : ∃ k,
    t = { s with waiting := .none, released := s.released ++ [(k, .none)] } := by
  simp only [step] at h
  split at h
  · rename_i k hk
    cases h
    exact ⟨k, rfl⟩
  · cases h

/-- A `recv` of a recognizable piece keeps a session in step. -/
theorem InStep.recv {s t : Session} {n : Nat} (h : InStep s) (hc : Recognizable s (.recv n))
    (hstep : step s (.recv n) = some t) : InStep t := by
  obtain ⟨hiff, hroom⟩ := hc
  obtain ⟨msg, hcases⟩ := step_recv hstep hroom
  have hsplit := starts_split s.wire n
  rw [← hiff] at hcases
  cases h with
  | idle hwait hstarts hacks hlog hreleased hin =>
    rw [hstarts, List.append_eq_nil_iff] at hsplit
    obtain ⟨hstart, -⟩ | ⟨-, rfl⟩ := hcases
    · exact absurd hsplit.1 hstart
    · exact .idle hwait hsplit.2 hacks hlog hreleased hin
  | @sent k hwait hsent hstarts hacks hlog hreleased hin =>
    rw [hstarts] at hsplit
    obtain ⟨hstart, rfl⟩ | ⟨hno, rfl⟩ := hcases
    · obtain ⟨hfirst, hrest⟩ : starts (s.wire.take n) = [k] ∧ starts (s.wire.drop n) = [] := by
        rcases List.append_eq_singleton_iff.mp hsplit with ⟨hnil, -⟩ | hboth
        · exact absurd hnil hstart
        · exact hboth
      exact .answered hwait hsent hrest (by simp [hacks, hfirst])
        (by simp [hlog, hfirst, ackUpTo_succ]) hreleased hin
    · rw [not_not] at hno
      rw [hno, List.nil_append] at hsplit
      exact .sent hwait hsent hsplit hacks hlog hreleased hin
  | @answered k hwait hsent hstarts hacks hlog hreleased hin =>
    rw [hstarts, List.append_eq_nil_iff] at hsplit
    obtain ⟨hstart, -⟩ | ⟨-, rfl⟩ := hcases
    · exact absurd hsplit.1 hstart
    · exact .answered hwait hsent hsplit.2 hacks hlog hreleased hin

theorem InStep.step {s t : Session} {e : Event} (h : InStep s) (hc : Recognizable s e)
    (hstep : step s e = some t) : InStep t := by
  cases e with
  | print color text =>
    obtain ⟨hidle, wire, hwire, rfl⟩ := step_print hstep
    cases h with
    | idle hwait hstarts hacks hlog hreleased hin =>
      exact .sent rfl rfl (by rw [hwire, hstarts]; rfl) hacks hlog hreleased hin
    | sent hwait | answered hwait =>
      rw [hidle] at hwait
      cases hwait
  | raw text =>
    cases hstep
    have hwire : starts (s.wire ++ rawBytes text) = starts s.wire := by
      rw [starts_append, rawBytes, starts_plain, List.append_nil]
    cases h with
    | idle hwait hstarts hacks hlog hreleased hin =>
      exact .idle hwait (hwire.trans hstarts) hacks hlog hreleased hin
    | sent hwait hsent hstarts hacks hlog hreleased hin =>
      exact .sent hwait hsent (hwire.trans hstarts) hacks hlog hreleased hin
    | answered hwait hsent hstarts hacks hlog hreleased hin =>
      exact .answered hwait hsent (hwire.trans hstarts) hacks hlog hreleased hin
  | recv n => exact h.recv hc hstep
  | reply =>
    obtain ⟨k, a, acks, hk, ha, rfl⟩ := step_reply hstep
    cases h with
    | idle hwait =>
      rw [hwait] at hk
      cases hk
    | sent hwait hsent hstarts hacks =>
      rw [hacks] at ha
      cases ha
    | answered hwait hsent hstarts hacks hlog hreleased hin =>
      rw [hwait] at hk
      rw [hacks] at ha
      cases hk
      cases ha
      exact .idle rfl hstarts rfl (by rw [hlog, hsent])
        (by simp [hreleased, hsent, releasedUpTo_succ]) hin
  | timeout => exact hc.elim

theorem guards : Guards step InStep LockStep Recognizable :=
  ⟨InStep.step, InStep.lockStep⟩

/-- A step that is not recognizable leaves a session that is not in lock-step. -/
theorem not_lockStep {s t : Session} {e : Event} (h : InStep s) (hc : ¬Recognizable s e)
    (hstep : step s e = some t) : ¬LockStep t := by
  intro hlock
  cases e with
  | print color text => exact hc trivial
  | raw text => exact hc trivial
  | reply => exact hc trivial
  | timeout =>
    obtain ⟨k, rfl⟩ := step_timeout hstep
    have hmem : (k, Option.none) ∈ releasedUpTo (s.released ++ [(k, Option.none)]).length := by
      rw [← hlock.released]
      simp
    simp [releasedUpTo] at hmem
  | recv n =>
    by_cases hroom : (s.wire.take n).length < p2sSizeMsg ∨ 0 ∈ (s.wire.take n).map Prod.fst
    · obtain ⟨msg, ⟨hheader, rfl⟩ | ⟨hheader, rfl⟩⟩ := step_recv hstep hroom
      · -- an acknowledgement for a piece in which no message starts
        have hno : starts (s.wire.take n) = [] := by
          by_contra hstart
          exact hc ⟨iff_of_true hstart hheader, hroom⟩
        have hmem : [] ∈ ackUpTo s.sent := by
          rw [← hlock.acked]
          simp [hno]
        simp [ackUpTo] at hmem
      · -- no acknowledgement for a piece in which a message starts
        have hstart : starts (s.wire.take n) ≠ [] := by
          intro hno
          exact hc ⟨iff_of_false (not_not.mpr hno) hheader, hroom⟩
        have hacked := congrArg List.length hlock.acked
        have hbefore := congrArg List.length h.lockStep.acked
        have hsplit := congrArg List.length (starts_split s.wire n)
        have hpos := List.length_pos_iff.mpr hstart
        simp only [List.length_append, List.length_map] at hacked hbefore hsplit
        omega
    · have hover := step_recv_overrun hstep hroom
      rw [hlock.inside] at hover
      cases hover

/-- A run of a session is in lock-step in every state exactly when each of its steps is
recognizable. -/
theorem lock_step_iff (msg : P2sMsg) {es : List Event}
    (hrun : (run step (Session.start msg) es).isSome = true) :
    Always step LockStep (Session.start msg) es ↔
      EachStep step Recognizable (Session.start msg) es := by
  obtain ⟨t, ht⟩ := Option.isSome_iff_exists.mp hrun
  exact guards.always_iff not_lockStep (inStep_start msg) ht

/-- Two messages, with a raw text behind the first one in its piece and raw texts of their own. -/
theorem lock_step_green : Always step LockStep (Session.start ⟨0, Buffer.zero _⟩)
    [.print .green [97], .raw [98], .recv 4, .raw [99], .reply, .recv 1, .raw [100],
      .print .red [101, 102], .recv 1, .recv 4, .reply] :=
  (lock_step_iff ⟨0, Buffer.zero _⟩ (by decide +kernel)).mpr (by decide +kernel)

/-- A message of color `COL_NONE` is not acknowledged, and a raw text that starts with `11` is. -/
theorem lock_step_lost :
    (∃ t, run step (Session.start ⟨0, Buffer.zero _⟩) [.print .none [97], .recv 3] = some t ∧
      t.waiting = some 0 ∧ t.wire = [] ∧ t.acks = [] ∧ ¬LockStep t) ∧
    ∃ t, run step (Session.start ⟨0, Buffer.zero _⟩) [.raw [49, 49, 97], .recv 3] = some t ∧
      t.sent = 0 ∧ t.ackLog = [[]] ∧ ¬LockStep t := by
  constructor
  · have hend : (run step (Session.start ⟨0, Buffer.zero _⟩) [.print .none [97], .recv 3]).map
        (fun t => (t.waiting, t.wire, t.acks)) = some (some 0, [], []) := by decide +kernel
    obtain ⟨t, ht, hfields⟩ := Option.map_eq_some_iff.mp hend
    simp only [Prod.mk.injEq] at hfields
    obtain ⟨hwait, hwire, hacks⟩ := hfields
    refine ⟨t, ht, hwait, hwire, hacks, fun h => ?_⟩
    rcases h.awaited 0 hwait with hmem | hmem
    · simp [hwire, starts] at hmem
    · simp [hacks] at hmem
  · have hend : (run step (Session.start ⟨0, Buffer.zero _⟩) [.raw [49, 49, 97], .recv 3]).map
        (fun t => (t.sent, t.ackLog)) = some (0, [[]]) := by decide +kernel
    obtain ⟨t, ht, hfields⟩ := Option.map_eq_some_iff.mp hend
    simp only [Prod.mk.injEq] at hfields
    obtain ⟨hsent, hlog⟩ := hfields
    refine ⟨t, ht, hsent, hlog, fun h => ?_⟩
    have hacked := congrArg List.length h.acked
    simp [hlog, hsent, ackUpTo] at hacked

end Psp2Shell.Msg
