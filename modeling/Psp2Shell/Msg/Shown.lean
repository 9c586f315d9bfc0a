import Psp2Shell.Cli.Line
import Psp2Shell.Cmd.Loop
import Psp2Shell.Msg.LockStep
import Psp2Shell.Msg.RoundTrip

/-! What the client's `msg_thread` does with what it has received: the text that it prints, the byte
that it sends back, and its accesses to the message. -/

namespace Psp2Shell.Msg

open CLib Cmd

def isprint (b : Byte) : Bool := 32 ≤ b && b ≤ 126

def newline : Byte := 10

/-- `RES`, `RED`, `GRN` and `YEL`. -/
def resetCode : List Byte := 27 :: ascii "[0m"
def redCode : List Byte := 27 :: ascii "[31m"
def greenCode : List Byte := 27 :: ascii "[32m"
def yellowCode : List Byte := 27 :: ascii "[33m"

/-- The four characters of a token of `print_hex`, on a host where `long` has 64 bits. -/
def hexChars (token : List Byte) : List Byte :=
  let hex := strtoul 64 16 token % 2 ^ 32
  [hex / 2 ^ 24, hex / 2 ^ 16, hex / 2 ^ 8, hex].map fun v =>
    if isprint (UInt8.ofNat v) then UInt8.ofNat v else 46

/-- `print_hex`: what it prints, and the line without its last byte. -/
def printHex (line : Buffer p2sKmsgSize) : Option (List Byte × Buffer p2sKmsgSize) := do
  let s ← line.str
  let tokens := Cli.strsplit s (ascii " ")
  if tokens.length = 5 then
    let line ← if s.length = 0 then none else line.setByte (s.length - 1) 0
    let s ← line.str
    return (greenCode ++ s ++ ascii " | " ++ (tokens.drop 1).flatMap hexChars ++
      [newline] ++ resetCode, line)
  else return ([], line)

/-- What becomes of a message: the bytes that are printed, those that are sent back, what is left in
`msg.buffer`, and whether the prompt is drawn again. -/
structure Shown where
  printed : List Byte
  reply : List Byte
  buffer : Buffer p2sKmsgSize
  refreshed : Bool

/-- `printf("%s")` between a color's code and `RES`. -/
def printColored (code : List Byte) (buffer : Buffer p2sKmsgSize) :
    Option (List Byte × List Byte × Buffer p2sKmsgSize) :=
  buffer.str.map fun s => (code ++ s ++ resetCode, [newline], buffer)

/-- The `switch` of `msg_thread`. -/
def switch (msg : P2sMsg) : Option (List Byte × List Byte × Buffer p2sKmsgSize) :=
  if msg.color = Color.red.code then printColored redCode msg.buffer
  else if msg.color = Color.yellow.code then printColored yellowCode msg.buffer
  else if msg.color = Color.green.code then printColored greenCode msg.buffer
  else if msg.color = Color.hex.code then
    (printHex msg.buffer).map fun (printed, line) => (printed, [newline], line)
  else msg.buffer.str.map fun s => (s, [], msg.buffer)

/-- The `switch` and the test of the last byte; `none` when a string has no NUL, or when the byte
before an empty one is read. -/
def display (msg : P2sMsg) : Option Shown := do
  let (printed, reply, buffer) ← switch msg
  let s ← buffer.str
  let last ← s.getLast?
  return ⟨printed, reply, buffer, last = newline⟩

inductive Iteration
  | ended
  | shown (s : Shown)

/-- An iteration of the loop of `msg_thread`. -/
def iteration (msg : P2sMsg) (r : Recv) : Option Iteration :=
  match p2sMsgReceive msg r with
  | .none => .none
  | some (ret, msg) =>
    if ret = p2sErrSocket then some .ended
    else (display (if ret ≠ 0 then { msg with color := Color.none.code } else msg)).map .shown

/-- An iteration that does not end the loop shows what `msgThread` has. -/
theorem iteration_msgThread {msg : P2sMsg} {bs : List Byte} (hne : bs ≠ []) :
    iteration msg (.bytes bs) = (msgThread msg (.bytes bs)).bind fun m =>
      (display m).map .shown := by
  have hinvalid : p2sErrInvalidMsg ≠ p2sErrSocket := by decide
  have hzero : (0 : Int) ≠ p2sErrSocket := by decide
  unfold iteration msgThread
  have hret : ∀ ret m, p2sMsgReceive msg (.bytes bs) = some (ret, m) → ret ≠ p2sErrSocket := by
    intro ret m h
    have hlen : bs.length ≠ 0 := by simpa using hne
    simp only [p2sMsgReceive, if_neg hlen] at h
    split at h
    · cases h
      exact hinvalid
    · split at h
      · cases h
      · split at h
        · cases h
          exact hzero
        · cases h
          exact hinvalid
  cases hreceive : p2sMsgReceive msg (.bytes bs) with
  | none => rfl
  | some r =>
    obtain ⟨ret, m⟩ := r
    simp only [if_neg (hret ret m hreceive), Option.bind_some]

/-! ### What is received -/

theorem recvBuffer_takeWhile {bs : List Byte} (hsize : bs.length ≤ p2sSizeMsg) :
    (recvBuffer bs).bytes.takeWhile (· ≠ 0) = received bs := by
  rw [recvBuffer, Buffer.zero_blit _ hsize, received, List.takeWhile_append]
  split
  · next hall =>
    have hself := (List.takeWhile_prefix (fun b : Byte => decide (b ≠ 0))).eq_of_length hall
    rw [List.takeWhile_replicate, hself]
    simp
  · rfl

/-- What is left of a text that is no message: all of it, when there is room for its NUL. -/
theorem rawText_str {bs : List Byte} (hsize : bs.length ≤ p2sSizeMsg) :
    (rawText bs).str = if (received bs).length < p2sKmsgSize then some (received bs) else none := by
  have hnul : 0 ∉ (received bs).take p2sKmsgSize :=
    fun h => received_no_nul bs (List.mem_of_mem_take h)
  rw [rawText, ← List.take_takeWhile, recvBuffer_takeWhile hsize, Buffer.str_strncpy hnul,
    List.length_take]
  by_cases hlen : (received bs).length < p2sKmsgSize
  · rw [if_pos hlen, if_pos (by omega), List.take_of_length_le hlen.le]
  · rw [if_neg hlen, if_neg (by omega)]

variable {bs : List Byte} {old : P2sMsg}

theorem decodedMsg_str (bs : List Byte) : (decodedMsg bs).buffer.str =
    if ((received bs).drop 2).length < p2sKmsgSize then some ((received bs).drop 2) else none :=
  Buffer.str_strncpy fun h => received_no_nul bs (List.mem_of_mem_drop h)

/-! ### What is shown -/

/-- `print_hex` stays in a line that is a string, and leaves of it more than nothing. -/
theorem printHex_spec {line : Buffer p2sKmsgSize} {s : List Byte} (hs : line.str = some s)
    (hne : s ≠ []) :
    ∃ printed line' s', printHex line = some (printed, line') ∧ line'.str = some s' ∧ s' ≠ [] := by
  by_cases htokens : (Cli.strsplit s (ascii " ")).length = 5
  · have hlen := Cli.strsplit_length_le s (ascii " ")
    have hpos : s.length ≠ 0 := by omega
    obtain ⟨line', hcut, hs'⟩ := Buffer.str_setByte hs (Nat.sub_le s.length 1)
    obtain ⟨printed, hprinted⟩ : ∃ printed, printHex line = some (printed, line') := by
      simp only [printHex, hs, Option.bind_eq_bind, Option.bind_some, if_pos htokens,
        if_neg hpos, hcut, hs']
      exact ⟨_, rfl⟩
    refine ⟨printed, line', _, hprinted, hs', ?_⟩
    rw [← List.length_pos_iff, List.length_take]
    omega
  · exact ⟨[], line, s, by simp [printHex, hs, htokens], hs, hne⟩

/-- A string that is not empty is shown, with an answer to a color that is acknowledged; another
color shows it as it is. -/
theorem display_spec {msg : P2sMsg} {s : List Byte} (hs : msg.buffer.str = some s) (hne : s ≠ []) :
    ∃ shown, display msg = some shown ∧ shown.reply = (if acknowledges msg then [newline] else []) ∧
      (acknowledges msg = false → shown.printed = s) := by
  obtain ⟨last, hlast⟩ : ∃ last, s.getLast? = some last := ⟨_, List.getLast?_eq_some_getLast hne⟩
  have hcolored : ∀ code, printColored code msg.buffer =
      some (code ++ s ++ resetCode, [newline], msg.buffer) := fun code => by simp [printColored, hs]
  by_cases hack : acknowledges msg = true
  · obtain ⟨printed, line', s', hhex, hs', hne'⟩ := printHex_spec hs hne
    obtain ⟨last', hlast'⟩ : ∃ last, s'.getLast? = some last :=
      ⟨_, List.getLast?_eq_some_getLast hne'⟩
    rw [if_pos hack]
    simp only [acknowledges, Bool.or_eq_true, decide_eq_true_eq] at hack
    unfold display switch
    rcases hack with ((hcolor | hcolor) | hcolor) | hcolor
    · exact ⟨_, by simp [hcolor, hcolored, hs, hlast]; rfl, rfl, by simp [acknowledges, hcolor]⟩
    · exact ⟨_, by simp [hcolor, hcolored, hs, hlast, Color.code]; rfl,
        rfl, by simp [acknowledges, hcolor]⟩
    · exact ⟨_, by simp [hcolor, hcolored, hs, hlast, Color.code]; rfl,
        rfl, by simp [acknowledges, hcolor]⟩
    · exact ⟨_, by simp [hcolor, hhex, hs', hlast', Color.code]; rfl,
        rfl, by simp [acknowledges, hcolor]⟩
  · rw [if_neg hack]
    simp only [acknowledges, Bool.or_eq_true, decide_eq_true_eq, not_or] at hack
    obtain ⟨⟨⟨hred, hyellow⟩, hgreen⟩, hhex⟩ := hack
    refine ⟨⟨s, [], msg.buffer, last = newline⟩, ?_, rfl, fun _ => rfl⟩
    simp [display, switch, hred, hyellow, hgreen, hhex, hs, hlast]

/-- Of an empty text, the byte before the buffer is read. -/
theorem display_empty {msg : P2sMsg} (hs : msg.buffer.str = some []) : display msg = none := by
  have htokens : Cli.strsplit [] (ascii " ") = [[]] := Cli.strsplit_token (by simp)
  have hhex : printHex msg.buffer = some ([], msg.buffer) := by simp [printHex, hs, htokens]
  have hswitch : ∃ printed reply, switch msg = some (printed, reply, msg.buffer) := by
    unfold switch
    simp only [printColored, hs, hhex, Option.map_some]
    split_ifs <;> exact ⟨_, _, rfl⟩
  obtain ⟨printed, reply, hswitch⟩ := hswitch
  simp [display, hswitch, hs]

/-! ### Raw output -/

/-- The bytes are not taken for a message: they are printed as they are, and
nothing is sent back. -/
def ShownUnchanged (old : P2sMsg) (bs : List Byte) : Prop :=
  (∃ msg, p2sMsgReceive old (.bytes bs) = some (p2sErrInvalidMsg, msg)) ∧
    ∃ shown, iteration old (.bytes bs) = some (.shown shown) ∧ shown.printed = bs ∧ shown.reply = []

theorem shownUnchanged_of_raw (hnul : 0 ∉ bs) (hne : bs ≠ []) (hlen : bs.length < p2sKmsgSize)
    (hraw : ¬ReadsAsMsg bs) (old : P2sMsg) : ShownUnchanged old bs := by
  have hroom : bs.length < p2sSizeMsg := by
    simp only [p2sSizeMsg]
    omega
  obtain ⟨color, hreceive⟩ := p2sMsgReceive_raw hroom.le (Or.inl hroom) hraw old
  rw [if_neg hne] at hreceive
  have hstr : (rawText bs).str = some bs := by
    rw [rawText_str hroom.le, received_of_no_nul hnul, if_pos hlen]
  obtain ⟨shown, hshown, hreply, hprinted⟩ :=
    @display_spec ⟨Color.none.code, rawText bs⟩ bs hstr hne
  refine ⟨⟨_, hreceive⟩, shown, ?_, hprinted rfl, hreply⟩
  rw [iteration_msgThread hne, msgThread_raw hroom.le (Or.inl hroom) hraw, Option.bind_some, hshown]
  rfl

theorem not_shownUnchanged_of_msg (hlen : bs.length < p2sKmsgSize) (hmsg : ReadsAsMsg bs)
    (old : P2sMsg) :
    ¬ShownUnchanged old bs := by
  have hroom : bs.length < p2sSizeMsg := by
    simp only [p2sSizeMsg]
    omega
  rintro ⟨⟨msg, hreceive⟩, -⟩
  rw [p2sMsgReceive_msg hroom.le (Or.inl hroom) hmsg] at hreceive
  have hret : 0 = p2sErrInvalidMsg := (Prod.ext_iff.mp (Option.some.inj hreceive)).1
  exact absurd hret (by decide)

/-- A raw text is shown unchanged exactly when it does not go on behind two digits, the
first of them not `0`. -/
theorem raw_shown_iff (hnul : 0 ∉ bs) (hne : bs ≠ []) (hlen : bs.length < p2sKmsgSize)
    (old : P2sMsg) :
    ShownUnchanged old bs ↔ ¬(3 ≤ bs.length ∧ TypeDigits bs) := by
  have hreads : ReadsAsMsg bs ↔ 3 ≤ bs.length ∧ TypeDigits bs := by
    rw [ReadsAsMsg, received_of_no_nul hnul]
  rw [← hreads]
  exact ⟨fun h hmsg => not_shownUnchanged_of_msg hlen hmsg old h,
    fun hraw => shownUnchanged_of_raw hnul hne hlen hraw old⟩

/-- A text without a number in front. -/
theorem raw_shown_hello : ShownUnchanged ⟨0, Buffer.zero _⟩ (ascii "hello\n") :=
  (raw_shown_iff (by decide) (by decide) (by decide) _).mpr (by decide)

/-- A program prints `100 files`: the client takes it for a message of the color
`10` and loses the `10`. -/
theorem raw_shown_number : ¬ShownUnchanged ⟨0, Buffer.zero _⟩ (ascii "100 files\n") ∧
    msgThread ⟨0, Buffer.zero _⟩ (.bytes (ascii "100 files\n")) =
      some ⟨10, (Buffer.zero _).blit 0 (strncpy (ascii "0 files\n") p2sKmsgSize)⟩ := by
  have hmsg : ReadsAsMsg (ascii "100 files\n") := by decide
  refine ⟨not_shownUnchanged_of_msg (by decide) hmsg _, ?_⟩
  rw [msgThread_msg (by decide) (Or.inl (by decide)) hmsg]
  rfl

/-! ### Received messages as strings -/

/-- No string function reads past what has been received, and unless this ends the loop, the message
is a string, and every access of the iteration lies in it. -/
def Printable (old : P2sMsg) (bs : List Byte) : Prop :=
  ∃ ret msg, p2sMsgReceive old (.bytes bs) = some (ret, msg) ∧
    (ret ≠ p2sErrSocket → 0 ∈ msg.buffer.bytes ∧ ∃ i, iteration old (.bytes bs) = some i)

/-- The received text is not empty, and it leaves room for its NUL behind its
color, or without one. -/
def FitsMsg (bs : List Byte) : Prop :=
  received bs ≠ [] ∧
    (received bs).length < if TypeDigits (received bs) then p2sKmsgSize + 2 else p2sKmsgSize

instance (bs : List Byte) : Decidable (FitsMsg bs) := inferInstanceAs (Decidable (_ ∧ _))

theorem nul_mem_iff {n : Nat} {b : Buffer n} : 0 ∈ b.bytes ↔ b.str ≠ none := by
  rw [Buffer.str, ne_eq, cstring_eq_none, not_not]

/-- What an iteration shows of a message whose string is `s`, and `none` when it has none. -/
theorem printable_iff_display {ret : Int} {msg m : P2sMsg} (hne : bs ≠ [])
    (hreceive : p2sMsgReceive old (.bytes bs) = some (ret, msg)) (hret : ret ≠ p2sErrSocket)
    (hthread : msgThread old (.bytes bs) = some m) (hbuffer : m.buffer = msg.buffer) :
    Printable old bs ↔ ∃ s, msg.buffer.str = some s ∧ s ≠ [] := by
  have hiteration : iteration old (.bytes bs) = _ := iteration_msgThread hne
  rw [hthread, Option.bind_some] at hiteration
  constructor
  · rintro ⟨ret', msg', hreceive', himplies⟩
    obtain ⟨rfl, rfl⟩ : ret = ret' ∧ msg = msg' := by simpa [hreceive] using hreceive'
    obtain ⟨hnul, i, hi⟩ := himplies hret
    obtain ⟨s, hs⟩ := Option.ne_none_iff_exists'.mp (nul_mem_iff.mp hnul)
    refine ⟨s, hs, ?_⟩
    rintro rfl
    rw [hiteration, display_empty (hbuffer ▸ hs)] at hi
    cases hi
  · rintro ⟨s, hs, hsne⟩
    obtain ⟨shown, hshown, -⟩ := display_spec (hbuffer.symm ▸ hs) hsne
    refine ⟨ret, msg, hreceive, fun _ => ⟨nul_mem_iff.mpr (by simp [hs]), .shown shown, ?_⟩⟩
    rw [hiteration, hshown]
    rfl

theorem printable_msg (hsize : bs.length ≤ p2sSizeMsg) (hroom : bs.length < p2sSizeMsg ∨ 0 ∈ bs)
    (hmsg : ReadsAsMsg bs) (old : P2sMsg) : Printable old bs ↔ FitsMsg bs := by
  obtain ⟨hlen, hdigits⟩ := hmsg
  have hne : received bs ≠ [] := List.length_pos_iff.mp (by omega)
  have hbs : bs ≠ [] := by
    rintro rfl
    exact hne rfl
  have hrest : (received bs).drop 2 ≠ [] := by
    rw [← List.length_pos_iff, List.length_drop]
    omega
  rw [printable_iff_display hbs (p2sMsgReceive_msg hsize hroom ⟨hlen, hdigits⟩ old) (by decide)
    (msgThread_msg hsize hroom ⟨hlen, hdigits⟩ old) rfl, decodedMsg_str, FitsMsg, if_pos hdigits,
    List.length_drop]
  constructor
  · rintro ⟨s, hs, -⟩
    split at hs
    · exact ⟨hne, by omega⟩
    · cases hs
  · rintro ⟨-, hfits⟩
    exact ⟨_, if_pos (by omega), hrest⟩

theorem printable_raw (hsize : bs.length ≤ p2sSizeMsg) (hroom : bs.length < p2sSizeMsg ∨ 0 ∈ bs)
    (hbs : bs ≠ []) (hraw : ¬ReadsAsMsg bs) (old : P2sMsg) : Printable old bs ↔ FitsMsg bs := by
  obtain ⟨color, hreceive⟩ := p2sMsgReceive_raw hsize hroom hraw old
  rw [if_neg hbs] at hreceive
  rw [printable_iff_display hbs hreceive (by decide) (msgThread_raw hsize hroom hraw old) rfl,
    rawText_str hsize, FitsMsg]
  -- two digits and nothing behind them are a raw text, too
  have hbound : (received bs).length < p2sKmsgSize ↔
      (received bs).length < if TypeDigits (received bs) then p2sKmsgSize + 2 else p2sKmsgSize := by
    split
    · next hdigits =>
      have hshort : (received bs).length < 3 := Nat.not_le.mp fun hlen => hraw ⟨hlen, hdigits⟩
      simp only [p2sKmsgSize]
      omega
    · rfl
  rw [← hbound]
  constructor
  · rintro ⟨s, hs, hne⟩
    split at hs
    · next hlen =>
      exact ⟨Option.some.inj hs ▸ hne, hlen⟩
    · cases hs
  · rintro ⟨hne, hlen⟩
    exact ⟨_, if_pos hlen, hne⟩

theorem not_printable_full (hsize : bs.length = p2sSizeMsg) (hnul : 0 ∉ bs) (old : P2sMsg) :
    ¬Printable old bs := by
  rintro ⟨ret, msg, hreceive, -⟩
  rw [p2sMsgReceive_overrun hsize hnul] at hreceive
  cases hreceive

/-- What is received is printable exactly when nothing is, or a text that is not empty and
leaves room for its NUL. -/
theorem received_printable_iff (hsize : bs.length ≤ p2sSizeMsg) (old : P2sMsg) :
    Printable old bs ↔ bs = [] ∨ FitsMsg bs := by
  by_cases hbs : bs = []
  · subst hbs
    refine iff_of_true ⟨p2sErrSocket, _, rfl, fun h => absurd rfl h⟩ (Or.inl rfl)
  · rw [or_iff_right hbs]
    by_cases hroom : bs.length < p2sSizeMsg ∨ 0 ∈ bs
    · by_cases hmsg : ReadsAsMsg bs
      · exact printable_msg hsize hroom hmsg old
      · exact printable_raw hsize hroom hbs hmsg old
    · rw [not_or] at hroom
      have hfull : bs.length = p2sSizeMsg := by omega
      refine iff_of_false (not_printable_full hfull hroom.2 old) fun hfits => ?_
      have hlen := hfits.2
      rw [received_of_no_nul hroom.2, hfull] at hlen
      split at hlen
      · simp only [p2sSizeMsg] at hlen
        omega
      · simp only [p2sSizeMsg] at hlen
        omega

theorem received_printable_hello : Printable ⟨0, Buffer.zero _⟩ (ascii "hello") :=
  (received_printable_iff (by decide) _).mpr (Or.inr (by decide))

/-- A NUL in front, 4096 bytes without a color, and a full buffer. -/
theorem received_unprintable :
    ¬Printable ⟨0, Buffer.zero _⟩ [0] ∧ ¬Printable ⟨0, Buffer.zero _⟩
      (List.replicate p2sKmsgSize 97) ∧ ¬Printable ⟨0, Buffer.zero _⟩
      (List.replicate p2sSizeMsg 97) := by
  have hplain : ∀ n, 0 ∉ List.replicate n (97 : Byte) := fun n h => by
    exact absurd (List.eq_of_mem_replicate h) (by decide)
  have hraw : ¬TypeDigits (List.replicate p2sKmsgSize 97) := by
    rintro ⟨a, b, rest, heq, ha, -⟩
    rw [show p2sKmsgSize = 4095 + 1 from rfl, List.replicate_succ, List.cons.injEq] at heq
    rw [← heq.1] at ha
    exact absurd ha (by decide)
  refine ⟨fun h => ?_, fun h => ?_, not_printable_full List.length_replicate (hplain _) _⟩
  · have hfits := (printable_raw (by decide) (Or.inl (by decide)) (by decide) (by decide) _).mp h
    exact absurd hfits (by decide)
  · have hsize : (List.replicate p2sKmsgSize (97 : Byte)).length < p2sSizeMsg := by
      rw [List.length_replicate]
      decide
    have hnot : ¬ReadsAsMsg (List.replicate p2sKmsgSize 97) := by
      rw [ReadsAsMsg, received_of_no_nul (hplain _)]
      exact fun hmsg => hraw hmsg.2
    have hfits := (printable_raw hsize.le (Or.inl hsize) (List.cons_ne_nil _ _) hnot _).mp h
    have hlen := hfits.2
    rw [received_of_no_nul (hplain _), if_neg hraw, List.length_replicate] at hlen
    exact absurd hlen (lt_irrefl _)

end Psp2Shell.Msg
