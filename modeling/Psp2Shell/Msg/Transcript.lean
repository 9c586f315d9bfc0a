import Psp2Shell.Msg.Shown

/-! What a session puts on the client's screen: the printed texts in their colors and the
raw ones between them, each once and in order, when each `recv` of `msg_thread` returns
what one `send` has sent. -/

namespace Psp2Shell.Msg

open CLib Cmd

/-- What the server has sent in one piece: message number `k`, or a raw text of `thread_kbuf`. -/
inductive Line
  | print (k : Nat) (color : Color) (text : List Byte)
  | raw (text : List Byte)

/-- A text on the screen, in its color; `print_hex` shows lines of five words only. -/
def rendered : Color → List Byte → List Byte
  | .none, s => s
  | .red, s => redCode ++ s ++ resetCode
  | .yellow, s => yellowCode ++ s ++ resetCode
  | .green, s => greenCode ++ s ++ resetCode
  | .hex, s =>
    let tokens := Cli.strsplit s (ascii " ")
    if tokens.length = 5 then
      greenCode ++ s.dropLast ++ ascii " | " ++ (tokens.drop 1).flatMap hexChars ++
        [newline] ++ resetCode
    else []

namespace Line

def wire : Line → List WireByte
  | print k color text => message k (decimal color.code ++ snprintf p2sKmsgSize text)
  | raw text => rawBytes text

def shown : Line → List Byte
  | print _ color text => rendered color (snprintf p2sKmsgSize text)
  | raw text => text

def isPrint : Line → Bool
  | print .. => true
  | raw _ => false

/-- A text that the client can tell from its neighbours: `PRINT_OK`, `PRINT_ERR` and the lines of
`cmd_memr` have a color that is acknowledged, and a raw text is not taken for a message. -/
def Sayable : Line → Prop
  | print _ color text => color ≠ .none ∧ text ≠ [] ∧ 0 ∉ text
  | raw text => text ≠ [] ∧ 0 ∉ text ∧ text.length < p2sKmsgSize ∧ ¬ReadsAsMsg text

end Line

/-! ### The client's screen -/

/-- What an iteration of `msg_thread` prints when its `recv` returns `n` bytes. -/
def printedBy (s : Session) (n : Nat) : List Byte :=
  match iteration s.msg (.bytes ((s.wire.take n).map Prod.fst)) with
  | some (.shown shown) => shown.printed
  | _ => []

/-- A session, what the server has sent in it, and what the client has printed. -/
structure Screen where
  session : Session
  said : List Line
  shown : List Byte

def Screen.start (msg : P2sMsg) : Screen := ⟨Session.start msg, [], []⟩

/-- What an event sends. -/
def speech (s : Session) : Event → List Line
  | .print color text => [.print s.sent color text]
  | .raw text => [.raw text]
  | _ => []

/-- What an event prints. -/
def prints (s : Session) : Event → List Byte
  | .recv n => printedBy s n
  | _ => []

def Screen.step (t : Screen) (e : Event) : Option Screen :=
  (Msg.step t.session e).map fun session =>
    ⟨session, t.said ++ speech t.session e, t.shown ++ prints t.session e⟩

/-- The lines are the last ones that have been sent, and they are what is on the wire. -/
structure Coming (t : Screen) (lines : List Line) : Prop where
  last : lines <:+ t.said
  wire : t.session.wire = lines.flatMap Line.wire

/-- The server sends texts that the client can tell apart, each `recv` returns what one `send` has
sent, and the server does not give up waiting. -/
def Whole (t : Screen) : Event → Prop
  | .recv n => ∃ line rest, Coming t (line :: rest) ∧ n = line.wire.length
  | .timeout => False
  | e => ∀ line ∈ speech t.session e, line.Sayable

instance decidableSayable : ∀ line : Line, Decidable line.Sayable
  | .print .. => inferInstanceAs (Decidable (_ ∧ _))
  | .raw _ => inferInstanceAs (Decidable (_ ∧ _))

theorem exists_coming_iff {t : Screen} {n : Nat} :
    (∃ line rest, Coming t (line :: rest) ∧ n = line.wire.length) ↔
      ∃ lines ∈ t.said.tails, t.session.wire = lines.flatMap Line.wire ∧
        ∃ line ∈ lines.head?, n = line.wire.length := by
  constructor
  · rintro ⟨line, rest, ⟨hlast, hwire⟩, hn⟩
    exact ⟨line :: rest, (List.mem_tails _ _).mpr hlast, hwire, line, rfl, hn⟩
  · rintro ⟨lines, hlast, hwire, line, hline, hn⟩
    obtain ⟨rest, rfl⟩ := List.head?_eq_some_iff.mp hline
    exact ⟨line, rest, ⟨(List.mem_tails _ _).mp hlast, hwire⟩, hn⟩

instance decidableWhole (t : Screen) : DecidablePred (Whole t)
  | .recv _ => decidable_of_iff _ exists_coming_iff.symm
  | .timeout => isFalse id
  | .print color text => inferInstanceAs
      (Decidable (∀ line ∈ speech t.session (.print color text), line.Sayable))
  | .raw text => inferInstanceAs (Decidable (∀ line ∈ speech t.session (.raw text), line.Sayable))
  | .reply => inferInstanceAs (Decidable (∀ line ∈ speech t.session .reply, line.Sayable))

/-- What is on the screen, and what is coming, are the lines that have been sent, each
once and in order; and when no `psp2shell_print_color` is waiting, all that they have
printed is on the screen. -/
def Faithful (t : Screen) : Prop :=
  ∃ coming, Coming t coming ∧ t.shown ++ coming.flatMap Line.shown = t.said.flatMap Line.shown ∧
    (t.session.waiting = none → ∀ line ∈ coming, line.isPrint = false)

/-! ### A line -/

section

variable {line : Line}

theorem snprintf_ne_nil {text : List Byte} (h : text ≠ []) : snprintf p2sKmsgSize text ≠ [] := by
  simp [snprintf, p2sKmsgSize, h]

theorem printHex_rendered {buffer : Buffer p2sKmsgSize} {s : List Byte} (hs : buffer.str = some s)
    (hne : s ≠ []) :
    ∃ line' s', printHex buffer = some (rendered .hex s, line') ∧ line'.str = some s' ∧
      s' ≠ [] := by
  obtain ⟨printed, line', s', hhex, hs', hne'⟩ := printHex_spec hs hne
  refine ⟨line', s', ?_, hs', hne'⟩
  rw [hhex]
  congr 2
  by_cases htokens : (Cli.strsplit s (ascii " ")).length = 5
  · have hpos : s.length ≠ 0 := by simpa using hne
    obtain ⟨cut, hcut, hstr⟩ := Buffer.str_setByte hs (Nat.sub_le s.length 1)
    rw [← List.dropLast_eq_take] at hstr
    simp only [printHex, hs, Option.bind_eq_bind, Option.bind_some, if_pos htokens,
      if_neg hpos, hcut, hstr, Option.pure_def, Option.some.injEq, Prod.mk.injEq] at hhex
    simp only [rendered, if_pos htokens]
    exact hhex.1.symm
  · simp only [printHex, hs, Option.bind_eq_bind, Option.bind_some, if_neg htokens, Option.pure_def,
      Option.some.injEq, Prod.mk.injEq] at hhex
    simp only [rendered, if_neg htokens]
    exact hhex.1.symm

theorem display_rendered {msg : P2sMsg} {color : Color} {s : List Byte}
    (hcolor : msg.color = color.code) (hs : msg.buffer.str = some s) (hne : s ≠ []) :
    ∃ shown, display msg = some shown ∧ shown.printed = rendered color s := by
  obtain ⟨last, hlast⟩ : ∃ last, s.getLast? = some last := ⟨_, List.getLast?_eq_some_getLast hne⟩
  have hcolored : ∀ code, printColored code msg.buffer =
      some (code ++ s ++ resetCode, [newline], msg.buffer) := fun code => by simp [printColored, hs]
  unfold display switch
  cases color with
  | none => exact ⟨_, by simp [hcolor, hs, hlast, Color.code]; rfl, rfl⟩
  | red => exact ⟨_, by simp [hcolor, hcolored, hs, hlast, Color.code]; rfl, rfl⟩
  | yellow => exact ⟨_, by simp [hcolor, hcolored, hs, hlast, Color.code]; rfl, rfl⟩
  | green => exact ⟨_, by simp [hcolor, hcolored, hs, hlast, Color.code]; rfl, rfl⟩
  | hex =>
    obtain ⟨line', s', hhex, hs', hne'⟩ := printHex_rendered hs hne
    obtain ⟨last', hlast'⟩ : ∃ last, s'.getLast? = some last :=
      ⟨_, List.getLast?_eq_some_getLast hne'⟩
    exact ⟨_, by simp [hcolor, hhex, hs', hlast', Color.code]; rfl, rfl⟩

theorem map_fst_rawBytes (text : List Byte) : (rawBytes text).map Prod.fst = text := by
  rw [rawBytes, List.map_map]
  exact List.map_id text

theorem map_fst_message (k : Nat) (bytes : List Byte) : (message k bytes).map Prod.fst = bytes := by
  cases bytes with
  | nil => rfl
  | cons b bytes => rw [message, List.map_cons, ← rawBytes, map_fst_rawBytes]

theorem send_print (color : Color) {text : List Byte} (hnul : 0 ∉ text) :
    p2sMsgSendMsg (psp2shellPrintColor color text) =
      some (decimal color.code ++ snprintf p2sKmsgSize text) := by
  obtain ⟨buffer, hbuffer, hstr⟩ := p2sMsgToString_text color.twoDigits (printed_text color hnul)
  rw [p2sMsgSendMsg, hbuffer]
  exact hstr

/-- A line that is received whole is shown. -/
theorem iteration_line (h : line.Sayable) (old : P2sMsg) :
    ∃ shown, iteration old (.bytes (line.wire.map Prod.fst)) = some (.shown shown) ∧
      shown.printed = line.shown := by
  cases line with
  | print k color text =>
    obtain ⟨-, hne, hnul⟩ := h
    obtain ⟨bytes, msg, hsend, hbytes, hthread, hcolor, hmsg⟩ := msgThread_print old color hne hnul
    obtain rfl := Option.some.inj ((send_print color hnul).symm.trans hsend)
    obtain ⟨shown, hshown, hprinted⟩ := display_rendered hcolor hmsg (snprintf_ne_nil hne)
    refine ⟨shown, ?_, hprinted⟩
    rw [Line.wire, map_fst_message, iteration_msgThread hbytes, hthread, Option.bind_some, hshown]
    rfl
  | raw text =>
    obtain ⟨hne, hnul, hlen, hraw⟩ := h
    obtain ⟨-, shown, hshown, hprinted, -⟩ := shownUnchanged_of_raw hnul hne hlen hraw old
    exact ⟨shown, by rw [Line.wire, map_fst_rawBytes]; exact hshown, hprinted⟩

theorem ackedHeader_print {color : Color} {text : List Byte} (hcolor : color ≠ .none)
    (hne : text ≠ []) (hnul : 0 ∉ text) :
    AckedHeader (decimal color.code ++ snprintf p2sKmsgSize text) := by
  obtain ⟨x, rest, hcut⟩ := List.exists_cons_of_ne_nil (snprintf_ne_nil hne)
  have hx : x ≠ 0 := by
    rintro rfl
    apply hnul
    have hmem : 0 ∈ snprintf p2sKmsgSize text := by simp [hcut]
    exact List.mem_of_mem_take hmem
  rw [hcut]
  cases color with
  | none => exact absurd rfl hcolor
  | red => exact ⟨49, x, rest, rfl, by decide, by decide, hx⟩
  | yellow => exact ⟨50, x, rest, rfl, by decide, by decide, hx⟩
  | green => exact ⟨51, x, rest, rfl, by decide, by decide, hx⟩
  | hex => exact ⟨52, x, rest, rfl, by decide, by decide, hx⟩

theorem readsAsMsg_of_acked {bs : List Byte} (hnul : 0 ∉ bs) (h : AckedHeader bs) :
    ReadsAsMsg bs := by
  obtain ⟨d, x, rest, rfl, hlow, hhigh, -⟩ := h
  rw [ReadsAsMsg, received_of_no_nul hnul]
  refine ⟨by simp, 49, d, x :: rest, rfl, by decide, ?_, by decide⟩
  rw [UInt8.le_iff_toNat_le] at hlow hhigh
  exact isdigit_iff.mpr ⟨by simp at hlow; omega, by simp at hhigh; omega⟩

theorem starts_line (h : line.Sayable) : starts line.wire ≠ [] ↔ line.isPrint = true := by
  cases line with
  | print k color text =>
    obtain ⟨b, bytes, hbytes⟩ := List.exists_cons_of_ne_nil
      (List.append_ne_nil_of_right_ne_nil (decimal color.code) (snprintf_ne_nil h.2.1))
    rw [Line.wire, hbytes, starts_message]
    simp [Line.isPrint]
  | raw text =>
    rw [Line.wire, rawBytes, starts_plain]
    simp [Line.isPrint]

/-- The client acknowledges a line when it is a printed one. -/
theorem acked_line (h : line.Sayable) :
    AckedHeader (line.wire.map Prod.fst) ↔ line.isPrint = true := by
  cases line with
  | print k color text =>
    rw [Line.wire, map_fst_message]
    exact iff_of_true (ackedHeader_print h.1 h.2.1 h.2.2) rfl
  | raw text =>
    rw [Line.wire, map_fst_rawBytes]
    exact iff_of_false (fun hacked => h.2.2.2 (readsAsMsg_of_acked h.2.1 hacked))
      (by simp [Line.isPrint])

theorem wire_room (h : line.Sayable) : line.wire.length < p2sSizeMsg := by
  rw [← List.length_map (f := Prod.fst)]
  cases line with
  | print k color text =>
    have hcut : (snprintf p2sKmsgSize text).length < p2sKmsgSize := by
      rw [snprintf, List.length_take]
      simp only [p2sKmsgSize]
      omega
    rw [Line.wire, map_fst_message, List.length_append, color.twoDigits.decimal_length]
    simp only [p2sSizeMsg]
    omega
  | raw text =>
    have hlen := h.2.2.1
    rw [Line.wire, map_fst_rawBytes]
    simp only [p2sSizeMsg]
    omega

theorem wire_ne_nil (h : line.Sayable) : line.wire ≠ [] := by
  cases line with
  | print k color text =>
    intro hnil
    have hmap := congrArg (List.map Prod.fst) hnil
    rw [Line.wire, map_fst_message] at hmap
    exact snprintf_ne_nil h.2.1 (List.append_eq_nil_iff.mp hmap).2
  | raw text =>
    intro hnil
    exact h.1 (List.map_eq_nil_iff.mp hnil)

end

/-! ### Steps -/

/-- The session is in step, and what the screen lacks is coming. -/
structure Told (t : Screen) : Prop where
  inStep : InStep t.session
  sayable : ∀ line ∈ t.said, line.Sayable
  coming : ∃ coming, Coming t coming ∧ t.shown ++ coming.flatMap Line.shown =
    t.said.flatMap Line.shown

variable {t u : Screen}

theorem told_start (msg : P2sMsg) : Told (Screen.start msg) :=
  ⟨inStep_start msg, by simp [Screen.start], [], ⟨List.suffix_refl _, rfl⟩, rfl⟩

/-- A line on the wire stands for a message that starts there. -/
theorem raw_of_starts {lines : List Line} (hsayable : ∀ line ∈ lines, line.Sayable)
    (h : starts (lines.flatMap Line.wire) = []) : ∀ line ∈ lines, line.isPrint = false := by
  induction lines with
  | nil => simp
  | cons line lines ih =>
    rw [List.flatMap_cons, starts_append, List.append_eq_nil_iff] at h
    obtain ⟨hline, hlines⟩ := List.forall_mem_cons.mp hsayable
    have hraw : line.isPrint = false := by
      rw [← Bool.not_eq_true, ← starts_line hline, not_not]
      exact h.1
    exact List.forall_mem_cons.mpr ⟨hraw, ih hlines h.2⟩

theorem Told.faithful (h : Told t) : Faithful t := by
  obtain ⟨coming, hcoming, hshown⟩ := h.coming
  refine ⟨coming, hcoming, hshown, fun hwaiting => ?_⟩
  have hstarts : starts t.session.wire = [] := by
    cases h.inStep with
    | idle _ hstarts => exact hstarts
    | sent hwait | answered hwait =>
      rw [hwaiting] at hwait
      cases hwait
  rw [hcoming.wire] at hstarts
  exact raw_of_starts (fun line hline => h.sayable line (hcoming.last.subset hline)) hstarts

theorem flatMap_wire_eq_nil {lines : List Line} (hsayable : ∀ line ∈ lines, line.Sayable)
    (h : lines.flatMap Line.wire = []) : lines = [] := by
  cases lines with
  | nil => rfl
  | cons line lines =>
    rw [List.flatMap_cons, List.append_eq_nil_iff] at h
    exact absurd h.1 (wire_ne_nil (hsayable line List.mem_cons_self))

/-- There is one reading of the wire. -/
theorem Coming.unique {lines lines' : List Line} (hsayable : ∀ line ∈ t.said, line.Sayable)
    (h : Coming t lines) (h' : Coming t lines') : lines = lines' := by
  have hpart : ∀ {a b : List Line}, Coming t a → Coming t b → a <:+ b → a = b := by
    rintro a b ha hb ⟨before, rfl⟩
    have hwire := ha.wire.symm.trans hb.wire
    rw [List.flatMap_append] at hwire
    have hnil : before.flatMap Line.wire = [] := by simpa using hwire
    have hbefore := flatMap_wire_eq_nil (fun line hline =>
      hsayable line (hb.last.subset (List.mem_append_left _ hline))) hnil
    rw [hbefore, List.nil_append]
  rcases List.suffix_or_suffix_of_suffix h.last h'.last with hsuffix | hsuffix
  · exact hpart h h' hsuffix
  · exact (hpart h' h hsuffix).symm

theorem screen_step {e : Event} (h : t.step e = some u) :
    ∃ session, Msg.step t.session e = some session ∧
    u = ⟨session, t.said ++ speech t.session e, t.shown ++ prints t.session e⟩ := by
  obtain ⟨session, hsession, rfl⟩ := Option.map_eq_some_iff.mp h
  exact ⟨session, hsession, rfl⟩

/-- A line that is sent is the last one that comes. -/
theorem Told.say {e : Event} {line : Line} {session : Session} (h : Told t) (hstep : InStep session)
    (hspeech : speech t.session e = [line]) (hprints : prints t.session e = [])
    (hline : line.Sayable)
    (hwire : session.wire = t.session.wire ++ line.wire) :
    Told ⟨session, t.said ++ speech t.session e, t.shown ++ prints t.session e⟩ := by
  obtain ⟨coming, hcoming, hshown⟩ := h.coming
  rw [hspeech, hprints, List.append_nil]
  refine ⟨hstep, ?_, coming ++ [line], ⟨?_, ?_⟩, ?_⟩
  · intro l hl
    rcases List.mem_append.mp hl with hl | hl
    · exact h.sayable l hl
    · rw [List.mem_singleton.mp hl]
      exact hline
  · obtain ⟨before, hbefore⟩ := hcoming.last
    exact ⟨before, by rw [← hbefore, List.append_assoc]⟩
  · rw [List.flatMap_append, List.flatMap_singleton, hwire, hcoming.wire]
  · simp only [List.flatMap_append, ← List.append_assoc, hshown]

/-- A line that is received goes from the wire to the screen. -/
theorem Told.recv {n : Nat} {session : Session} (h : Told t) (hwhole : Whole t (.recv n))
    (hstep : Msg.step t.session (.recv n) = some session) :
    Told ⟨session, t.said ++ speech t.session (.recv n),
      t.shown ++ prints t.session (.recv n)⟩ := by
  obtain ⟨line, rest, hcoming, rfl⟩ := hwhole
  obtain ⟨coming, hcoming', hshown⟩ := h.coming
  obtain rfl := hcoming'.unique h.sayable hcoming
  have hwire := hcoming.wire
  rw [List.flatMap_cons] at hwire
  have htake : t.session.wire.take line.wire.length = line.wire := by rw [hwire, List.take_left]
  have hdrop : t.session.wire.drop line.wire.length = rest.flatMap Line.wire := by
    rw [hwire, List.drop_left]
  have hline := h.sayable line (hcoming.last.subset List.mem_cons_self)
  have hrecognizable : Recognizable t.session (.recv line.wire.length) := by
    rw [Recognizable, htake]
    exact ⟨(starts_line hline).trans (acked_line hline).symm, Or.inl (wire_room hline)⟩
  have hprints : prints t.session (.recv line.wire.length) = line.shown := by
    obtain ⟨shown, hshown, hprinted⟩ := iteration_line hline t.session.msg
    simp only [prints, printedBy, htake, hshown]
    exact hprinted
  have hrest : session.wire = rest.flatMap Line.wire := by
    rw [← hdrop]
    obtain ⟨msg, ⟨-, rfl⟩ | ⟨-, rfl⟩⟩ := step_recv hstep hrecognizable.2 <;> rfl
  have hspeech : speech t.session (.recv line.wire.length) = [] := rfl
  rw [hprints, hspeech, List.append_nil]
  refine ⟨h.inStep.recv hrecognizable hstep, h.sayable, rest, ⟨?_, hrest⟩, ?_⟩
  · exact (List.suffix_cons line rest).trans hcoming.last
  · rw [← hshown, List.flatMap_cons, List.append_assoc]

theorem Told.step {e : Event} (h : Told t) (hwhole : Whole t e) (hstep : t.step e = some u) :
    Told u := by
  obtain ⟨session, hsession, rfl⟩ := screen_step hstep
  cases e with
  | print color text =>
    have hline := hwhole (.print t.session.sent color text) (List.mem_singleton.mpr rfl)
    have hrecognizable : Recognizable t.session (.print color text) := trivial
    refine h.say (h.inStep.step hrecognizable hsession) rfl rfl hline ?_
    simp only [Msg.step, send_print color hline.2.2] at hsession
    split at hsession
    · cases hsession
    · cases hsession
      rfl
  | raw text =>
    have hline := hwhole (.raw text) (List.mem_singleton.mpr rfl)
    have hrecognizable : Recognizable t.session (.raw text) := trivial
    refine h.say (h.inStep.step hrecognizable hsession) rfl rfl hline ?_
    cases hsession
    rfl
  | recv n => exact h.recv hwhole hsession
  | reply =>
    have hrecognizable : Recognizable t.session .reply := trivial
    have hstep := h.inStep.step hrecognizable hsession
    obtain ⟨k, a, acks, -, -, rfl⟩ := step_reply hsession
    obtain ⟨coming, hcoming, hshown⟩ := h.coming
    simp only [speech, prints, List.append_nil]
    exact ⟨hstep, h.sayable, coming, ⟨hcoming.last, hcoming.wire⟩, hshown⟩
  | timeout => exact hwhole.elim

theorem screen_guards : Guards Screen.step Told Faithful Whole := ⟨Told.step, Told.faithful⟩

/-- In every run in which each `recv` of the client returns what one `send` has sent, the screen
shows all that the server has printed, in its colors and once and in order, up to what is on its
way; and when `psp2shell_print_color` has returned, what it has printed is on the screen. -/
theorem transcript (msg : P2sMsg) (es : List Event)
    (h : EachStep Screen.step Whole (Screen.start msg) es) :
    Always Screen.step Faithful (Screen.start msg) es :=
  screen_guards.always (told_start msg) h

/-- A green text and a red one, with raw texts behind the first. -/
theorem transcript_green : Always Screen.step Faithful (Screen.start ⟨0, Buffer.zero _⟩)
    [.print .green (ascii "ok"), .raw (ascii "11"), .recv 4, .recv 2, .reply, .raw (ascii "text"),
      .print .red (ascii "no"), .recv 4, .recv 4, .reply] :=
  transcript _ _ (by decide +kernel)

end Psp2Shell.Msg
