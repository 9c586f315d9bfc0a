import Psp2Shell.Cli.Split
import Psp2Shell.Memory.Hex
import Psp2Shell.Memory.Model
import Psp2Shell.Msg.Shown

/-! The lines of `cmd_memr` on the client: what `print_hex` shows of them. -/

namespace Psp2Shell.Memory

open CLib Cmd Kernel Msg

/-- Byte `j` of a word, counted from the most significant, as it is shown. -/
def shownByte (w : BitVec 32) (j : Nat) : Byte :=
  if isprint (wordByte w (3 - j)) then wordByte w (3 - j) else 46

/-! ### The tokens -/

theorem space_hex8 (w : BitVec 32) : 32 ∉ hex8 w := fun h => absurd (isxdigit_hex8 h) (by decide)

/-- What stands between the spaces of a line. -/
theorem strsplit_text (l : HexLine) : Cli.strsplit l.text (ascii " ") =
    [ascii "0x" ++ hex8 l.addr ++ ascii ":", hex8 (l.words 0), hex8 (l.words 1), hex8 (l.words 2),
      hex8 (l.words 3) ++ [newline]] := by
  have hjoin : l.text = [32].intercalate [ascii "0x" ++ hex8 l.addr ++ ascii ":", hex8 (l.words 0),
      hex8 (l.words 1), hex8 (l.words 2), hex8 (l.words 3) ++ [newline]] := by
    simp [HexLine.text, List.intercalate, List.finRange_succ, ascii, newline]
  rw [show ascii " " = [32] from rfl, Cli.strsplit_eq_splitOn, hjoin, List.splitOn_intercalate 32]
  · simp [space_hex8, ascii, newline]
  · exact List.cons_ne_nil _ _

/-! ### The characters -/

/-- The characters of a token that starts with a printed word and goes on with no digit. -/
theorem hexChars_hex8 (w : BitVec 32) {rest : List Byte} (hrest : rest.takeWhile isxdigit = []) :
    hexChars (hex8 w ++ rest) = [shownByte w 0, shownByte w 1, shownByte w 2, shownByte w 3] := by
  have hvalue : strtoul 64 16 (hex8 w ++ rest) % 2 ^ 32 = w.toNat := by
    rw [strtoul_hex8 (by decide) w hrest, Nat.mod_eq_of_lt w.isLt]
  have hlow : wordByte w 0 = UInt8.ofNat w.toNat := by rw [wordByte, pow_zero, Nat.div_one]
  simp only [hexChars, hvalue, shownByte, List.map_cons, List.map_nil, Nat.sub_self, hlow]
  rfl

/-- The 16 characters of a line. -/
def HexLine.shown (l : HexLine) : List Byte :=
  (List.finRange 4).flatMap fun i => (List.range 4).map (shownByte (l.words i))

theorem tokens_chars (l : HexLine) :
    ((Cli.strsplit l.text (ascii " ")).drop 1).flatMap hexChars = l.shown := by
  have hword : ∀ w, hexChars (hex8 w) = (List.range 4).map (shownByte w) := by
    intro w
    have hchars := @hexChars_hex8 w [] rfl
    rwa [List.append_nil] at hchars
  have hlast : hexChars (hex8 (l.words 3) ++ [newline]) =
    (List.range 4).map (shownByte (l.words 3)) :=
    hexChars_hex8 (l.words 3) (by decide)
  simp [strsplit_text, HexLine.shown, hword, hlast, List.finRange_succ]

theorem shown_length (l : HexLine) : l.shown.length = 16 := by
  simp [HexLine.shown, List.length_flatMap]

theorem shown_get (l : HexLine) (i j : Fin 4) :
    l.shown[4 * i.val + j.val]? = some (shownByte (l.words i) j) := by
  fin_cases i <;> fin_cases j <;> rfl

/-! ### The line -/

theorem nul_text (l : HexLine) : 0 ∉ l.text := by
  simp [HexLine.text, nul_hex8, ascii]

theorem text_length (l : HexLine) : l.text.length = 48 := by
  simp [HexLine.text, hex8_length, List.length_flatMap, ascii]

/-- `print_hex` cuts the newline off, and prints the line with its characters. -/
theorem printHex_text {line : Buffer p2sKmsgSize} {l : HexLine} (hs : line.str = some l.text) :
    ∃ line', printHex line =
      some (greenCode ++ l.text.dropLast ++ ascii " | " ++ l.shown ++ [newline] ++
        resetCode, line') ∧
      line'.str = some l.text.dropLast := by
  have htokens : (Cli.strsplit l.text (ascii " ")).length = 5 := by rw [strsplit_text]; rfl
  have hpos : l.text.length ≠ 0 := by rw [text_length]; decide
  obtain ⟨line', hcut, hs'⟩ := Buffer.str_setByte hs (Nat.sub_le l.text.length 1)
  rw [← List.dropLast_eq_take] at hs'
  refine ⟨line', ?_, hs'⟩
  simp only [printHex, hs, Option.bind_eq_bind, Option.bind_some, if_pos htokens,
    if_neg hpos, hcut, hs']
  rw [tokens_chars]
  rfl

/-- A line with a color that is acknowledged is shown and answered. -/
theorem display_text {msg : P2sMsg} {l : HexLine} (hcolor : msg.color = Color.hex.code)
    (hs : msg.buffer.str = some l.text) :
    ∃ shown, display msg = some shown ∧ shown.reply = [newline] ∧
      shown.printed =
        greenCode ++ l.text.dropLast ++ ascii " | " ++ l.shown ++ [newline] ++ resetCode := by
  obtain ⟨line', hprinted, hs'⟩ := printHex_text hs
  have hne : l.text.dropLast ≠ [] := by
    rw [← List.length_pos_iff, List.length_dropLast, text_length]
    decide
  obtain ⟨last, hlast⟩ : ∃ last, l.text.dropLast.getLast? = some last :=
    ⟨_, List.getLast?_eq_some_getLast hne⟩
  refine ⟨⟨_, [newline], line', last = newline⟩, ?_, rfl, rfl⟩
  simp [display, switch, hcolor, hprinted, hs', hlast, Color.code]

/-- A line that `cmd_memr` prints arrives as its text, which `print_hex` splits into five tokens; it
prints the text without the newline, and behind it the bytes of the words. -/
theorem hex_line_shown (l : HexLine) (old : P2sMsg) :
    ∃ bytes msg line chars, p2sMsgSendMsg (psp2shellPrintColor .hex l.text) = some bytes ∧
      msgThread old (.bytes bytes) = some msg ∧ msg.buffer.str = some l.text ∧
      (Cli.strsplit l.text (ascii " ")).length = 5 ∧
      printHex msg.buffer =
        some (greenCode ++ l.text.dropLast ++ ascii " | " ++ chars ++ [newline] ++
          resetCode, line) ∧
      chars.length = 16 ∧ (∀ i j : Fin 4, chars[4 * i.val + j.val]? =
        some (shownByte (l.words i) j)) ∧
      ∃ shown, iteration old (.bytes bytes) = some (.shown shown) ∧ shown.reply = [newline] ∧
        shown.printed = greenCode ++ l.text.dropLast ++ ascii " | " ++ chars ++
          [newline] ++ resetCode := by
  have hlen := text_length l
  have hne : l.text ≠ [] := by
    rw [← List.length_pos_iff, hlen]
    decide
  obtain ⟨bytes, msg, hsend, hbytes, hthread, hcolor, hmsg⟩ :=
    msgThread_print old .hex hne (nul_text l)
  have hs : msg.buffer.str = some l.text := by
    rwa [snprintf_of_lt (by rw [hlen]; decide)] at hmsg
  obtain ⟨line, hprinted, -⟩ := printHex_text hs
  obtain ⟨shown, hshown, hreply, hdisplayed⟩ := display_text hcolor hs
  refine ⟨bytes, msg, line, l.shown, hsend, hthread, hs, by rw [strsplit_text]; rfl,
    hprinted, shown_length l, shown_get l, shown, ?_, hreply, hdisplayed⟩
  rw [iteration_msgThread hbytes, hthread, Option.bind_some, hshown]
  rfl

end Psp2Shell.Memory
