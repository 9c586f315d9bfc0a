import Psp2Shell.Cmd.Slots

/-! The calls of the client's senders, the commands that they send, and the shape of what goes to
the socket: the two digits of the type, and then two NULs or the arguments between quotes. -/

namespace Psp2Shell.Cmd

open CLib

/-- An argument that the wire format can carry: a C string without quotes that fits a slot with its
NUL. -/
structure Plain (a : List Byte) : Prop where
  no_nul : 0 ∉ a
  no_quote : quote ∉ a
  fits : a.length < p2sSizeString

instance (a : List Byte) : Decidable (Plain a) :=
  decidable_of_iff (0 ∉ a ∧ quote ∉ a ∧ a.length < p2sSizeString)
    ⟨fun ⟨h0, hq, hlen⟩ => ⟨h0, hq, hlen⟩, fun h => ⟨h.no_nul, h.no_quote, h.fits⟩⟩

/-- A command type: two digits. -/
structure TwoDigits (type : Int) : Prop where
  low : 10 ≤ type
  high : type ≤ 99

instance (type : Int) : Decidable (TwoDigits type) :=
  decidable_of_iff (10 ≤ type ∧ type ≤ 99) ⟨fun ⟨hlow, hhigh⟩ => ⟨hlow, hhigh⟩,
    fun h => ⟨h.low, h.high⟩⟩

theorem twoDigits_code (t : CmdType) : TwoDigits t.code := by
  cases t <;> decide

/-- A call of a sender.  `fmt` stands for `p2s_cmd_send_fmt` with the format that prints `args`. -/
inductive Send
  | send (cmdType : Int)
  | string (cmdType : Int) (value : List Byte)
  | fmt (cmdType : Int) (args : List FmtArg)
  | int (cmdType : Int) (value : Int32)
  | long (cmdType : Int) (value : Int64)

namespace Send

def type : Send → Int
  | send cmdType | string cmdType _ | fmt cmdType _ | int cmdType _ | long cmdType _ => cmdType

/-- The arguments of a call after the type. -/
def fmtArgs : Send → List FmtArg
  | send _ => []
  | string _ value => [.str value]
  | fmt _ args => args
  | int _ value => [.int value.toInt]
  | long _ value => [.long value.toInt]

/-- The arguments of the command that a call sends. -/
def args (s : Send) : List (List Byte) := s.fmtArgs.map FmtArg.text

/-- The output of a call's `snprintf`. -/
def text : Send → List Byte
  | send cmdType => format [37, 105] [.int cmdType]
  | s => format (cmdFormat s.fmtArgs) (.int s.type :: s.fmtArgs)

/-- The size of a call's local buffer. -/
def room : Send → Nat
  | send _ => 4
  | string _ _ => p2sSizeString + 6
  | fmt _ _ => p2sSizeCmd
  | int _ _ => 16
  | long _ _ => 32

/-- The bytes that a call hands to the socket. -/
def bytes : Send → List Byte
  | send cmdType => p2sCmdSend cmdType
  | string cmdType value => p2sCmdSendString cmdType value
  | fmt cmdType args => p2sCmdSendFmt (cmdFormat args) (.int cmdType :: args)
  | int cmdType value => p2sCmdSendInt cmdType value
  | long cmdType value => p2sCmdSendLong cmdType value

/-- A two-digit type, and at most three arguments that the wire format can carry. -/
structure WellFormed (s : Send) : Prop where
  digits : TwoDigits s.type
  count : s.args.length ≤ p2sMaxArgs
  plain : ∀ a ∈ s.args, Plain a

/-- What follows the type on the wire. -/
def tail : Send → List Byte
  | send _ => [0, 0]
  | s => framed quote s.args

end Send

theorem format_args (args : List FmtArg) :
    format (args.flatMap (fun a => quote :: a.conversion) ++ [quote]) args =
      framed quote (args.map FmtArg.text) := by
  induction args with
  | nil => rfl
  | cons a args ih =>
    rw [List.flatMap_cons, List.append_assoc, List.cons_append, List.map_cons, framed_cons,
      format_literal (by decide), format_conversion, ih]

theorem format_cmdFormat (cmdType : Int) (args : List FmtArg) :
    format (cmdFormat args) (.int cmdType :: args) =
      decimal cmdType ++ framed quote (args.map FmtArg.text) := by
  rw [cmdFormat, List.append_assoc, ← format_args]
  exact format_conversion (.int cmdType) _ args

/-! ### Types -/

theorem quote_not_mem_decimal (z : Int) : quote ∉ decimal z :=
  not_mem_decimal (by decide) (by decide) z

theorem nul_not_mem_decimal (z : Int) : (0 : Byte) ∉ decimal z :=
  not_mem_decimal (by decide) (by decide) z

namespace TwoDigits

variable {type : Int} (h : TwoDigits type)
include h

theorem decimal_eq : ∃ a b : Byte, decimal type = [a, b] ∧ isdigit a = true ∧ isdigit b = true ∧
    a ≠ 48 ∧ strtol 32 [a, b] = type := by
  obtain ⟨hlow, hhigh⟩ := h
  have h1 : (UInt8.ofNat (48 + type.toNat / 10)).toNat = 48 + type.toNat / 10 := by
    rw [UInt8.toNat_ofNat']; omega
  have h2 : (UInt8.ofNat (48 + type.toNat % 10)).toNat = 48 + type.toNat % 10 := by
    rw [UInt8.toNat_ofNat']; omega
  have hd1 : isdigit (UInt8.ofNat (48 + type.toNat / 10)) = true := by rw [isdigit_iff]; omega
  have hd2 : isdigit (UInt8.ofNat (48 + type.toNat % 10)) = true := by rw [isdigit_iff]; omega
  refine ⟨_, _, decimal_two hlow hhigh, hd1, hd2, ?_, ?_⟩
  · intro h48
    rw [h48] at h1
    simp at h1
    omega
  · rw [strtol_two_digits hd1 hd2, h1, h2]
    omega

theorem decimal_length : (decimal type).length = 2 := by
  obtain ⟨a, b, hab, -⟩ := h.decimal_eq
  rw [hab]
  rfl

theorem typeDigits (u : List Byte) : TypeDigits (decimal type ++ u) := by
  obtain ⟨a, b, hab, ha, hb, hne, -⟩ := h.decimal_eq
  exact ⟨a, b, u, by rw [hab]; rfl, ha, hb, hne⟩

theorem typeValue_eq (u : List Byte) : typeValue (decimal type ++ u) = type := by
  obtain ⟨a, b, hab, -, -, -, hval⟩ := h.decimal_eq
  rw [hab]
  exact (typeValue_cons a b u).trans hval

/-- A string that starts with a type decodes to that type and its fields. -/
theorem decode {mem u : List Byte} (hs : cstring mem = some (decimal type ++ u)) (cmd : P2sCmd) :
    p2sCmdToCmd cmd mem = some ⟨0, P2sCmd.ofArgs type (argFields (decimal type ++ u)),
      copiesFrom 0 (argFields (decimal type ++ u))⟩ := by
  rw [p2sCmdToCmd_accepts hs cmd (h.typeDigits u), h.typeValue_eq]

end TwoDigits

/-! ### Calls -/

theorem int_length_le (v : Int32) : (decimal v.toInt).length ≤ 11 := by
  have := v.toInt_lt
  have := v.le_toInt
  exact decimal_length_le (k := 10) (by decide) (by omega)

theorem long_length_le (v : Int64) : (decimal v.toInt).length ≤ 20 := by
  have := v.toInt_lt
  have := v.le_toInt
  exact decimal_length_le (k := 19) (by decide) (by omega)

theorem plain_int (v : Int32) : Plain (decimal v.toInt) :=
  ⟨nul_not_mem_decimal _, quote_not_mem_decimal _, (int_length_le v).trans_lt (by decide)⟩

theorem plain_long (v : Int64) : Plain (decimal v.toInt) :=
  ⟨nul_not_mem_decimal _, quote_not_mem_decimal _, (long_length_le v).trans_lt (by decide)⟩

theorem Send.wellFormed_int {type : Int} (h : TwoDigits type) (v : Int32) :
    (Send.int type v).WellFormed :=
  ⟨h, by simp [args, fmtArgs, p2sMaxArgs], by simpa [args, fmtArgs, FmtArg.text] using plain_int v⟩

theorem Send.wellFormed_long {type : Int} (h : TwoDigits type) (v : Int64) :
    (Send.long type v).WellFormed :=
  ⟨h, by simp [args, fmtArgs, p2sMaxArgs],
    by simpa [args, fmtArgs, FmtArg.text] using plain_long v⟩

theorem sum_length_le {as : List (List Byte)} (has : ∀ a ∈ as, Plain a) :
    (as.map List.length).sum ≤ as.length * 511 := by
  induction as with
  | nil => simp
  | cons a as ih =>
    have hfits := (has a (by simp)).fits
    have hrest := ih fun b hb => has b (List.mem_cons_of_mem _ hb)
    simp only [List.map_cons, List.sum_cons, List.length_cons, p2sSizeString] at *
    omega

namespace Send.WellFormed

variable {s : Send} (h : s.WellFormed)
include h

theorem text_length (hs : ∀ t, s ≠ send t) :
    s.text.length = 3 + s.args.length + (s.args.map List.length).sum := by
  have htext : s.text = decimal s.type ++ framed quote s.args := by
    cases s with
    | send t => exact absurd rfl (hs t)
    | _ => exact format_cmdFormat _ _
  rw [htext, List.length_append, h.digits.decimal_length, framed_length]
  omega

theorem text_fits : s.text.length < s.room := by
  have hlen := h.text_length
  have hplain := h.plain
  cases s with
  | send t =>
    have htext : (send t).text = decimal t := by simp [text, format]
    rw [htext]
    exact h.digits.decimal_length.trans_lt (show 2 < 4 by decide)
  | string t v =>
    have hfits := (hplain v (by simp [args, fmtArgs, FmtArg.text])).fits
    rw [hlen (by simp)]
    simp [args, fmtArgs, FmtArg.text, room, p2sSizeString] at *
    omega
  | fmt t as =>
    have hsum := sum_length_le hplain
    have hcount := h.count
    rw [hlen (by simp)]
    simp only [room, p2sSizeCmd, p2sMaxArgs, p2sSizeString] at *
    omega
  | int t v =>
    have := int_length_le v
    rw [hlen (by simp)]
    simp [args, fmtArgs, FmtArg.text, room]
    omega
  | long t v =>
    have := long_length_le v
    rw [hlen (by simp)]
    simp [args, fmtArgs, FmtArg.text, room]
    omega

theorem bytes_eq : s.bytes = decimal s.type ++ s.tail := by
  have hfits := h.text_fits
  cases s with
  | send t =>
    have htext : format [37, 105] [.int t] = decimal t := by simp [format]
    have hlen : (decimal t).length = 2 := h.digits.decimal_length
    have hstored : snprintf 4 (decimal t) = decimal t := snprintf_of_lt (by omega)
    simp only [bytes, p2sCmdSend, htext, hstored, tail, type]
    rw [Buffer.zero_blit _ (by omega), hlen]
    rfl
  | string t v => exact (snprintf_of_lt hfits).trans (format_cmdFormat t [.str v])
  | fmt t as => exact (snprintf_of_lt hfits).trans (format_cmdFormat t as)
  | int t v => exact (snprintf_of_lt hfits).trans (format_cmdFormat t [.int v.toInt])
  | long t v => exact (snprintf_of_lt hfits).trans (format_cmdFormat t [.long v.toInt])

end Send.WellFormed

end Psp2Shell.Cmd
