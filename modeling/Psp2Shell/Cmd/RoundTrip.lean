import Psp2Shell.Cmd.Send

/-! Every encoder's output fits its buffer and decodes to the type and the arguments that went
in. -/

namespace Psp2Shell.Cmd

open CLib

/-- A buffer that holds `bytes` and then NULs decodes to the command of type `type` with the
arguments `args`: each in its slot with NULs after it, and the other slots empty. -/
def DecodesTo (bytes : List Byte) (type : Int) (args : List (List Byte)) : Prop :=
  ∀ (cmd : P2sCmd) (rest : List Byte), ∃ d, p2sCmdToCmd cmd (bytes ++ 0 :: rest) = some d ∧
    d.ret = 0 ∧ d.cmd.type = type ∧ ∀ i < p2sMaxArgs, d.cmd.slot i =
      args.getD i [] ++ List.replicate (p2sSizeString - (args.getD i []).length) 0

theorem argFields_decimal (type : Int) : argFields (decimal type) = [] := by
  rw [argFields, fields_of_not_mem (quote_not_mem_decimal type)]
  rfl

theorem argFields_framed (type : Int) {as : List (List Byte)} (hplain : ∀ a ∈ as, Plain a)
    (hcount : as.length ≤ p2sMaxArgs) : argFields (decimal type ++ framed quote as) = as := by
  rw [argFields, fields_framed_end (quote_not_mem_decimal type) fun a ha => (hplain a ha).no_quote,
    List.take_of_length_le hcount]

theorem not_mem_framed {c : Byte} (hc : c ≠ quote) {as : List (List Byte)}
    (has : ∀ a ∈ as, c ∉ a) : c ∉ framed quote as := by
  induction as with
  | nil => simpa using hc
  | cons a as ih =>
    have hrest := ih fun b hb => has b (List.mem_cons_of_mem _ hb)
    simp [framed_cons, hc, has a (by simp), hrest]

/-- The wire form of a command with arguments decodes to it. -/
theorem decodesTo_framed {type : Int} (h : TwoDigits type) {as : List (List Byte)}
    (hplain : ∀ a ∈ as, Plain a) (hcount : as.length ≤ p2sMaxArgs) :
    DecodesTo (decimal type ++ framed quote as) type as := by
  intro cmd rest
  have hnul : 0 ∉ decimal type ++ framed quote as := by
    rw [List.mem_append, not_or]
    exact ⟨nul_not_mem_decimal type, not_mem_framed (by decide) fun a ha => (hplain a ha).no_nul⟩
  refine ⟨_, h.decode (cstring_terminated hnul rest) cmd, rfl, rfl, fun i hi => ?_⟩
  rw [argFields_framed type hplain hcount]
  exact slot_ofArgs (fun a ha => (hplain a ha).fits.le) hcount type hi

/-- The wire form of a command without arguments decodes to it. -/
theorem decodesTo_nil {type : Int} (h : TwoDigits type) (n : Nat) :
    DecodesTo (decimal type ++ List.replicate n 0) type [] := by
  intro cmd rest
  have hs : cstring (decimal type ++ List.replicate n 0 ++ 0 :: rest) =
      some (decimal type ++ []) := by
    rw [List.append_nil]
    cases n with
    | zero => simpa using cstring_terminated (nul_not_mem_decimal type) rest
    | succ n =>
      rw [List.append_assoc]
      exact cstring_terminated (nul_not_mem_decimal type) _
  refine ⟨_, h.decode hs cmd, rfl, rfl, fun i hi => ?_⟩
  rw [List.append_nil, argFields_decimal]
  exact slot_ofArgs (by simp) (by simp) type hi

/-- What a call of a sender puts on the wire decodes to its command. -/
theorem Send.WellFormed.decodesTo {s : Send} (h : s.WellFormed) :
    DecodesTo s.bytes s.type s.args := by
  rw [h.bytes_eq]
  cases s with
  | send t => exact decodesTo_nil h.digits 2
  | _ => exact decodesTo_framed h.digits h.plain h.count

theorem getD_append_nil (as : List (List Byte)) (k i : Nat) :
    (as ++ List.replicate k []).getD i [] = as.getD i [] := by
  by_cases hi : i < as.length
  · rw [List.getD_append _ _ _ _ hi]
  · rw [List.getD_append_right _ _ _ _ (by omega), List.getD_eq_default as _ (by omega)]
    by_cases hk : i - as.length < k
    · rw [List.getD_replicate _ hk]
    · rw [List.getD_eq_default _ _ (by simp; omega)]

theorem p2sCmdToString_eq {cmd : P2sCmd} {a b c : List Byte} (ha : cmd.arg 0 = some a)
    (hb : cmd.arg 1 = some b) (hc : cmd.arg 2 = some c) (hplain : ∀ x ∈ [a, b, c], Plain x) :
    p2sCmdToString cmd = some (decimal cmd.type ++ framed quote [a, b, c]) := by
  have hpiece : ∀ x ∈ [a, b, c],
      snprintf p2sSizeCmd (format [34, 37, 115] [.str x]) = quote :: x := by
    intro x hx
    have hfits := (hplain x hx).fits
    have hformat : format [34, 37, 115] [.str x] = quote :: x := by
      simp [format, quote]
    rw [hformat, snprintf_of_lt]
    simp only [List.length_cons, p2sSizeCmd, p2sMaxArgs, p2sSizeString] at *
    omega
  have htype : format [37, 105] [.int cmd.type] = decimal cmd.type := by simp [format]
  simp only [p2sCmdToString, p2sMaxArgs, appendArgs, ha, hb, hc, htype, Nat.zero_add,
    Nat.reduceAdd, hpiece a (by simp), hpiece b (by simp), hpiece c (by simp)]
  simp [framed]

theorem plain_nil : Plain [] := by decide

theorem decodesTo_toString {type : Int} (h : TwoDigits type) {args : List (List Byte)}
    (hplain : ∀ a ∈ args, Plain a) (hcount : args.length ≤ p2sMaxArgs) {cmd : P2sCmd}
    (htype : cmd.type = type) (hargs : ∀ i < p2sMaxArgs, cmd.arg i = some (args.getD i [])) :
    ∃ text, p2sCmdToString cmd = some text ∧ text.length < p2sSizeCmd ∧
      DecodesTo text type args := by
  have hslots : [args.getD 0 [], args.getD 1 [], args.getD 2 []] =
      args ++ List.replicate (p2sMaxArgs - args.length) [] := by
    match args, hcount with
    | [], _ | [_], _ | [_, _], _ | [_, _, _], _ => rfl
  have hall : ∀ a ∈ [args.getD 0 [], args.getD 1 [], args.getD 2 []], Plain a := by
    rw [hslots]
    intro a ha
    rcases List.mem_append.mp ha with ha | ha
    · exact hplain a ha
    · rw [List.eq_of_mem_replicate ha]
      exact plain_nil
  have htext := p2sCmdToString_eq (hargs 0 (by decide)) (hargs 1 (by decide))
    (hargs 2 (by decide)) hall
  rw [htype] at htext
  refine ⟨_, htext, ?_, ?_⟩
  · have hsum := sum_length_le hall
    rw [List.length_append, h.decimal_length, framed_length]
    simp only [List.length_cons, List.length_nil, p2sSizeCmd, p2sMaxArgs, p2sSizeString] at *
    omega
  · have hdecode := decodesTo_framed h hall (by simp [p2sMaxArgs])
    intro c rest
    obtain ⟨d, hd, hret, htyp, hslot⟩ := hdecode c rest
    refine ⟨d, hd, hret, htyp, fun i hi => ?_⟩
    rw [hslot i hi, hslots, getD_append_nil]

/-- Every encoder that can express a command fits its output in its local buffer, and its bytes
decode to the command's type and arguments: `p2s_cmd_to_string`, the senders, and the senders of
numbers for every number. -/
theorem codec_round_trip {type : Int} (h : TwoDigits type) {args : List (List Byte)}
    (hplain : ∀ a ∈ args, Plain a) (hcount : args.length ≤ p2sMaxArgs) :
    (∀ cmd : P2sCmd, cmd.type = type →
      (∀ i < p2sMaxArgs, cmd.arg i = some (args.getD i [])) →
      ∃ text, p2sCmdToString cmd = some text ∧ text.length < p2sSizeCmd ∧
        DecodesTo text type args) ∧
    (∀ s : Send, s.type = type → s.args = args →
      s.text.length < s.room ∧ DecodesTo s.bytes type args) ∧
    (∀ v : Int32, (Send.int type v).text.length < 16 ∧
      DecodesTo (p2sCmdSendInt type v) type [decimal v.toInt]) ∧
    (∀ v : Int64, (Send.long type v).text.length < 32 ∧
      DecodesTo (p2sCmdSendLong type v) type [decimal v.toInt]) := by
  refine ⟨fun cmd htype hargs => decodesTo_toString h hplain hcount htype hargs, ?_, ?_, ?_⟩
  · rintro s rfl rfl
    have hs : s.WellFormed := ⟨h, hcount, hplain⟩
    exact ⟨hs.text_fits, hs.decodesTo⟩
  · exact fun v => ⟨(Send.wellFormed_int h v).text_fits, (Send.wellFormed_int h v).decodesTo⟩
  · exact fun v => ⟨(Send.wellFormed_long h v).text_fits, (Send.wellFormed_long h v).decodesTo⟩

/-- `mv a b`, sent with format `%i"%s"%s"`. -/
theorem codec_round_trip_mv :
    DecodesTo (p2sCmdSendFmt [37, 105, 34, 37, 115, 34, 37, 115, 34]
      [.int 16, .str [97], .str [98]]) 16 [[97], [98]] :=
  ((codec_round_trip (show TwoDigits 16 by decide)
    (show ∀ a ∈ [[97], [98]], Plain a by
      simp only [List.mem_cons, List.not_mem_nil, or_false, forall_eq_or_imp, forall_eq]
      decide)
    (by decide)).2.1 (.fmt 16 [.str [97], .str [98]]) rfl rfl).2

end Psp2Shell.Cmd
