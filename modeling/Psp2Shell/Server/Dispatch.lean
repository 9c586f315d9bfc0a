import Psp2Shell.CLib.Numbers
import Psp2Shell.Cli.Model
import Psp2Shell.Cmd.RoundTrip
import Psp2Shell.Server.Model

/-! From the client's command table to the server's operations: what a command that is typed
comes to on the server. -/

namespace Psp2Shell.Server

open CLib Cmd Cli

/-- A size parameter for a file of a given size, where `long` has 32 bits. -/
def SizeOf (param : Int32) (size : Int64) : Prop :=
  0 ≤ size.toInt → size.toInt < 2 ^ 31 → param.toInt = size.toInt

/-- `argv[i]`, and the empty word past the end. -/
def word (argv : List (List Byte)) (i : Nat) : List Byte := argv.getD i []

/-- The operation that a command's description names, with each word as the parameter that the
command's usage line makes of it. -/
def Names (c : Command) (host : Host) (argv : List (List Byte)) (op : Operation) : Prop :=
  match c with
  | .cd => op = .cmdCd (word argv 1)
  | .ls => op = .cmdLs (if argv.length < 2 then ascii "root" else word argv 1)
  | .pwd => op = .cmdPwd
  | .rm => op = .cmdRm (word argv 1)
  | .rmdir => op = .cmdRmdir (word argv 1)
  | .mv => op = .cmdMv (word argv 1) (word argv 2)
  | .put => ∃ file size, host.fopen (word argv 1) = some file ∧ SizeOf size file.size ∧
      op = .cmdPut size (basename (word argv 1)) (if argv.length <
        3 then ascii "0" else word argv 2)
  | .reset => op = .cmdReset
  | .load => ∃ file size, host.fopen (word argv 2) = some file ∧ SizeOf size file.size ∧
      op = .cmdLoad size (word argv 1)
  | .reload => ∃ file size, host.fopen (word argv 1) = some file ∧ SizeOf size file.size ∧
      op = .cmdReload size
  | .launch => op = .p2sLaunchAppByUri (word argv 1)
  | .reboot => op = .cmdReboot
  | .title => op = .cmdTitle
  | .modlist => op = .p2sModuleList
  | .modlistp => op = .p2sModuleListForPid (sceUid (word argv 1))
  | .modinfo => op = .p2sModuleInfo (sceUid (word argv 1))
  | .modinfop => op = .p2sModuleInfoForPid (sceUid (word argv 1)) (sceUid (word argv 2))
  | .modstart => op = .p2sModuleLoadStart (word argv 1)
  | .modstartp => op = .p2sModuleLoadStartForPid (sceUid (word argv 1)) (word argv 2)
  | .modstop => op = .p2sModuleStopUnload (sceUid (word argv 1))
  | .modstopp => op = .p2sModuleStopUnloadForPid (sceUid (word argv 1)) (sceUid (word argv 2))
  | .kmodstart => op = .p2sKmoduleLoadStart (word argv 1)
  | .kmodstop => op = .p2sKmoduleStopUnload (sceUid (word argv 1))
  | .moddump =>
    op = .p2sModuleDumpForPid (sceUid (word argv 1)) (sceUid (word argv 2)) (word argv 3)
  | .thlist => op = .psThreadList
  | .memr => op = .cmdMemr (word argv 1) (word argv 2)
  | .memw => op = .cmdMemw (word argv 1) (word argv 2)
  | .question | .help | .exit => False

/-- What a handler sends is decoded, and comes to one operation, the one that the command names. -/
def Dispatched (c : Command) (host : Host) (argv : List (List Byte)) (s : Send) : Prop :=
  ∀ (cmd : P2sCmd) (rest : List Byte), ∃ d op, p2sCmdToCmd cmd (s.bytes ++ 0 :: rest) = some d ∧
    d.ret = 0 ∧ p2sCmdParse d.cmd = some [op] ∧ Names c host argv op

/-! ### Sizes -/

theorem longSize_decimal (size : Int64) : SizeOf (longSize (decimal size.toInt)) size := by
  intro hpos hlt
  obtain ⟨n, hn⟩ := Int.eq_ofNat_of_zero_le hpos
  have hread : strtoul 32 0 (decimal size.toInt) = n := by
    rw [decimal, if_neg (by omega), hn, Int.natAbs_natCast]
    exact strtoul_decimalNat (by omega)
  rw [longSize, hread, hn, Int32.toInt_ofNat_of_lt (by omega)]

/-! ### Decoded commands -/

theorem arg_of_slot {cmd : P2sCmd} {i : Nat} {a : List Byte} (ha : Plain a)
    (h : cmd.slot i = a ++ List.replicate (p2sSizeString - a.length) 0) : cmd.arg i = some a := by
  obtain ⟨k, hk⟩ : ∃ k, p2sSizeString - a.length = k + 1 := by
    have := ha.fits
    exact ⟨p2sSizeString - a.length - 1, by omega⟩
  have hdrop : cmd.args.bytes.drop (i * p2sSizeString) =
      cmd.slot i ++ (cmd.args.bytes.drop (i * p2sSizeString)).drop p2sSizeString :=
    (List.take_append_drop p2sSizeString _).symm
  rw [P2sCmd.arg, hdrop, h, hk, List.replicate_succ, List.append_assoc, List.cons_append]
  exact cstring_terminated ha.no_nul _

/-- What a call with plain arguments sends is decoded to its type and its arguments. -/
theorem decoded {s : Send} (h : s.WellFormed) (cmd : P2sCmd) (rest : List Byte) :
    ∃ d, p2sCmdToCmd cmd (s.bytes ++ 0 :: rest) = some d ∧ d.ret = 0 ∧ d.cmd.type = s.type ∧
      ∀ i < p2sMaxArgs, d.cmd.arg i = some (s.args.getD i []) := by
  obtain ⟨d, hd, hret, htype, hslot⟩ := h.decodesTo cmd rest
  refine ⟨d, hd, hret, htype, fun i hi => arg_of_slot ?_ (hslot i hi)⟩
  by_cases hlen : i < s.args.length
  · rw [List.getD_eq_getElem _ _ hlen]
    exact h.plain _ (List.getElem_mem hlen)
  · rw [List.getD_eq_default _ _ (by omega)]
    exact plain_nil

theorem plain_ascii_root : Plain (ascii "root") := by decide

theorem plain_ascii_zero : Plain (ascii "0") := by decide

theorem plain_basename {path : List Byte} (h : Plain path) : Plain (basename path) := by
  unfold basename
  split
  · decide
  · dsimp only
    split
    · decide
    · have hsub : ∀ b ∈ (path.rdropWhile (· = 47)).rtakeWhile (· ≠ 47), b ∈ path := fun b hb =>
        (List.rdropWhile_prefix _ _).subset ((List.rtakeWhile_suffix _ _).subset hb)
      have hlen : ((path.rdropWhile (· = 47)).rtakeWhile (· ≠ 47)).length ≤ path.length :=
        (List.rtakeWhile_suffix _ _).length_le.trans (List.rdropWhile_prefix _ _).length_le
      exact ⟨fun h0 => h.no_nul (hsub _ h0), fun hq => h.no_quote (hsub _ hq), hlen.trans_lt h.fits⟩

/-- A call of a sender with plain arguments: the case of `p2s_cmd_parse` for its type gets them. -/
theorem dispatched_of {c : Command} {host : Host} {argv : List (List Byte)} {s : Send} {t : CmdType}
    (htype : s.type = t.code) (hcount : s.args.length ≤ p2sMaxArgs) (hplain : ∀ a ∈ s.args, Plain a)
    (hcase : ∀ cmd : P2sCmd, ofCode cmd.type = some t →
      (∀ i < p2sMaxArgs, cmd.arg i = some (s.args.getD i [])) →
      ∃ op, p2sCmdParse cmd = some [op] ∧ Names c host argv op) :
    Dispatched c host argv s := by
  intro cmd rest
  have hs : s.WellFormed := ⟨htype ▸ twoDigits_code t, hcount, hplain⟩
  obtain ⟨d, hd, hret, htyp, harg⟩ := decoded hs cmd rest
  obtain ⟨op, hparse, hnames⟩ := hcase d.cmd (by rw [htyp, htype, ofCode_code]) harg
  exact ⟨d, op, hd, hret, hparse, hnames⟩

/-! ### Families of handlers -/

section Families

variable {c : Command} {host : Host} {argv : List (List Byte)} {s : Send} {t : CmdType}

theorem word_eq {i : Nat} {w : List Byte} (h : argv[i]? = some w) : word argv i = w := by
  rw [word, List.getD_eq_getElem?_getD, h]
  rfl

theorem plain_word (hplain : ∀ w ∈ argv.tail, Plain w) {i : Nat} {w : List Byte}
    (h : argv[i + 1]? = some w) : Plain w := by
  apply hplain
  rw [← List.getElem?_tail] at h
  exact List.mem_of_getElem? h

theorem withArg_sent {i : Nat} {k : List Byte → Outcome}
    (h : (Cli.withArg argv i k).sent = some s) :
    ∃ w, argv[i]? = some w ∧ (k w).sent = some s := by
  unfold Cli.withArg at h
  split at h
  · cases h
  · exact ⟨_, ‹_›, h⟩

theorem withArg_eq {cmd : P2sCmd} {a : List Byte} (h : cmd.arg 0 = some a)
    (calls : List Byte → List Operation) : withArg cmd calls = some (calls a) := by
  rw [withArg, h]
  rfl

theorem withArgs_eq {cmd : P2sCmd} {a b : List Byte} (ha : cmd.arg 0 = some a)
    (hb : cmd.arg 1 = some b) (calls : List Byte → List Byte → List Operation) :
    withArgs cmd calls = some (calls a b) := by
  rw [withArgs, ha, hb]
  rfl

theorem dispatched_none
    (hcase : ∀ cmd, ofCode cmd.type = some t → ∃ op, p2sCmdParse cmd = some [op] ∧
      Names c host argv op)
    (h : (sendNone t host argv).sent = some s) : Dispatched c host argv s := by
  cases h
  exact dispatched_of (t := t) rfl (Nat.zero_le _) (by simp [Send.args, Send.fmtArgs])
    fun cmd htype _ => hcase cmd htype

theorem dispatched_string {w : List Byte} (hw : Plain w)
    (hcase : ∀ cmd, ofCode cmd.type = some t → cmd.arg 0 = some w →
      ∃ op, p2sCmdParse cmd = some [op] ∧ Names c host argv op) :
    Dispatched c host argv (.string t.code w) :=
  dispatched_of (t := t) rfl (by simp [Send.args, Send.fmtArgs, p2sMaxArgs])
    (by simpa [Send.args, Send.fmtArgs, FmtArg.text] using hw)
    fun cmd htype harg => hcase cmd htype (harg 0 (by decide))

theorem dispatched_one (hplain : ∀ w ∈ argv.tail, Plain w)
    (hcase : ∀ cmd, ofCode cmd.type = some t → cmd.arg 0 = some (word argv 1) →
      ∃ op, p2sCmdParse cmd = some [op] ∧ Names c host argv op)
    (h : (sendOne t host argv).sent = some s) : Dispatched c host argv s := by
  unfold sendOne at h
  split at h
  · cases h
  · obtain ⟨w, hw, hs⟩ := withArg_sent h
    cases hs
    exact dispatched_string (plain_word hplain hw) (word_eq hw ▸ hcase)

theorem dispatched_confirmed (hplain : ∀ w ∈ argv.tail, Plain w)
    (hcase : ∀ cmd, ofCode cmd.type = some t → cmd.arg 0 = some (word argv 1) →
      ∃ op, p2sCmdParse cmd = some [op] ∧ Names c host argv op)
    (h : (sendConfirmed t host argv).sent = some s) : Dispatched c host argv s := by
  unfold sendConfirmed at h
  split at h
  · cases h
  · obtain ⟨w, hw, hs⟩ := withArg_sent h
    split at hs
    · cases hs
      exact dispatched_string (plain_word hplain hw) (word_eq hw ▸ hcase)
    · cases hs

theorem dispatched_fmt {args : List FmtArg} (hcount : args.length ≤ p2sMaxArgs)
    (hargs : ∀ a ∈ args, Plain a.text)
    (hcase : ∀ cmd, ofCode cmd.type = some t →
      (∀ i < p2sMaxArgs, cmd.arg i = some ((args.map FmtArg.text).getD i [])) →
      ∃ op, p2sCmdParse cmd = some [op] ∧ Names c host argv op) :
    Dispatched c host argv (.fmt t.code args) :=
  dispatched_of (t := t) rfl (by simpa [Send.args, Send.fmtArgs] using hcount)
    (by simpa [Send.args, Send.fmtArgs] using hargs) hcase

theorem dispatched_two (hplain : ∀ w ∈ argv.tail, Plain w)
    (hcase : ∀ cmd, ofCode cmd.type = some t → cmd.arg 0 = some (word argv 1) →
      cmd.arg 1 = some (word argv 2) →
      ∃ op, p2sCmdParse cmd = some [op] ∧ Names c host argv op)
    (h : (sendTwo t host argv).sent = some s) : Dispatched c host argv s := by
  unfold sendTwo at h
  split at h
  · cases h
  · obtain ⟨a, ha, hs⟩ := withArg_sent h
    obtain ⟨b, hb, hs⟩ := withArg_sent hs
    cases hs
    apply dispatched_fmt (by simp [p2sMaxArgs])
    · simp [FmtArg.text, plain_word hplain ha, plain_word hplain hb]
    · intro cmd htype harg
      exact hcase cmd htype ((harg 0 (by decide)).trans (congrArg some (word_eq ha).symm))
        ((harg 1 (by decide)).trans (congrArg some (word_eq hb).symm))

theorem dispatched_ls (hplain : ∀ w ∈ argv.tail, Plain w)
    (h : (cmdLs host argv).sent = some s) : Dispatched .ls host argv s := by
  unfold cmdLs at h
  split at h
  · rename_i hlen
    cases h
    exact dispatched_string plain_ascii_root fun cmd htype harg =>
      ⟨_, by rw [p2sCmdParse, htype]; exact withArg_eq harg _, by simp only [Names, if_pos hlen]⟩
  · rename_i hlen
    obtain ⟨w, hw, hs⟩ := withArg_sent h
    cases hs
    exact dispatched_string (plain_word hplain hw) fun cmd htype harg =>
      ⟨_, by rw [p2sCmdParse, htype]; exact withArg_eq harg _,
        by simp only [Names, if_neg hlen, word_eq hw]⟩

theorem dispatched_moddump (hplain : ∀ w ∈ argv.tail, Plain w)
    (h : (cmdModdump host argv).sent = some s) : Dispatched .moddump host argv s := by
  unfold cmdModdump at h
  split at h
  · cases h
  · obtain ⟨a, ha, hs⟩ := withArg_sent h
    obtain ⟨b, hb, hs⟩ := withArg_sent hs
    obtain ⟨d, hd, hs⟩ := withArg_sent hs
    cases hs
    apply dispatched_fmt (by simp [p2sMaxArgs])
    · simp [FmtArg.text, plain_word hplain ha, plain_word hplain hb, plain_word hplain hd]
    · intro cmd htype harg
      have h0 : cmd.arg 0 = some a := harg 0 (by decide)
      have h1 : cmd.arg 1 = some b := harg 1 (by decide)
      have h2 : cmd.arg 2 = some d := harg 2 (by decide)
      refine ⟨.p2sModuleDumpForPid (sceUid a) (sceUid b) d, ?_, ?_⟩
      · rw [p2sCmdParse, htype]
        simp only [h2, Option.bind_some]
        exact withArgs_eq h0 h1 _
      · simp only [Names, word_eq ha, word_eq hb, word_eq hd]

theorem dispatched_put (hplain : ∀ w ∈ argv.tail, Plain w)
    (h : (cmdPut host argv).sent = some s) : Dispatched .put host argv s := by
  unfold cmdPut at h
  obtain ⟨path, hpath, hs⟩ := withArg_sent h
  cases hopen : host.fopen path with
  | none => simp [hopen, Outcome.sent] at hs
  | some file =>
    simp only [hopen] at hs
    have hput : ∀ dst, Plain dst →
        dst = (if argv.length < 3 then ascii "0" else word argv 2) →
        Dispatched .put host argv (.fmt CmdType.put.code
          [.str (basename path), .str dst, .long file.size.toInt]) := by
      intro dst hdst hnamed
      apply dispatched_fmt (by simp [p2sMaxArgs])
      · simp [FmtArg.text, plain_basename (plain_word hplain hpath), hdst, plain_long]
      · intro cmd htype harg
        have h0 : cmd.arg 0 = some (basename path) := harg 0 (by decide)
        have h1 : cmd.arg 1 = some dst := harg 1 (by decide)
        have h2 : cmd.arg 2 = some (decimal file.size.toInt) := harg 2 (by decide)
        refine ⟨.cmdPut (longSize (decimal file.size.toInt)) (basename path) dst, ?_, file, _, ?_,
          longSize_decimal file.size, ?_⟩
        · rw [p2sCmdParse, htype]
          simp only [h2, Option.bind_some]
          exact withArgs_eq h0 h1 _
        · rw [word_eq hpath, hopen]
        · rw [word_eq hpath, hnamed]
    split at hs
    · rename_i hlen
      cases hs
      exact hput _ plain_ascii_zero (by rw [if_pos hlen])
    · rename_i hlen
      obtain ⟨dst, hdst, hs⟩ := withArg_sent hs
      cases hs
      exact hput _ (plain_word hplain hdst) (by rw [if_neg hlen, word_eq hdst])

theorem dispatched_load (hplain : ∀ w ∈ argv.tail, Plain w)
    (h : (cmdLoad host argv).sent = some s) : Dispatched .load host argv s := by
  unfold cmdLoad at h
  split at h
  · cases h
  · obtain ⟨path, hpath, hs⟩ := withArg_sent h
    cases hopen : host.fopen path with
    | none => simp [hopen, Outcome.sent] at hs
    | some file =>
      simp only [hopen] at hs
      obtain ⟨tid, htid, hs⟩ := withArg_sent hs
      cases hs
      apply dispatched_fmt (by simp [p2sMaxArgs])
      · simp [FmtArg.text, plain_word hplain htid, plain_long]
      · intro cmd htype harg
        have h0 : cmd.arg 0 = some tid := harg 0 (by decide)
        have h1 : cmd.arg 1 = some (decimal file.size.toInt) := harg 1 (by decide)
        refine ⟨_, by rw [p2sCmdParse, htype]; exact withArgs_eq h0 h1 _, file, _, ?_,
          longSize_decimal file.size, ?_⟩
        · rw [word_eq hpath, hopen]
        · rw [word_eq htid]

theorem dispatched_reload (h : (cmdReload host argv).sent = some s) :
    Dispatched .reload host argv s := by
  unfold cmdReload at h
  obtain ⟨path, hpath, hs⟩ := withArg_sent h
  cases hopen : host.fopen path with
  | none => simp [hopen, Outcome.sent] at hs
  | some file =>
    simp only [hopen] at hs
    cases hs
    apply dispatched_of (t := CmdType.reload) rfl (by simp [Send.args, Send.fmtArgs, p2sMaxArgs])
    · simp [Send.args, Send.fmtArgs, FmtArg.text, plain_long]
    · intro cmd htype harg
      have h0 : cmd.arg 0 = some (decimal file.size.toInt) := harg 0 (by decide)
      refine ⟨_, by rw [p2sCmdParse, htype]; exact withArg_eq h0 _, file, _, ?_,
        longSize_decimal file.size, rfl⟩
      rw [word_eq hpath, hopen]

/-- The case of `CMD_TITLE` goes on into that of `CMD_MOUNT`. -/
theorem not_dispatched_title (h : (cmdTitle host argv).sent = some s) :
    ¬Dispatched .title host argv s := by
  cases h
  intro hd
  obtain ⟨d, op, hdecode, -, hparse, -⟩ := hd P2sCmd.cleared []
  have hs : (Send.send CmdType.title.code).WellFormed :=
    ⟨twoDigits_code CmdType.title, Nat.zero_le _, by simp [Send.args, Send.fmtArgs]⟩
  obtain ⟨d', hdecode', -, htype, harg⟩ := decoded hs P2sCmd.cleared []
  obtain rfl : d' = d := Option.some.inj (hdecode'.symm.trans hdecode)
  have htitle : ofCode d'.cmd.type = some .title := by rw [htype]; rfl
  have h0 : d'.cmd.arg 0 = some [] := harg 0 (by decide)
  simp [p2sCmdParse, htitle, withArg, h0] at hparse

end Families

/-- A command that is sent comes to the one operation that it names exactly
when it is not `title`. -/
theorem dispatched_iff {c : Command} {host : Host} {argv : List (List Byte)} {s : Send}
    (hplain : ∀ w ∈ argv.tail, Plain w) (h : (c.func host argv).sent = some s) :
    Dispatched c host argv s ↔ c ≠ .title := by
  refine ⟨?_, fun hne => ?_⟩
  · rintro hd rfl
    exact not_dispatched_title h hd
  · cases c with
    | title => exact absurd rfl hne
    | question | help | exit => cases h
    | ls => exact dispatched_ls hplain h
    | put => exact dispatched_put hplain h
    | load => exact dispatched_load hplain h
    | reload => exact dispatched_reload h
    | moddump => exact dispatched_moddump hplain h
    | rm | rmdir =>
      exact dispatched_confirmed hplain (fun cmd htype harg =>
        ⟨_, by rw [p2sCmdParse, htype]; exact withArg_eq harg _, rfl⟩) h
    | cd | launch | modlistp | modinfo | modstart | modstop | kmodstart | kmodstop =>
      exact dispatched_one hplain (fun cmd htype harg =>
        ⟨_, by rw [p2sCmdParse, htype]; exact withArg_eq harg _, rfl⟩) h
    | mv | modinfop | modstartp | modstopp | memr | memw =>
      exact dispatched_two hplain (fun cmd htype ha hb =>
        ⟨_, by rw [p2sCmdParse, htype]; exact withArgs_eq ha hb _, rfl⟩) h
    | pwd | reset | reboot | modlist | thlist =>
      exact dispatched_none (fun cmd htype => ⟨_, by rw [p2sCmdParse, htype], rfl⟩) h

/-- `mv a b`. -/
theorem dispatched_mv : Dispatched .mv ⟨121, fun _ => none⟩ [ascii "mv", ascii "a", ascii "b"]
    (.fmt CmdType.mv.code [.str (ascii "a"), .str (ascii "b")]) :=
  (dispatched_iff (fun w hw => by
    rcases List.mem_pair.mp hw with rfl | rfl <;> decide) rfl).mpr
    (by decide)

/-- `title` gets its answer and then mounts the empty title. -/
theorem title_mounts :
    (Command.title.func ⟨121, fun _ => none⟩ [ascii "title"]).sent =
      some (.send CmdType.title.code) ∧
    (p2sCmdToCmd P2sCmd.cleared ((Send.send CmdType.title.code).bytes ++ [0])).bind
      (fun d => p2sCmdParse d.cmd) = some [.cmdTitle, .cmdMount []] ∧
    ¬Dispatched .title ⟨121, fun _ => none⟩ [ascii "title"] (.send CmdType.title.code) :=
  ⟨rfl, by decide +kernel, not_dispatched_title rfl⟩

end Psp2Shell.Server
