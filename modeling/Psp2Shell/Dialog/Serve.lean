import Psp2Shell.Dialog.Model

/-! What the server makes of a command that has arrived whole: the operation that the user has
named, and for an upload the handler with the size of the file. -/

namespace Psp2Shell.Dialog

open CLib Cmd Cli Upload Server

/-- The size that `ftell` has returned is that of the file, and fits in a `size_t` of the server. -/
structure Fits (file : LocalFile) : Prop where
  size : file.size.toInt = file.content.length
  limit : file.content.length < 2 ^ 32

/-- The call has sent `s`, from words and a file that the connection can carry. -/
structure Sends (t : Typed) (s : Send) : Prop where
  call : t.command.func t.host t.argv =
    match t.file with
    | none => .call s
    | some file => .upload s file
  plain : ∀ w ∈ t.argv.tail, Plain w
  fits : ∀ file, t.file = some file → Fits file

/-- The operations are the one that the call names; `title` comes to a second one. -/
structure Performs (t : Typed) (ops : List Operation) : Prop where
  named : t.command ≠ .title → ∃ op, ops = [op] ∧ Names t.command t.host t.argv op
  title : t.command = .title → ops = [.cmdTitle, .cmdMount []]

variable {t : Typed} {s : Send}

theorem Sends.sent (h : Sends t s) : (t.command.func t.host t.argv).sent = some s := by
  rw [h.call]
  cases t.file <;> rfl

/-! ### Uploads -/

/-- The operations that come with a file. -/
def Uploads : Operation → Prop
  | .cmdPut .. | .cmdLoad .. | .cmdReload .. => True
  | _ => False

/-- The command functions that send a file. -/
theorem upload_command {c : Command} {host : Host} {argv : List (List Byte)} {file : LocalFile}
    (h : c.func host argv = .upload s file) : ∃ u : Kind, c = u.command := by
  cases c with
  | put => exact ⟨.put, rfl⟩
  | load => exact ⟨.load, rfl⟩
  | reload => exact ⟨.reload, rfl⟩
  | pwd | reset | reboot | title | modlist | thlist | question | help | exit => cases h
  | ls =>
    simp only [Command.func, cmdLs, Cli.withArg] at h
    repeat' split at h
    all_goals cases h
  | rm | rmdir =>
    simp only [Command.func, cmdRm, cmdRmdir, sendConfirmed, Cli.withArg] at h
    repeat' split at h
    all_goals cases h
  | moddump =>
    simp only [Command.func, cmdModdump, Cli.withArg] at h
    repeat' split at h
    all_goals cases h
  | cd | launch | modlistp | modinfo | modstart | modstop | kmodstart | kmodstop =>
    simp only [Command.func, cmdCd, cmdLaunch, cmdModlsp, cmdModinfo, cmdModloadstart,
      cmdModstopunload, cmdKmodloadstart, cmdKmodstopunload, sendOne, Cli.withArg] at h
    repeat' split at h
    all_goals cases h
  | mv | modinfop | modstartp | modstopp | memr | memw =>
    simp only [Command.func, cmdMv, cmdModinfop, cmdModloadstartp, cmdModstopunloadp,
      cmdMemr, cmdMemw, sendTwo, Cli.withArg] at h
    repeat' split at h
    all_goals cases h

/-- The file of an upload has been opened. -/
theorem upload_opens {c : Command} {host : Host} {argv : List (List Byte)} {file : LocalFile}
    (h : c.func host argv = .upload s file) : ∃ path, host.fopen path = some file := by
  obtain ⟨u, rfl⟩ := upload_command h
  cases u with
  | put =>
    obtain ⟨path, -, hput⟩ := withArg_upload h
    split at hput
    · cases hput
    · rename_i hopen
      refine ⟨path, hopen.trans ?_⟩
      dsimp only at hput
      split at hput
      · cases hput
        rfl
      · obtain ⟨dst, -, hput⟩ := withArg_upload hput
        cases hput
        rfl
  | load =>
    have hload : Cli.cmdLoad host argv = .upload s file := h
    unfold Cli.cmdLoad at hload
    split at hload
    · cases hload
    · obtain ⟨path, -, hload⟩ := withArg_upload hload
      split at hload
      · cases hload
      · rename_i hopen
        obtain ⟨tid, -, hload⟩ := withArg_upload hload
        cases hload
        exact ⟨path, hopen⟩
  | reload =>
    obtain ⟨path, -, hreload⟩ := withArg_upload h
    split at hreload
    · cases hreload
    · rename_i hopen
      cases hreload
      exact ⟨path, hopen⟩

theorem not_call (u : Kind) {host : Host} {argv : List (List Byte)} :
    u.command.func host argv ≠ .call s := by
  intro h
  cases u with
  | put =>
    simp only [Kind.command, Command.func, Cli.cmdPut, Cli.withArg] at h
    repeat' split at h
    all_goals cases h
  | load =>
    simp only [Kind.command, Command.func, Cli.cmdLoad, Cli.withArg] at h
    repeat' split at h
    all_goals cases h
  | reload =>
    simp only [Kind.command, Command.func, Cli.cmdReload, Cli.withArg] at h
    repeat' split at h
    all_goals cases h

/-- A handler of an upload is called only for the operations that come with a file. -/
theorem parseUpload_eq_none {cmd : P2sCmd} {ops : List Operation}
    (hparse : p2sCmdParse cmd = some ops) (hops : ∀ op ∈ ops, ¬Uploads op) (console : Console) :
    p2sCmdParseUpload console cmd = none := by
  have hput : ∀ (n : Int32) (a b : List Byte), ops ≠ [.cmdPut n a b] := by
    rintro n a b rfl
    exact hops _ List.mem_cons_self trivial
  have hload : ∀ (n : Int32) (a : List Byte), ops ≠ [.cmdLoad n a] := by
    rintro n a rfl
    exact hops _ List.mem_cons_self trivial
  have hreload : ∀ n : Int32, ops ≠ [.cmdReload n] := by
    rintro n rfl
    exact hops _ List.mem_cons_self trivial
  unfold p2sCmdParseUpload
  split
  · rename_i htype
    rw [p2sCmdParse, htype, ofCode_code] at hparse
    obtain ⟨size, -, hargs⟩ := Option.bind_eq_some_iff.mp hparse
    obtain ⟨a, -, hb⟩ := Option.bind_eq_some_iff.mp hargs
    obtain ⟨b, -, heq⟩ := Option.map_eq_some_iff.mp hb
    exact absurd heq.symm (hput _ _ _)
  · split
    · rename_i htype
      rw [p2sCmdParse, htype, ofCode_code] at hparse
      obtain ⟨a, -, hb⟩ := Option.bind_eq_some_iff.mp hparse
      obtain ⟨b, -, heq⟩ := Option.map_eq_some_iff.mp hb
      exact absurd heq.symm (hload _ _)
    · split
      · rename_i htype
        rw [p2sCmdParse, htype, ofCode_code] at hparse
        obtain ⟨a, -, heq⟩ := Option.map_eq_some_iff.mp hparse
        exact absurd heq.symm (hreload _)
      · rfl

/-- What a command names comes with a file when it is an upload. -/
theorem not_uploads_of_names {c : Command} {host : Host} {argv : List (List Byte)} {op : Operation}
    (hnames : Names c host argv op) (hc : ∀ u : Kind, c ≠ u.command) : ¬Uploads op := by
  cases c with
  | put => exact absurd rfl (hc .put)
  | load => exact absurd rfl (hc .load)
  | reload => exact absurd rfl (hc .reload)
  | question | help | exit => exact hnames.elim
  | _ =>
    rw [show op = _ from hnames]
    exact id

/-! ### Decoding -/

/-- Every command but `title` comes to the operation that it names. -/
theorem dispatched_sent {c : Command} {host : Host} {argv : List (List Byte)}
    (hplain : ∀ w ∈ argv.tail, Plain w) (h : (c.func host argv).sent = some s) (hne : c ≠ .title) :
    Dispatched c host argv s := by
  cases c with
  | title => exact absurd rfl hne
  | question | help | exit => cases h
  | ls => exact dispatched_ls hplain h
  | put => exact dispatched_put hplain h
  | load => exact dispatched_load hplain h
  | reload => exact dispatched_reload h
  | moddump => exact dispatched_moddump hplain h
  | rm | rmdir =>
    refine dispatched_confirmed hplain (fun cmd htype harg => ⟨_, ?_, rfl⟩) h
    rw [p2sCmdParse, htype]
    exact withArg_eq harg _
  | cd | launch | modlistp | modinfo | modstart | modstop | kmodstart | kmodstop =>
    refine dispatched_one hplain (fun cmd htype harg => ⟨_, ?_, rfl⟩) h
    rw [p2sCmdParse, htype]
    exact withArg_eq harg _
  | mv | modinfop | modstartp | modstopp | memr | memw =>
    refine dispatched_two hplain (fun cmd htype ha hb => ⟨_, ?_, rfl⟩) h
    rw [p2sCmdParse, htype]
    exact withArgs_eq ha hb _
  | pwd | reset | reboot | modlist | thlist =>
    exact dispatched_none (fun cmd htype => ⟨_, by rw [p2sCmdParse, htype], rfl⟩) h

/-- What the server gets of a command: the operations, and the handler if there is a file. -/
structure Received (t : Typed) (cmd : P2sCmd) (ops : List Operation) : Prop where
  parse : p2sCmdParse cmd = some ops
  performs : Performs t ops
  plain : t.file = none → ∀ console, p2sCmdParseUpload console cmd = none
  upload : ∀ file, t.file = some file → ∃ u : Kind, ∀ console,
    p2sCmdParseUpload console cmd = some (u.handle console file.content.length)

theorem decoded_title (h : Sends t s) (htitle : t.command = .title) (cmd : P2sCmd)
    (rest : List Byte) :
    ∃ d ops, p2sCmdToCmd cmd (s.bytes ++ 0 :: rest) = some d ∧ d.ret = 0 ∧
      Received t d.cmd ops := by
  have hcall := h.call
  rw [htitle] at hcall
  cases hfile : t.file with
  | some file =>
    rw [hfile] at hcall
    cases hcall
  | none =>
    rw [hfile] at hcall
    cases hcall
    have hs : (Send.send CmdType.title.code).WellFormed :=
      ⟨twoDigits_code CmdType.title, Nat.zero_le _, by simp [Send.args, Send.fmtArgs]⟩
    obtain ⟨d, hd, hret, htype, harg⟩ := decoded hs cmd rest
    have hof : ofCode d.cmd.type = some .title := by
      rw [htype]
      rfl
    have hparse : p2sCmdParse d.cmd = some [.cmdTitle, .cmdMount []] := by
      rw [p2sCmdParse, hof]
      exact withArg_eq (harg 0 (by decide)) _
    refine ⟨d, _, hd, hret, hparse, ⟨fun hne => absurd htitle hne, fun _ => rfl⟩, fun _ => ?_, ?_⟩
    · apply parseUpload_eq_none hparse
      intro op hop
      rcases List.mem_pair.mp hop with rfl | rfl <;> exact id
    · intro file heq
      rw [hfile] at heq
      cases heq

theorem decoded_sent (h : Sends t s) (cmd : P2sCmd) (rest : List Byte) :
    ∃ d ops, p2sCmdToCmd cmd (s.bytes ++ 0 :: rest) = some d ∧ d.ret = 0 ∧
      Received t d.cmd ops := by
  by_cases htitle : t.command = .title
  · exact decoded_title h htitle cmd rest
  · obtain ⟨d, op, hd, hret, hparse, hnames⟩ := dispatched_sent h.plain h.sent htitle cmd rest
    refine ⟨d, [op], hd, hret, hparse,
      ⟨fun _ => ⟨op, rfl, hnames⟩, fun hc => absurd hc htitle⟩, ?_, ?_⟩
    · intro hfile console
      have hcall := h.call
      rw [hfile] at hcall
      apply parseUpload_eq_none hparse
      intro op' hop
      rw [List.mem_singleton.mp hop]
      apply not_uploads_of_names hnames
      intro u hu
      rw [hu] at hcall
      exact not_call u hcall
    · intro file hfile
      have hcall := h.call
      rw [hfile] at hcall
      obtain ⟨u, hu⟩ := upload_command hcall
      rw [hu] at hcall
      obtain ⟨hs, htype, hsize⟩ := upload_sends h.plain hcall
      obtain ⟨d', hd', -, htype', harg⟩ := decoded hs cmd rest
      obtain rfl : d' = d := Option.some.inj (hd'.symm.trans hd)
      have hslot : d'.cmd.arg u.sizeArg = some (decimal file.size.toInt) := by
        rw [harg u.sizeArg (by cases u <;> decide), hsize]
      have hfits := h.fits file hfile
      have hcount : announced (decimal file.size.toInt) = file.content.length := by
        have hlimit := hfits.limit
        rw [announced_decimal (by rw [hfits.size]; omega), hfits.size, Int.toNat_natCast,
          if_neg (by omega)]
      refine ⟨u, fun console => ?_⟩
      rw [p2sCmdParseUpload_eq (htype'.trans htype) hslot console, hcount]

/-! ### Receiving -/

/-- A command leaves room for a NUL in the buffer of the server. -/
theorem bytes_length_lt (s : Send) : s.bytes.length < p2sSizeCmd := by
  have hprinted : ∀ n text, 0 < n → n ≤ p2sSizeCmd → (snprintf n text).length < p2sSizeCmd := by
    intro n text hpos hn
    rw [snprintf, List.length_take]
    omega
  cases s with
  | send type =>
    have hfour : (p2sCmdSend type).length = 4 := Buffer.size_eq _
    show (p2sCmdSend type).length < p2sSizeCmd
    rw [hfour]
    decide
  | string | fmt | int | long => exact hprinted _ _ (by decide) (by decide)

/-- A command that arrives whole is received. -/
theorem receive_sent (h : Sends t s) (cmd : P2sCmd) :
    ∃ d ops, p2sCmdReceive cmd (.bytes s.bytes) = some d ∧ d.ret = 0 ∧ Received t d.cmd ops := by
  have hlen := bytes_length_lt s
  obtain ⟨k, hk⟩ : ∃ k, p2sSizeCmd - s.bytes.length = k + 1 :=
    ⟨p2sSizeCmd - s.bytes.length - 1, by omega⟩
  have hbuffer : (recvBuffer s.bytes).bytes = s.bytes ++ 0 :: List.replicate k 0 := by
    rw [recvBuffer, Buffer.zero_blit _ hlen.le, hk, List.replicate_succ]
  obtain ⟨d, ops, hd, hret, hreceived⟩ := decoded_sent h cmd (List.replicate k 0)
  rw [← hbuffer] at hd
  have htwo : 2 ≤ s.bytes.length := by
    have htype :=
      (p2sCmdToCmd_ret_zero (cstring_recvBuffer hlen.le (Or.inl hlen)) cmd).mp ⟨d, hd, hret⟩
    exact htype.two_le.trans (received_isPrefix _).length_le
  refine ⟨{ d with ret := 0 }, ops, ?_, rfl, hreceived⟩
  simp only [p2sCmdReceive, if_neg (by omega : ¬s.bytes.length < 2), hd, hret, if_true]

theorem bytes_ne_nil (h : Sends t s) : s.bytes ≠ [] := by
  obtain ⟨d, ops, hd, hret, -⟩ := receive_sent h P2sCmd.cleared
  rintro hnil
  rw [hnil] at hd
  cases hd
  exact absurd hret (by decide)

end Psp2Shell.Dialog
