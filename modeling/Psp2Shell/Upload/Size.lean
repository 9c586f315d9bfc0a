import Psp2Shell.Server.Dispatch
import Psp2Shell.Upload.Handshake

/-! The size of a file on its way from the client's `ftell` to the server's `p2s_recv_file`: `%ld`,
`strtoul`, `long`, `size_t`, and `ssize_t` for what has been received. -/

namespace Psp2Shell.Upload

open CLib Cmd

def Kind.command : Kind → Cli.Command
  | put => .put
  | load => .load
  | reload => .reload

/-- `ssize_t received = p2s_recv_file(...)`, where `ssize_t` has 32 bits. -/
def ssizeOf (received : Nat) : Int32 := Int32.ofNat received

/-- `cmd_load` takes the upload for complete: `received > 0`. -/
def loadComplete (received : Nat) : Bool := 0 < (ssizeOf received).toInt

/-- The size of the file arrives in `p2s_recv_file`, or the server answers `CMD_NOK`; and `cmd_load`
takes a file that is not empty for complete when all of its bytes have been received. -/
structure Survives (u : Kind) (size : Int64) (h : Handling) : Prop where
  same : h.receives = some size.toInt.toNat ∨ h.replies = [.send CmdType.nok.code]
  complete : u ≠ .put → h.receives.isSome → 0 < size.toInt → loadComplete size.toInt.toNat = true

/-- The sizes that survive: `cmd_put` needs the size to be a `size_t`, and
`cmd_load` a `ssize_t`. -/
def Kind.limit : Kind → Nat
  | put => 2 ^ 32
  | load | reload => 2 ^ 31

/-- A size goes through the `long` parameter of a handler on its way to the
`size_t` of `p2s_recv_file`. -/
theorem announced_eq (text : List Byte) : announced text = (Server.longSize text).toUInt32.toNat :=
  (Nat.mod_eq_of_lt (strtoul_lt 32 0 text)).symm

theorem announced_decimal {size : Int64} (hsize : 0 ≤ size.toInt) :
    announced (decimal size.toInt) =
      if 2 ^ 32 ≤ size.toInt.toNat then 2 ^ 32 - 1 else size.toInt.toNat := by
  obtain ⟨n, hn⟩ := Int.eq_ofNat_of_zero_le hsize
  rw [announced, decimal, if_neg (by omega), hn, Int.natAbs_natCast, Int.toNat_natCast]
  exact strtoul_decimalNat_eq 32 n

theorem loadComplete_iff {n : Nat} (hpos : 0 < n) (hlt : n < 2 ^ 32) :
    loadComplete n = true ↔ n < 2 ^ 31 := by
  rw [loadComplete, decide_eq_true_iff, ssizeOf]
  by_cases h : n < 2 ^ 31
  · rw [Int32.toInt_ofNat_of_lt h]
    omega
  · have hsize : Int32.size = 2 ^ 32 := rfl
    rw [Int32.toInt_ofNat', Int.bmod_def, hsize]
    omega

theorem Kind.limit_of_ne {u : Kind} (h : u ≠ .put) : u.limit = 2 ^ 31 := by
  cases u with
  | put => exact absurd rfl h
  | load | reload => rfl

theorem Kind.limit_le (u : Kind) : u.limit ≤ 2 ^ 32 := by
  cases u <;> decide

/-- A handler with the announced size. -/
theorem survives_iff (u : Kind) (console : Console) {size : Int64} (hsize : 0 ≤ size.toInt) :
    Survives u size (u.handle console (announced (decimal size.toInt))) ↔
      u.opens console = false ∨ size.toInt < u.limit := by
  have hvalue := announced_decimal hsize
  have hlimit := u.limit_le
  rw [Kind.handle_eq]
  cases hopens : u.opens console with
  | false =>
    refine iff_of_true ⟨Or.inr ?_, by simp⟩ (Or.inl rfl)
    simp [Kind.reply, hopens]
  | true =>
    have hreply : [u.reply console] ≠ [.send CmdType.nok.code] := by
      simp only [Kind.reply, hopens, if_true]
      intro h
      cases h
    rw [if_pos rfl]
    constructor
    · rintro ⟨hsame, hcomplete⟩
      right
      have hsame := Option.some.inj (hsame.resolve_right hreply)
      have hlt : size.toInt.toNat < 2 ^ 32 := by
        by_contra hge
        rw [hvalue, if_pos (by omega)] at hsame
        omega
      by_cases hput : u = .put
      · have hlim : u.limit = 2 ^ 32 := by rw [hput]; rfl
        omega
      · have hlim := Kind.limit_of_ne hput
        by_cases hpos : 0 < size.toInt
        · have := (loadComplete_iff (by omega) hlt).mp (hcomplete hput rfl hpos)
          omega
        · omega
    · rintro (h | hlt)
      · cases h
      · refine ⟨Or.inl ?_, fun hload _ hpos => ?_⟩
        · rw [hvalue, if_neg (by omega)]
        · have hlim := Kind.limit_of_ne hload
          exact (loadComplete_iff (by omega) (by omega)).mpr (by omega)

/-! ### From the client's command to the handler -/

theorem withArg_upload {argv : List (List Byte)} {i : Nat} {k : List Byte → Cli.Outcome} {s : Send}
    {file : Cli.LocalFile} (h : Cli.withArg argv i k = .upload s file) :
    ∃ w, argv[i]? = some w ∧ k w = .upload s file := by
  unfold Cli.withArg at h
  split at h
  · cases h
  · exact ⟨_, ‹_›, h⟩

/-- The upload commands send plain words and the size of the file, in the argument where the
server takes it from. -/
theorem upload_sends {u : Kind} {host : Cli.Host} {argv : List (List Byte)} {s : Send}
    {file : Cli.LocalFile} (hplain : ∀ w ∈ argv.tail, Plain w)
    (h : u.command.func host argv = .upload s file) :
    s.WellFormed ∧ s.type = u.type.code ∧ s.args.getD u.sizeArg [] = decimal file.size.toInt := by
  cases u with
  | put =>
    obtain ⟨path, hpath, hput⟩ := withArg_upload h
    have hname := Server.plain_basename (Server.plain_word hplain hpath)
    have hsent : ∀ dst, Plain dst → (Send.fmt CmdType.put.code [.str (Cli.basename path), .str dst,
        .long file.size.toInt]).WellFormed := by
      intro dst hdst
      refine ⟨twoDigits_code CmdType.put, by simp [Send.args, Send.fmtArgs, p2sMaxArgs], ?_⟩
      simp [Send.args, Send.fmtArgs, FmtArg.text, hname, hdst, plain_long]
    split at hput
    · cases hput
    · dsimp only at hput
      split at hput
      · cases hput
        exact ⟨hsent _ Server.plain_ascii_zero, rfl, rfl⟩
      · obtain ⟨dst, hdst, hput⟩ := withArg_upload hput
        cases hput
        exact ⟨hsent _ (Server.plain_word hplain hdst), rfl, rfl⟩
  | load =>
    have hload : Cli.cmdLoad host argv = .upload s file := h
    unfold Cli.cmdLoad at hload
    split at hload
    · cases hload
    · obtain ⟨path, hpath, hload⟩ := withArg_upload hload
      split at hload
      · cases hload
      · obtain ⟨tid, htid, hload⟩ := withArg_upload hload
        cases hload
        refine ⟨⟨twoDigits_code CmdType.load, by simp [Send.args, Send.fmtArgs, p2sMaxArgs], ?_⟩,
          rfl, rfl⟩
        simp [Send.args, Send.fmtArgs, FmtArg.text, Server.plain_word hplain htid, plain_long]
  | reload =>
    obtain ⟨path, hpath, hreload⟩ := withArg_upload h
    split at hreload
    · cases hreload
    · cases hreload
      refine ⟨⟨twoDigits_code CmdType.reload, by simp [Send.args, Send.fmtArgs, p2sMaxArgs], ?_⟩,
        rfl, rfl⟩
      simp [Send.args, Send.fmtArgs, FmtArg.text, plain_long]

/-- The size of a file survives exactly when the destination does not open or the size is below the
limit of the command. -/
theorem size_survives_iff {u : Kind} {host : Cli.Host} {argv : List (List Byte)} {s : Send}
    {file : Cli.LocalFile} (hplain : ∀ w ∈ argv.tail, Plain w)
    (hcall : u.command.func host argv = .upload s file) (hsize : 0 ≤ file.size.toInt)
    (console : Console)
    (cmd : P2sCmd) (rest : List Byte) :
    ∃ d h, p2sCmdToCmd cmd (s.bytes ++ 0 :: rest) = some d ∧ d.ret = 0 ∧
      p2sCmdParseUpload console d.cmd = some h ∧
      (Survives u file.size h ↔ u.opens console = false ∨ file.size.toInt < u.limit) := by
  obtain ⟨hs, htype, hsizeArg⟩ := upload_sends hplain hcall
  obtain ⟨d, hd, hret, hdtype, hargs⟩ := Server.decoded hs cmd rest
  have harg := hargs u.sizeArg (by cases u <;> decide)
  rw [hsizeArg] at harg
  exact ⟨d, _, hd, hret, p2sCmdParseUpload_eq (hdtype.trans htype) harg console,
    survives_iff u console hsize⟩

/-- `load T f` with a file of three bytes. -/
theorem size_survives_three :
    ∃ d h, p2sCmdToCmd P2sCmd.cleared
        ((Send.fmt CmdType.load.code [.str [84], .long (3 : Int64).toInt]).bytes ++ [0]) = some d ∧
      d.ret = 0 ∧ p2sCmdParseUpload ⟨true, true, true⟩ d.cmd = some h ∧ Survives .load 3 h := by
  have hcall : Kind.load.command.func ⟨0, fun _ => some ⟨3, [1, 2, 3]⟩⟩
    [ascii "load", [84], [102]] =
      .upload (.fmt CmdType.load.code [.str [84], .long (3 : Int64).toInt]) ⟨3, [1, 2, 3]⟩ := rfl
  have hplain : ∀ w ∈ [ascii "load", [84], [102]].tail, Plain w := by
    intro w hw
    rcases List.mem_pair.mp hw with rfl | rfl <;> decide
  obtain ⟨d, h, hd, hret, hparse, hiff⟩ := size_survives_iff hplain hcall (by decide)
    ⟨true, true, true⟩ P2sCmd.cleared []
  exact ⟨d, h, hd, hret, hparse, hiff.mpr (Or.inr (by decide))⟩

/-- A file of 4294967296 bytes is announced to `cmd_put` as one byte less, and one of 2147483648
bytes is not complete for `cmd_load` when it has been received. -/
theorem size_lost :
    announced (decimal (4294967296 : Int64).toInt) = 4294967295 ∧
    ¬Survives .put 4294967296 (Kind.put.handle ⟨true, true, true⟩
      (announced (decimal (4294967296 : Int64).toInt))) ∧
    announced (decimal (2147483648 : Int64).toInt) = 2147483648 ∧ loadComplete 2147483648 = false ∧
    ¬Survives .load 2147483648 (Kind.load.handle ⟨true, true, true⟩
      (announced (decimal (2147483648 : Int64).toInt))) := by
  have hput : 0 ≤ (4294967296 : Int64).toInt := by decide
  have hload : 0 ≤ (2147483648 : Int64).toInt := by decide
  refine ⟨by rw [announced_decimal hput]; decide,
    ?_, by rw [announced_decimal hload]; decide, by decide, ?_⟩
  · rw [survives_iff .put ⟨true, true, true⟩ hput]
    decide
  · rw [survives_iff .load ⟨true, true, true⟩ hload]
    decide

end Psp2Shell.Upload
