import Psp2Shell.Cmd.Bounds

/-! The receive loop of `cmd_thread`: which commands it hands to `p2s_cmd_parse` when the socket
gives the stream in pieces. -/

namespace Psp2Shell.Cmd

open CLib

/-- The loop of `cmd_thread` over what successive calls of `recv` give: the commands handed to
`p2s_cmd_parse`, and `none` when a call of `p2s_cmd_receive` reads past its buffer. -/
def cmdLoop : P2sCmd → List Recv → Option (List P2sCmd)
  | _, [] => some []
  | cmd, r :: rs =>
    match p2sCmdReceive cmd r with
    | none => none
    | some d =>
      if d.ret ≠ 0 then
        if d.ret = p2sErrSocket then some [] else cmdLoop d.cmd rs
      else
        match cmdLoop d.cmd rs with
        | none => none
        | some cmds => some (d.cmd :: cmds)

theorem typeDigits_iff (s : List Byte) :
    TypeDigits s ↔ 2 ≤ s.length ∧ CmdType.start.code ≤ typeValue s :=
  ⟨fun h => ⟨h.two_le, (start_le_typeValue h.two_le).mpr h⟩,
    fun h => (start_le_typeValue h.1).mp h.2⟩

instance : DecidablePred TypeDigits := fun s => decidable_of_iff _ (typeDigits_iff s).symm

/-- The command that `p2s_cmd_receive` makes of the bytes of one `recv`. -/
def chunkCommand (c : List Byte) : Option P2sCmd :=
  if TypeDigits (received c) then
    some (P2sCmd.ofArgs (typeValue (received c)) (argFields (received c)))
  else none

theorem received_isPrefix (c : List Byte) : received c <+: c := List.takeWhile_prefix _

theorem p2sCmdReceive_bytes {c : List Byte} (hne : c ≠ []) (hsize : c.length ≤ p2sSizeCmd)
    (hroom : c.length < p2sSizeCmd ∨ 0 ∈ c) (cmd : P2sCmd) :
    ∃ d, p2sCmdReceive cmd (.bytes c) = some d ∧
      ((chunkCommand c = some d.cmd ∧ d.ret = 0) ∨
        (chunkCommand c = none ∧ d.ret = p2sErrInvalidCmd)) := by
  have hs := cstring_recvBuffer hsize hroom
  by_cases hlen : c.length < 2
  · have ht : ¬TypeDigits (received c) := fun ht => by
      have := ht.two_le.trans (received_isPrefix c).length_le
      omega
    exact ⟨⟨p2sErrInvalidCmd, cmd, []⟩, by simp [p2sCmdReceive, hlen, hne],
      Or.inr ⟨if_neg ht, rfl⟩⟩
  · by_cases ht : TypeDigits (received c)
    · refine ⟨⟨0, P2sCmd.ofArgs (typeValue (received c)) (argFields (received c)),
        copiesFrom 0 (argFields (received c))⟩, ?_, Or.inl ⟨if_pos ht, rfl⟩⟩
      simp only [p2sCmdReceive, if_neg hlen, p2sCmdToCmd_accepts hs cmd ht, if_pos]
    · obtain ⟨left, hl⟩ := p2sCmdToCmd_refuses hs cmd ht
      refine ⟨⟨p2sErrInvalidCmd, left, []⟩, ?_, Or.inr ⟨if_neg ht, rfl⟩⟩
      simp only [p2sCmdReceive, if_neg hlen, hl]
      rfl

theorem p2sCmdReceive_overread {c : List Byte} (hsize : c.length = p2sSizeCmd) (hnul : 0 ∉ c)
    (cmd : P2sCmd) : p2sCmdReceive cmd (.bytes c) = none := by
  have hlen : ¬c.length < 2 := by rw [hsize]; decide
  have hs : cstring (recvBuffer c).bytes = none := by
    rw [cstring_eq_none, nul_mem_recvBuffer hsize.le]
    rintro (h | h)
    · omega
    · exact hnul h
  simp only [p2sCmdReceive, if_neg hlen, p2sCmdToCmd, hs]

/-- The pieces that successive calls of `recv` return of a stream. -/
structure Cuts (stream : List Byte) (chunks : List (List Byte)) : Prop where
  flatten : chunks.flatten = stream
  nonempty : ∀ c ∈ chunks, c ≠ []
  size : ∀ c ∈ chunks, c.length ≤ p2sSizeCmd

/-- The loop on pieces that all leave room for a NUL or hold one. -/
theorem cmdLoop_of_room {chunks : List (List Byte)} (hne : ∀ c ∈ chunks, c ≠ [])
    (hsize : ∀ c ∈ chunks, c.length ≤ p2sSizeCmd)
    (hroom : ∀ c ∈ chunks, c.length < p2sSizeCmd ∨ 0 ∈ c) (cmd : P2sCmd) :
    cmdLoop cmd (chunks.map Recv.bytes) = some (chunks.filterMap chunkCommand) := by
  induction chunks generalizing cmd with
  | nil => rfl
  | cons c chunks ih =>
    obtain ⟨d, hd, hcases⟩ := p2sCmdReceive_bytes (hne c (by simp)) (hsize c (by simp))
      (hroom c (by simp)) cmd
    have hrest := ih (fun e he => hne e (List.mem_cons_of_mem _ he))
      (fun e he => hsize e (List.mem_cons_of_mem _ he))
      (fun e he => hroom e (List.mem_cons_of_mem _ he)) d.cmd
    rw [List.map_cons]
    rcases hcases with ⟨hc, hret⟩ | ⟨hc, hret⟩
    · simp only [cmdLoop, hd, hret, ne_eq, not_true_eq_false, if_false, hrest,
        List.filterMap_cons_some hc]
    · have hzero : d.ret ≠ 0 := by rw [hret]; decide
      have hsocket : d.ret ≠ p2sErrSocket := by rw [hret]; decide
      simp only [cmdLoop, hd, if_pos hzero, if_neg hsocket, hrest, List.filterMap_cons_none hc]

/-- A loop that gives commands has met no piece that fills the buffer without a NUL. -/
theorem room_of_cmdLoop {chunks : List (List Byte)} (hne : ∀ c ∈ chunks, c ≠ [])
    (hsize : ∀ c ∈ chunks, c.length ≤ p2sSizeCmd) {cmd : P2sCmd} {cmds : List P2sCmd}
    (h : cmdLoop cmd (chunks.map Recv.bytes) = some cmds) :
    ∀ c ∈ chunks, c.length < p2sSizeCmd ∨ 0 ∈ c := by
  induction chunks generalizing cmd cmds with
  | nil => simp
  | cons c chunks ih =>
    rw [List.map_cons] at h
    have hroom : c.length < p2sSizeCmd ∨ 0 ∈ c := by
      by_contra hno
      rw [not_or] at hno
      have hfull : c.length = p2sSizeCmd := le_antisymm (hsize c (by simp)) (by omega)
      simp [cmdLoop, p2sCmdReceive_overread hfull hno.2] at h
    obtain ⟨d, hd, hcases⟩ := p2sCmdReceive_bytes (hne c (by simp)) (hsize c (by simp)) hroom cmd
    have hsocket : d.ret ≠ p2sErrSocket := by
      rcases hcases with ⟨-, hret⟩ | ⟨-, hret⟩ <;> rw [hret] <;> decide
    have hrest : ∃ more, cmdLoop d.cmd (chunks.map Recv.bytes) = some more := by
      simp only [cmdLoop, hd, if_neg hsocket] at h
      split at h
      · exact ⟨_, h⟩
      · split at h
        · cases h
        · exact ⟨_, by assumption⟩
    obtain ⟨more, hmore⟩ := hrest
    have hall := ih (fun e he => hne e (List.mem_cons_of_mem _ he))
      (fun e he => hsize e (List.mem_cons_of_mem _ he)) hmore
    simpa using ⟨hroom, hall⟩

theorem cmdLoop_eq_some_iff {stream : List Byte} {chunks : List (List Byte)}
    (h : Cuts stream chunks) (cmd : P2sCmd) (cmds : List P2sCmd) :
    cmdLoop cmd (chunks.map Recv.bytes) = some cmds ↔
      (∀ c ∈ chunks, c.length < p2sSizeCmd ∨ 0 ∈ c) ∧ chunks.filterMap chunkCommand = cmds := by
  constructor
  · intro hloop
    have hroom := room_of_cmdLoop h.nonempty h.size hloop
    rw [cmdLoop_of_room h.nonempty h.size hroom] at hloop
    exact ⟨hroom, Option.some.inj hloop⟩
  · rintro ⟨hroom, rfl⟩
    exact cmdLoop_of_room h.nonempty h.size hroom cmd

end Psp2Shell.Cmd
