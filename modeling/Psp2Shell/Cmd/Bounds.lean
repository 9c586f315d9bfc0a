import Psp2Shell.Cmd.RoundTrip

/-! The memory that the decoder touches when it reads a buffer that one `recv` has filled. -/

namespace Psp2Shell.Cmd

open CLib

/-- The decoder's accesses on a received buffer are inside their objects: the buffer has a NUL, each
`strncpy` stays inside its slot, and on success each slot has a NUL. -/
structure DecodesInBounds (buffer : Buffer p2sSizeCmd) : Prop where
  terminated : 0 ∈ buffer.bytes
  copies : ∀ cmd d, p2sCmdToCmd cmd buffer.bytes = some d →
    ∀ c ∈ d.copies, c.1 < p2sMaxArgs ∧ c.2 ≤ p2sSizeString
  slots : ∀ cmd d, p2sCmdToCmd cmd buffer.bytes = some d → d.ret = 0 →
    ∀ i < p2sMaxArgs, 0 ∈ d.cmd.slot i

/-- The received bytes up to the first NUL. -/
def received (bs : List Byte) : List Byte := bs.takeWhile (· ≠ 0)

/-- The received bytes leave room for a NUL or hold one, and when they start with a type, each of
the first three arguments between quotes is shorter than a slot. -/
structure Fits (bs : List Byte) : Prop where
  room : bs.length < p2sSizeCmd ∨ 0 ∈ bs
  args : TypeDigits (received bs) → ∀ a ∈ argFields (received bs), a.length < p2sSizeString

theorem nul_mem_recvBuffer {bs : List Byte} (h : bs.length ≤ p2sSizeCmd) :
    0 ∈ (recvBuffer bs).bytes ↔ bs.length < p2sSizeCmd ∨ 0 ∈ bs :=
  Buffer.nul_mem_zero_blit h

theorem cstring_recvBuffer {bs : List Byte} (h : bs.length ≤ p2sSizeCmd)
    (hroom : bs.length < p2sSizeCmd ∨ 0 ∈ bs) :
    cstring (recvBuffer bs).bytes = some (received bs) :=
  Buffer.cstring_zero_blit h hroom

theorem received_no_nul (bs : List Byte) : 0 ∉ received bs := by
  intro h
  simpa using List.mem_takeWhile_imp h

theorem mem_copiesFrom {i : Nat} {as : List (List Byte)} {c : Nat × Nat}
    (h : c ∈ copiesFrom i as) : c.1 < i + as.length ∧ ∃ a ∈ as, c.2 = a.length := by
  induction as generalizing i with
  | nil => simp [copiesFrom] at h
  | cons a as ih =>
    rcases List.mem_cons.mp h with rfl | h
    · exact ⟨by simp, a, by simp, rfl⟩
    · obtain ⟨hi, b, hb, hc⟩ := ih h
      exact ⟨by simp; omega, b, List.mem_cons_of_mem _ hb, hc⟩

theorem length_mem_copiesFrom {as : List (List Byte)} {a : List Byte} (h : a ∈ as) (i : Nat) :
    ∃ k, (k, a.length) ∈ copiesFrom i as := by
  induction as generalizing i with
  | nil => simp at h
  | cons b as ih =>
    rcases List.mem_cons.mp h with rfl | h
    · exact ⟨i, by simp [copiesFrom]⟩
    · obtain ⟨k, hk⟩ := ih h (i + 1)
      exact ⟨k, List.mem_cons_of_mem _ hk⟩

theorem argFields_length (s : List Byte) : (argFields s).length ≤ p2sMaxArgs := by
  simp [argFields]

theorem nul_not_mem_argFields {s a : List Byte} (hs : 0 ∉ s) (ha : a ∈ argFields s) : 0 ∉ a := by
  have hmem : a ∈ fields quote s := List.mem_of_mem_take ha
  intro h0
  by_cases hq : quote ∈ s
  · obtain ⟨pre, as, post, rfl, hpre, has, hpost⟩ := exists_framed hq
    rw [fields_framed hpre has hpost] at hmem
    apply hs
    have : 0 ∈ framed quote as := by
      rw [framed]
      exact List.mem_cons_of_mem _ (List.mem_flatMap.mpr ⟨a, hmem, by simp [h0]⟩)
    simp [this]
  · simp [fields_of_not_mem hq] at hmem

theorem Fits.inBounds {bs : List Byte} (h : bs.length ≤ p2sSizeCmd) (hfits : Fits bs) :
    DecodesInBounds (recvBuffer bs) := by
  have hs := cstring_recvBuffer h hfits.room
  refine ⟨(nul_mem_recvBuffer h).mpr hfits.room, fun cmd d hd c hc => ?_,
    fun cmd d hd hret i hi => ?_⟩
  all_goals
    by_cases ht : TypeDigits (received bs)
    case neg =>
      obtain ⟨left, hl⟩ := p2sCmdToCmd_refuses hs cmd ht
      rw [hl] at hd
      cases hd
      simp at *
  · rw [p2sCmdToCmd_accepts hs cmd ht] at hd
    cases hd
    obtain ⟨hi, a, ha, hca⟩ := mem_copiesFrom hc
    have := argFields_length (received bs)
    exact ⟨by omega, by rw [hca]; exact (hfits.args ht a ha).le⟩
  · rw [p2sCmdToCmd_accepts hs cmd ht] at hd
    cases hd
    have hlt := hfits.args ht
    rw [slot_terminated (fun a ha => (hlt a ha).le) (argFields_length _)
      (fun a ha => nul_not_mem_argFields (received_no_nul bs) ha) _ hi]
    by_cases hk : i < (argFields (received bs)).length
    · rw [List.getD_eq_getElem _ _ hk]
      exact hlt _ (List.getElem_mem hk)
    · rw [List.getD_eq_default _ _ (by omega)]
      decide

theorem DecodesInBounds.fits {bs : List Byte} (h : bs.length ≤ p2sSizeCmd)
    (hin : DecodesInBounds (recvBuffer bs)) : Fits bs := by
  have hroom := (nul_mem_recvBuffer h).mp hin.terminated
  have hs := cstring_recvBuffer h hroom
  refine ⟨hroom, fun ht a ha => ?_⟩
  have hdec := p2sCmdToCmd_accepts hs P2sCmd.cleared ht
  have hle : ∀ b ∈ argFields (received bs), b.length ≤ p2sSizeString := by
    intro b hb
    obtain ⟨k, hk⟩ := length_mem_copiesFrom hb 0
    exact (hin.copies _ _ hdec _ hk).2
  obtain ⟨i, hi, rfl⟩ := List.getElem_of_mem ha
  have hlen := argFields_length (received bs)
  have hnul := hin.slots _ _ hdec rfl i (by omega)
  rw [slot_terminated hle hlen
    (fun b hb => nul_not_mem_argFields (received_no_nul bs) hb) _ (by omega)] at hnul
  rwa [List.getD_eq_getElem _ _ hi] at hnul

/-- When `p2s_cmd_receive` or `p2s_cmd_wait_result` hands the buffer of a `recv` to the decoder, the
decoder's accesses are in bounds exactly when the received bytes fit. -/
theorem received_in_bounds_iff (bs : List Byte) (h : bs.length ≤ p2sSizeCmd) :
    (2 ≤ bs.length → DecodesInBounds (recvBuffer bs)) ↔ Fits bs := by
  constructor
  · intro hin
    by_cases hlen : 2 ≤ bs.length
    · exact (hin hlen).fits h
    · refine ⟨Or.inl (by simp only [p2sSizeCmd, p2sMaxArgs, p2sSizeString]; omega), fun ht => ?_⟩
      have htwo := ht.two_le
      have := (List.takeWhile_prefix (fun b : Byte => decide (b ≠ 0)) (l := bs)).length_le
      simp only [received] at htwo
      omega
  · exact fun hfits _ => hfits.inBounds h

/-- A received `rm` without a quote in it. -/
theorem received_in_bounds_rm : DecodesInBounds (recvBuffer [49, 51]) :=
  (received_in_bounds_iff [49, 51] (by decide)).mpr
    ⟨Or.inl (by decide), fun _ => by decide⟩ (by decide)

theorem received_of_no_nul {bs : List Byte} (h : 0 ∉ bs) : received bs = bs :=
  takeWhile_of_no_nul h

theorem not_fits_of_long {type : Int} (h : TwoDigits type) {a : List Byte} (hnul : 0 ∉ a)
    (hquote : quote ∉ a) (hlong : p2sSizeString ≤ a.length) :
    ¬Fits (decimal type ++ framed quote [a]) := by
  intro hfits
  have hrecv : received (decimal type ++ framed quote [a]) = decimal type ++ framed quote [a] := by
    apply received_of_no_nul
    rw [List.mem_append, not_or]
    exact ⟨nul_not_mem_decimal type, not_mem_framed (by decide) (by simpa using hnul)⟩
  have hfields : fields quote (decimal type ++ framed quote [a]) = [a] :=
    fields_framed_end (quote_not_mem_decimal type) (by simpa using hquote)
  have hargs := hfits.args
  rw [hrecv, argFields, hfields] at hargs
  have hlt := hargs (h.typeDigits _) a (by simp [p2sMaxArgs])
  omega

/-- `ls` with an argument of 513 bytes, as `p2s_cmd_send_string` sends it, is not decoded in
bounds. -/
theorem overrun_of_long_argument :
    (decimal 11 ++ framed quote [List.replicate 513 97]).length ≤ p2sSizeCmd ∧
    2 ≤ (decimal 11 ++ framed quote [List.replicate 513 97]).length ∧
    ¬DecodesInBounds (recvBuffer (decimal 11 ++ framed quote [List.replicate 513 97])) := by
  have htype : TwoDigits 11 := by decide
  have hlen : (decimal 11 ++ framed quote [List.replicate 513 97]).length = 517 := by
    rw [List.length_append, htype.decimal_length, framed_length, List.map_singleton,
      List.length_replicate]
    rfl
  have hsize : (decimal 11 ++ framed quote [List.replicate 513 97]).length ≤ p2sSizeCmd := by
    rw [hlen]; decide
  refine ⟨hsize, by omega, fun hin => ?_⟩
  refine not_fits_of_long htype ?_ ?_ ?_ (hin.fits hsize)
  · rw [List.mem_replicate]; simp
  · rw [List.mem_replicate]; simp [quote]
  · rw [List.length_replicate]; decide

end Psp2Shell.Cmd
