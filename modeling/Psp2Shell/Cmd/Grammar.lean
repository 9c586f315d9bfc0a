import Psp2Shell.Cmd.Bounds

/-! The wire grammar of a command, and the strings on which the decoder decides it. -/

namespace Psp2Shell.Cmd

open CLib

/-- The wire grammar: two digits of value at least ten, and then nothing or one to three arguments
without quotes, each shorter than a slot, between quotes. -/
def WireGrammar (s : List Byte) : Prop :=
  ∃ type u, TwoDigits type ∧ s = decimal type ++ u ∧ (u = [] ∨ ∃ as : List (List Byte),
    as ≠ [] ∧ as.length ≤ p2sMaxArgs ∧ (∀ a ∈ as, quote ∉ a ∧ a.length < p2sSizeString) ∧
    u = framed quote as)

/-- A text that is empty, or starts and ends with a quote and has two to four quotes, neighbouring
ones less than a slot apart. -/
def ClosedText (u : List Byte) : Prop :=
  u = [] ∨ u.head? = some quote ∧ u.getLast? = some quote ∧ 2 ≤ u.count quote ∧
    u.count quote ≤ p2sMaxArgs + 1 ∧ ∀ a ∈ fields quote u, a.length < p2sSizeString

theorem fields_of_framed {as : List (List Byte)} (has : ∀ a ∈ as, quote ∉ a) :
    fields quote (framed quote as) = as := by
  simpa using fields_framed_end (show quote ∉ [] by simp) has

theorem exists_framed_of_ends {u : List Byte} (hhead : u.head? = some quote)
    (hlast : u.getLast? = some quote) : ∃ as, u = framed quote as ∧ ∀ a ∈ as, quote ∉ a := by
  have hmem : quote ∈ u := List.mem_of_getLast? hlast
  obtain ⟨pre, as, post, rfl, hpre, has, hpost⟩ := exists_framed hmem
  obtain rfl : pre = [] := by
    cases pre with
    | nil => rfl
    | cons c pre =>
      obtain rfl : c = quote := by simpa using hhead
      simp at hpre
  obtain rfl : post = [] := by
    rcases List.eq_nil_or_concat post with rfl | ⟨init, c, rfl⟩
    · rfl
    · obtain rfl : c = quote := by simpa [← List.append_assoc] using hlast
      simp at hpost
  exact ⟨as, by simp, has⟩

theorem closedText_iff (u : List Byte) : ClosedText u ↔ u = [] ∨ ∃ as : List (List Byte),
    as ≠ [] ∧ as.length ≤ p2sMaxArgs ∧ (∀ a ∈ as, quote ∉ a ∧ a.length < p2sSizeString) ∧
    u = framed quote as := by
  unfold ClosedText
  refine or_congr_right ⟨?_, ?_⟩
  · rintro ⟨hhead, hlast, hlow, hhigh, hlen⟩
    obtain ⟨as, rfl, has⟩ := exists_framed_of_ends hhead hlast
    rw [count_framed has] at hlow hhigh
    rw [fields_of_framed has] at hlen
    refine ⟨as, ?_, by omega, fun a ha => ⟨has a ha, hlen a ha⟩, rfl⟩
    rintro rfl
    simp at hlow
  · rintro ⟨as, hne, hcount, hargs, rfl⟩
    have has : ∀ a ∈ as, quote ∉ a := fun a ha => (hargs a ha).1
    have hpos := List.length_pos_iff.mpr hne
    rw [count_framed has, fields_of_framed has]
    exact ⟨head_framed as, getLast_framed as, by omega, by omega, fun a ha => (hargs a ha).2⟩

theorem TypeDigits.split {s : List Byte} (h : TypeDigits s) :
    TwoDigits (typeValue s) ∧ s = decimal (typeValue s) ++ s.drop 2 := by
  have hstart := (start_le_typeValue h.two_le).mpr h
  obtain ⟨a, b, rest, rfl, -⟩ := h
  rw [typeValue_cons] at hstart ⊢
  obtain ⟨hhigh, hdecimal⟩ := decimal_strtol_two hstart
  exact ⟨⟨hstart, hhigh⟩, by rw [hdecimal]; rfl⟩

theorem TwoDigits.drop_two {type : Int} (h : TwoDigits type) (u : List Byte) :
    (decimal type ++ u).drop 2 = u := by
  rw [← h.decimal_length, List.drop_left]

theorem wireGrammar_iff (s : List Byte) :
    WireGrammar s ↔ TypeDigits s ∧ ClosedText (s.drop 2) := by
  constructor
  · rintro ⟨type, u, htype, rfl, hu⟩
    rw [htype.drop_two, closedText_iff]
    exact ⟨htype.typeDigits u, hu⟩
  · rintro ⟨ht, hu⟩
    obtain ⟨htype, hs⟩ := ht.split
    exact ⟨typeValue s, s.drop 2, htype, hs, (closedText_iff _).mp hu⟩

/-- On a NUL-terminated buffer, the decoder's return value decides the wire grammar exactly when
its string starts with no type or goes on after the type with a closed text. -/
theorem decoder_decides_grammar_iff {buffer s : List Byte} (h : cstring buffer = some s)
    (cmd : P2sCmd) :
    ((∃ d, p2sCmdToCmd cmd buffer = some d ∧ d.ret = 0) ↔ WireGrammar s) ↔
      (¬TypeDigits s ∨ ClosedText (s.drop 2)) := by
  rw [p2sCmdToCmd_ret_zero h cmd, wireGrammar_iff]
  tauto

/-- The buffer of `ls ab`, and that of its argument alone. -/
theorem decoder_decides_grammar_ls :
    ((∃ d, p2sCmdToCmd P2sCmd.cleared [49, 49, 34, 97, 98, 34, 0] = some d ∧ d.ret = 0) ↔
        WireGrammar [49, 49, 34, 97, 98, 34]) ∧
      ((∃ d, p2sCmdToCmd P2sCmd.cleared [34, 97, 98, 34, 0] = some d ∧ d.ret = 0) ↔
        WireGrammar [34, 97, 98, 34]) := by
  constructor
  · have hstring : cstring [49, 49, 34, 97, 98, 34, 0] = some [49, 49, 34, 97, 98, 34] := by decide
    have hclosed : ClosedText [34, 97, 98, 34] := Or.inr (by decide)
    exact (decoder_decides_grammar_iff hstring P2sCmd.cleared).mpr (Or.inr hclosed)
  · have hstring : cstring [34, 97, 98, 34, 0] = some [34, 97, 98, 34] := by decide
    have htype : ¬TypeDigits [34, 97, 98, 34] := by
      rintro ⟨a, b, rest, heq, ha, -⟩
      obtain ⟨rfl, -⟩ := List.cons_eq_cons.mp heq
      exact absurd ha (by decide)
    exact (decoder_decides_grammar_iff hstring P2sCmd.cleared).mpr (Or.inl htype)

/-- The first four bytes of the encoding of `rmdir abc` are accepted, with an empty argument. -/
theorem truncated_rmdir_accepted :
    (∃ d, p2sCmdToCmd P2sCmd.cleared [49, 52, 34, 97, 0] = some d ∧ d.ret = 0 ∧
      d.cmd.type = CmdType.rmdir.code ∧ d.cmd.arg 0 = some []) ∧
    ¬WireGrammar [49, 52, 34, 97] := by
  constructor
  · exact ⟨_, rfl, rfl, rfl, by decide⟩
  · rw [wireGrammar_iff]
    rintro ⟨-, h | ⟨-, hlast, -⟩⟩
    · simp at h
    · simp [quote] at hlast

end Psp2Shell.Cmd
