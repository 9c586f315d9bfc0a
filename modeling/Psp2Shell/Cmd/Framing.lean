import Psp2Shell.CLib.Segments
import Psp2Shell.Cmd.Loop

/-! The commands that the server takes from the stream of a client's sends: the commands sent
exactly when each of them starts a `recv` that already returns the last of its arguments. -/

namespace Psp2Shell.Cmd

open CLib

/-- The command that a call of a sender stands for. -/
def Send.command (s : Send) : P2sCmd := P2sCmd.ofArgs s.type s.args

/-- The arguments of a call up to the last one that is not empty. -/
def Send.filled (s : Send) : List (List Byte) := s.args.rdropWhile (· = [])

/-- The wire form of a call up to the quote that closes its last argument that is not empty. -/
def Send.core (s : Send) : List Byte :=
  decimal s.type ++ if s.filled = [] then [] else framed quote s.filled

/-- The pieces of a stream are aligned with the calls whose bytes make up the stream: each call
starts a piece, which holds the call's core and nothing of the next call. -/
inductive Aligned : List Send → List (List Byte) → Prop
  | nil : Aligned [] []
  | cons {s : Send} {sends : List Send} {first : List Byte} {more rest : List (List Byte)} :
      first ++ more.flatten = s.bytes → s.core <+: first → Aligned sends rest →
      Aligned (s :: sends) (first :: (more ++ rest))

/-- The bytes that are neither quotes nor NULs. -/
def counts (b : Byte) : Bool := b != quote && b != 0

theorem counts_of_isdigit {b : Byte} (h : isdigit b = true) : counts b = true := by
  have hb := isdigit_iff.mp h
  simp only [counts, Bool.and_eq_true, bne_iff_ne]
  constructor
  all_goals
    rintro rfl
    revert hb
    decide

theorem countP_counts {a : List Byte} (hnul : 0 ∉ a) (hquote : quote ∉ a) :
    a.countP counts = a.length := by
  rw [List.countP_eq_length]
  intro b hb
  simp only [counts, Bool.and_eq_true, bne_iff_ne]
  exact ⟨fun h => hquote (h ▸ hb), fun h => hnul (h ▸ hb)⟩

/-! ### What a call puts on the wire -/

theorem Send.args_eq (s : Send) : ∃ k, s.args = s.filled ++ List.replicate k [] := by
  refine ⟨(s.args.rtakeWhile (· = [])).length, ?_⟩
  have hempty : s.args.rtakeWhile (· = []) =
      List.replicate (s.args.rtakeWhile (· = [])).length [] := by
    rw [List.eq_replicate_iff]
    exact ⟨rfl, fun a ha => by simpa using List.mem_rtakeWhile_imp ha⟩
  rw [← hempty, Send.filled]
  simp only [List.rdropWhile, List.rtakeWhile]
  rw [← List.reverse_append, List.takeWhile_append_dropWhile, List.reverse_reverse]

theorem Send.filled_getLast {s : Send} (h : s.filled ≠ []) : s.filled.getLast h ≠ [] := by
  have hlast := List.rdropWhile_last_not (fun a : List Byte => decide (a = [])) s.args h
  exact of_decide_eq_false (Bool.eq_false_iff.mpr hlast)

theorem Send.tail_eq {s : Send} (h : s.filled ≠ []) : s.tail = framed quote s.args := by
  cases s with
  | send t => simp [filled, args, fmtArgs] at h
  | _ => rfl

/-- After its core, a call sends quotes and NULs only. -/
theorem Send.WellFormed.bytes_core {s : Send} (h : s.WellFormed) :
    ∃ slack, s.bytes = s.core ++ slack ∧ ∀ b ∈ slack, counts b = false := by
  obtain ⟨k, hargs⟩ := s.args_eq
  rw [h.bytes_eq]
  by_cases hf : s.filled = []
  · refine ⟨s.tail, by simp [core, hf], ?_⟩
    rw [hf, List.nil_append] at hargs
    have hframed : ∀ b ∈ framed quote s.args, counts b = false := by
      rw [hargs]
      intro b hb
      simp only [framed, List.mem_cons, List.mem_flatMap, List.mem_replicate] at hb
      rcases hb with rfl | ⟨a, ⟨-, rfl⟩, hb⟩
      · rfl
      · obtain rfl : b = quote := by simpa using hb
        rfl
    cases s with
    | send t => simp [tail, counts]
    | _ => exact hframed
  · refine ⟨(List.replicate k []).flatMap (· ++ [quote]), ?_, ?_⟩
    · rw [Send.tail_eq hf, core, if_neg hf, List.append_assoc, ← framed_append, ← hargs]
    · intro b hb
      simp only [List.mem_flatMap, List.mem_replicate] at hb
      obtain ⟨a, ⟨-, rfl⟩, hb⟩ := hb
      obtain rfl : b = quote := by simpa using hb
      rfl

theorem TwoDigits.countP_decimal {type : Int} (h : TwoDigits type) :
    (decimal type).countP counts = 2 := by
  rw [countP_counts (nul_not_mem_decimal type) (quote_not_mem_decimal type), h.decimal_length]

theorem countP_framed_plain {as : List (List Byte)} (has : ∀ a ∈ as, Plain a) :
    (framed quote as).countP counts = (as.map List.length).sum := by
  rw [countP_framed counts rfl]
  congr 1
  exact List.map_congr_left fun a ha => countP_counts (has a ha).no_nul (has a ha).no_quote

/-- The weight of a call: its type and its arguments. -/
theorem Send.WellFormed.countP_bytes {s : Send} (h : s.WellFormed) :
    s.bytes.countP counts = 2 + (s.args.map List.length).sum := by
  rw [h.bytes_eq, List.countP_append, h.digits.countP_decimal]
  cases s with
  | send t => rfl
  | _ => rw [show Send.tail _ = framed quote _ from rfl, countP_framed_plain h.plain]

theorem Send.WellFormed.bytes_length {s : Send} (h : s.WellFormed) :
    s.bytes.length < p2sSizeCmd := by
  have hsum := sum_length_le h.plain
  have hcount := h.count
  rw [h.bytes_eq, List.length_append, h.digits.decimal_length]
  have htail : s.tail.length ≤ 4 + 3 * 512 := by
    cases s with
    | send t => simp [tail]
    | _ =>
      simp only [tail, framed_length, p2sMaxArgs] at *
      omega
  simp only [p2sSizeCmd, p2sMaxArgs, p2sSizeString]
  omega

/-! ### What a piece decodes to -/

/-- The bytes of a command's arguments that are not NUL. -/
def P2sCmd.weight (cmd : P2sCmd) : Nat := cmd.args.bytes.countP (· ≠ 0)

theorem countP_blit_le (b : ArgsBuffer) (off : Nat) (a : List Byte) :
    (b.blit off a).bytes.countP (· ≠ 0) ≤ a.length + b.bytes.countP (· ≠ 0) := by
  have hkept : (b.bytes.take off).countP (· ≠ 0) +
      (b.bytes.drop (off + a.length)).countP (· ≠ 0) ≤ b.bytes.countP (· ≠ 0) := by
    have hdrop : (b.bytes.drop (off + a.length)).countP (· ≠ 0) ≤
        (b.bytes.drop off).countP (· ≠ 0) := by
      rw [← List.drop_drop]
      exact (List.drop_sublist _ _).countP_le
    have hsplit := congrArg (List.countP (fun x : Byte => decide (x ≠ 0)))
      (List.take_append_drop off b.bytes)
    rw [List.countP_append] at hsplit
    omega
  have hnew : (a.take (p2sMaxArgs * p2sSizeString - off)).countP (· ≠ 0) ≤ a.length :=
    List.countP_le_length.trans (List.length_take_le' _ _)
  simp only [Buffer.blit, List.countP_append]
  omega

theorem weight_ofArgs_le (type : Int) (as : List (List Byte)) :
    (P2sCmd.ofArgs type as).weight ≤ (as.map List.length).sum := by
  have hstore : ∀ (i : Nat) (b : ArgsBuffer), (storeArgs i as b).bytes.countP (· ≠ 0) ≤
      (as.map List.length).sum + b.bytes.countP (· ≠ 0) := by
    induction as with
    | nil => simp [storeArgs]
    | cons a as ih =>
      intro i b
      have hrest := ih (i + 1) (b.blit (i * p2sSizeString) a)
      have hblit := countP_blit_le b (i * p2sSizeString) a
      simp only [storeArgs, List.map_cons, List.sum_cons] at *
      omega
  have hzero : P2sCmd.cleared.args.bytes.countP (· ≠ 0) = 0 := by
    rw [List.countP_eq_zero]
    intro b hb
    simpa using (List.mem_replicate.mp hb).2
  have h0 := hstore 0 P2sCmd.cleared.args
  rw [hzero] at h0
  exact h0

theorem bytes_eq_slots (cmd : P2sCmd) :
    cmd.args.bytes = cmd.slot 0 ++ (cmd.slot 1 ++ cmd.slot 2) := by
  have hlast : cmd.slot 2 = cmd.args.bytes.drop (2 * p2sSizeString) :=
    List.take_of_length_le (by
      rw [List.length_drop, cmd.args.size_eq]
      decide)
  have hmid : cmd.slot 1 ++ cmd.slot 2 = cmd.args.bytes.drop (1 * p2sSizeString) := by
    rw [hlast, P2sCmd.slot, Buffer.window,
      show 2 * p2sSizeString = 1 * p2sSizeString + p2sSizeString by decide, ← List.drop_drop,
      List.take_append_drop]
  rw [hmid, P2sCmd.slot, Buffer.window, Nat.zero_mul, Nat.one_mul, List.drop_zero,
    List.take_append_drop]

theorem weight_ofArgs {as : List (List Byte)} (has : ∀ a ∈ as, Plain a)
    (hcount : as.length ≤ p2sMaxArgs) (type : Int) :
    (P2sCmd.ofArgs type as).weight = (as.map List.length).sum := by
  have hslot : ∀ k < p2sMaxArgs, ((P2sCmd.ofArgs type as).slot k).countP (· ≠ 0) =
      (as.getD k []).length := by
    intro k hk
    have hnul : 0 ∉ as.getD k [] := by
      by_cases h : k < as.length
      · rw [List.getD_eq_getElem _ _ h]
        exact (has _ (List.getElem_mem h)).no_nul
      · rw [List.getD_eq_default _ _ (by omega)]
        simp
    have hfull : (as.getD k []).countP (· ≠ 0) = (as.getD k []).length := by
      rw [List.countP_eq_length]
      intro b hb
      simpa using fun h0 : b = 0 => hnul (h0 ▸ hb)
    rw [slot_ofArgs (fun a ha => (has a ha).fits.le) hcount type hk, List.countP_append, hfull,
      List.countP_replicate]
    simp
  rw [P2sCmd.weight, bytes_eq_slots, List.countP_append, List.countP_append,
    hslot 0 (by decide), hslot 1 (by decide), hslot 2 (by decide)]
  match as, hcount with
  | [], _ | [_], _ | [_, _], _ | [_, _, _], _ => simp

/-- The fields of a string with a type weigh no more than what follows the type. -/
theorem sum_argFields_le {s : List Byte} (ht : TypeDigits s) (hnul : 0 ∉ s) :
    2 + ((argFields s).map List.length).sum ≤ s.countP counts := by
  obtain ⟨a, b, rest, rfl, ha, hb, -⟩ := ht
  have hca := counts_of_isdigit ha
  have hcb := counts_of_isdigit hb
  have hqa : a ≠ quote := by rintro rfl; simp [counts] at hca
  have hqb : b ≠ quote := by rintro rfl; simp [counts] at hcb
  by_cases hq : quote ∈ rest
  · obtain ⟨pre, as, post, rfl, hpre, has, hpost⟩ := exists_framed hq
    have hfields : fields quote (a :: b :: (pre ++ framed quote as ++ post)) = as := by
      have hopen : quote ∉ a :: b :: pre := by simp [hpre, hqa.symm, hqb.symm]
      simpa using fields_framed hopen has hpost
    have hsum : (as.map List.length).sum = (framed quote as).countP counts := by
      rw [countP_framed counts rfl]
      congr 1
      refine List.map_congr_left fun c hc => (countP_counts ?_ (has c hc)).symm
      intro h0
      apply hnul
      have : (0 : Byte) ∈ framed quote as :=
        List.mem_cons_of_mem _ (List.mem_flatMap.mpr ⟨c, hc, by simp [h0]⟩)
      simp [this]
    have htake : (((as.take p2sMaxArgs)).map List.length).sum ≤ (as.map List.length).sum := by
      conv_rhs => rw [← List.take_append_drop p2sMaxArgs as]
      rw [List.map_append, List.sum_append]
      exact Nat.le_add_right _ _
    rw [argFields, hfields]
    simp only [List.countP_cons_of_pos hca, List.countP_cons_of_pos hcb, List.countP_append]
    omega
  · have hnone : quote ∉ a :: b :: rest := by simp [hq, hqa.symm, hqb.symm]
    rw [argFields, fields_of_not_mem hnone]
    simp [hca, hcb]

theorem chunkCommand_digit {c : List Byte} {cmd : P2sCmd} (h : chunkCommand c = some cmd) :
    ∃ a rest, c = a :: rest ∧ counts a = true := by
  unfold chunkCommand at h
  split at h
  · rename_i ht
    obtain ⟨a, b, rest, hrest, ha, -⟩ := ht
    obtain ⟨t, ht⟩ := received_isPrefix c
    exact ⟨a, b :: rest ++ t, by rw [← ht, hrest]; rfl, counts_of_isdigit ha⟩
  · cases h

/-- A piece that decodes to a call's command weighs as much as the call. -/
theorem chunkCommand_heavy {s : Send} (h : s.WellFormed) {c : List Byte}
    (hc : chunkCommand c = some s.command) : s.bytes.countP counts ≤ c.countP counts := by
  unfold chunkCommand at hc
  split at hc
  · rename_i ht
    have hweight := congrArg P2sCmd.weight (Option.some.inj hc)
    rw [Send.command, weight_ofArgs h.plain h.count] at hweight
    have hle := weight_ofArgs_le (typeValue (received c)) (argFields (received c))
    have hfields := sum_argFields_le ht (received_no_nul c)
    have hstart := (received_isPrefix c).sublist.countP_le (p := counts)
    rw [h.countP_bytes]
    omega
  · cases hc

theorem chunkCommand_none {c : List Byte} (h : ∀ b ∈ c, counts b = false) :
    chunkCommand c = none := by
  cases hc : chunkCommand c with
  | none => rfl
  | some cmd =>
    obtain ⟨a, rest, rfl, ha⟩ := chunkCommand_digit hc
    rw [h a (by simp)] at ha
    cases ha

theorem weighs {sends : List Send} (h : ∀ s ∈ sends, s.WellFormed) :
    Weighs counts Send.bytes Send.command chunkCommand sends where
  starts := by
    intro s hs
    obtain ⟨a, b, hab, ha, -⟩ := (h s hs).digits.decimal_eq
    exact ⟨a, b :: s.tail, by rw [(h s hs).bytes_eq, hab]; rfl, counts_of_isdigit ha⟩
  decodes := fun _ _ => chunkCommand_digit
  heavy := fun s hs _ => chunkCommand_heavy (h s hs)

/-! ### Pieces that start a call -/

theorem nul_not_mem_core {s : Send} (h : s.WellFormed) : 0 ∉ s.core := by
  obtain ⟨k, hargs⟩ := s.args_eq
  have hframed : 0 ∉ framed quote s.filled := not_mem_framed (by decide) fun a ha =>
    (h.plain a (by rw [hargs]; exact List.mem_append_left _ ha)).no_nul
  rw [Send.core, List.mem_append, not_or]
  refine ⟨nul_not_mem_decimal s.type, ?_⟩
  split
  · simp
  · exact hframed

theorem fields_core {s : Send} (h : s.WellFormed) (n : Nat) :
    ∃ j, fields quote (s.core ++ List.replicate n quote) = s.filled ++ List.replicate j [] := by
  obtain ⟨k, hargs⟩ := s.args_eq
  have hplain : ∀ a ∈ s.filled, quote ∉ a := fun a ha =>
    (h.plain a (by rw [hargs]; exact List.mem_append_left _ ha)).no_quote
  have hopen : ∀ (as : List (List Byte)) (j : Nat), framed quote as ++ List.replicate j quote =
      framed quote (as ++ List.replicate j []) := by
    intro as j
    rw [framed_append]
    congr 1
    induction j with
    | zero => rfl
    | succ j ih => rw [List.replicate_succ, List.replicate_succ, List.flatMap_cons, ← ih]; rfl
  have hfields : ∀ (as : List (List Byte)) (j : Nat), (∀ a ∈ as, quote ∉ a) →
      fields quote (decimal s.type ++ framed quote (as ++ List.replicate j [])) =
        as ++ List.replicate j [] := by
    intro as j has
    apply fields_framed_end (quote_not_mem_decimal s.type)
    intro a ha
    rcases List.mem_append.mp ha with ha | ha
    · exact has a ha
    · rw [List.eq_of_mem_replicate ha]
      simp
  by_cases hf : s.filled = []
  · rw [Send.core, if_pos hf, List.append_nil, hf]
    cases n with
    | zero => exact ⟨0, by simpa using fields_of_not_mem (quote_not_mem_decimal s.type)⟩
    | succ j =>
      refine ⟨j, ?_⟩
      have hone : List.replicate (j + 1) quote = framed quote (List.replicate j []) := by
        rw [List.replicate_succ]
        exact hopen [] j
      rw [hone]
      exact hfields [] j (by simp)
  · refine ⟨n, ?_⟩
    rw [Send.core, if_neg hf, List.append_assoc, hopen]
    exact hfields s.filled n hplain

/-- A piece that goes on after the core with quotes and NULs decodes to the call's command. -/
theorem chunkCommand_core {s : Send} (h : s.WellFormed) {mid : List Byte}
    (hmid : ∀ b ∈ mid, counts b = false) : chunkCommand (s.core ++ mid) = some s.command := by
  obtain ⟨k, hargs⟩ := s.args_eq
  have hcore : received (s.core ++ mid) = s.core ++ received mid :=
    takeWhile_append_of_no_nul (nul_not_mem_core h) mid
  have hquotes : received mid = List.replicate (received mid).length quote := by
    rw [List.eq_replicate_iff]
    refine ⟨rfl, fun b hb => ?_⟩
    have hcount := hmid b ((received_isPrefix mid).subset hb)
    have hnul : b ≠ 0 := fun h0 => received_no_nul mid (h0 ▸ hb)
    simpa [counts, hnul] using hcount
  obtain ⟨j, hj⟩ := fields_core h (received mid).length
  rw [← hquotes] at hj
  have hlen : s.filled.length ≤ p2sMaxArgs := by
    have hcount := h.count
    rw [hargs, List.length_append] at hcount
    omega
  have hfields : argFields (s.core ++ received mid) =
      s.filled ++ List.replicate (min (p2sMaxArgs - s.filled.length) j) [] := by
    rw [argFields, hj, List.take_append, List.take_of_length_le hlen, List.take_replicate]
  have htype : ∃ u, s.core ++ received mid = decimal s.type ++ u :=
    ⟨_, by rw [Send.core, List.append_assoc]⟩
  obtain ⟨u, hu⟩ := htype
  rw [chunkCommand, hcore, if_pos (hu ▸ h.digits.typeDigits u), hfields, ofArgs_append_nil,
    hu, h.digits.typeValue_eq, Send.command, hargs, ofArgs_append_nil]

theorem fields_core_self {s : Send} (h : s.WellFormed) (hf : s.filled ≠ []) :
    fields quote s.core = s.filled := by
  obtain ⟨k, hargs⟩ := s.args_eq
  rw [Send.core, if_neg hf]
  exact fields_framed_end (quote_not_mem_decimal s.type) fun a ha =>
    (h.plain a (by rw [hargs]; exact List.mem_append_left _ ha)).no_quote

theorem sum_argFields_lt {s : Send} (h : s.WellFormed) (hf : s.filled ≠ [])
    {first x : List Byte} (hcore : s.core = first ++ x) (hx : x ≠ []) :
    ((argFields first).map List.length).sum < (s.args.map List.length).sum := by
  obtain ⟨k, hargs⟩ := s.args_eq
  have hfields := fields_core_self h hf
  have hlast : quote ∈ x := by
    have hcorelast : s.core.getLast? = some quote := by
      rw [Send.core, if_neg hf, List.getLast?_append, getLast_framed]
      rfl
    rw [hcore, List.getLast?_append_of_ne_nil _ hx] at hcorelast
    exact List.mem_of_getLast? hcorelast
  have hlen : (fields quote first).length < s.filled.length := by
    have hpos := List.count_pos_iff.mpr hlast
    have hall := length_fields (q := quote) s.core
    rw [hfields, hcore, List.count_append] at hall
    have := List.length_pos_iff.mpr hf
    rw [length_fields]
    omega
  obtain ⟨more, hmore⟩ : fields quote first <+: s.filled := by
    rw [← hfields, hcore]
    exact fields_isPrefix first x
  have hne : more ≠ [] := by
    rintro rfl
    rw [← hmore] at hlen
    simp at hlen
  have hpos : 0 < (more.map List.length).sum := by
    have hlastmore : more.getLast hne ≠ [] := by
      have := s.filled_getLast hf
      simp only [← hmore] at this
      rwa [List.getLast_append_of_ne_nil _ hne] at this
    rw [← List.dropLast_append_getLast hne, List.map_append, List.sum_append]
    have := List.length_pos_iff.mpr hlastmore
    simp
    omega
  have htake : ((argFields first).map List.length).sum ≤
      ((fields quote first).map List.length).sum := by
    conv_rhs => rw [← List.take_append_drop p2sMaxArgs (fields quote first)]
    rw [List.map_append, List.sum_append]
    exact Nat.le_add_right _ _
  have hargsum := congrArg (fun l => (List.map List.length l).sum) hargs
  simp only [← hmore, List.map_append, List.sum_append] at hargsum
  omega

/-- A strict start of a core does not decode to the call's command. -/
theorem chunkCommand_strict {s : Send} (h : s.WellFormed) {first x : List Byte}
    (hcore : s.core = first ++ x) (hx : x ≠ []) : chunkCommand first ≠ some s.command := by
  intro hc
  by_cases hf : s.filled = []
  · have hheavy := chunkCommand_heavy h hc
    have hlen := congrArg List.length hcore
    have hxlen := List.length_pos_iff.mpr hx
    have hle : first.countP counts ≤ first.length := List.countP_le_length
    rw [Send.core, if_pos hf, List.append_nil, h.digits.decimal_length, List.length_append] at hlen
    rw [h.countP_bytes] at hheavy
    omega
  · have hnul : 0 ∉ first := fun h0 =>
      nul_not_mem_core h (by rw [hcore]; exact List.mem_append_left _ h0)
    have hlt := sum_argFields_lt h hf hcore hx
    unfold chunkCommand at hc
    split at hc
    · have hweight := congrArg P2sCmd.weight (Option.some.inj hc)
      have hle := weight_ofArgs_le (typeValue (received first)) (argFields (received first))
      rw [hweight, Send.command, weight_ofArgs h.plain h.count, received_of_no_nul hnul] at hle
      omega
    · cases hc

/-- A piece that starts a call decodes to its command exactly when it holds the call's core. -/
theorem chunkCommand_first_iff {s : Send} (h : s.WellFormed) {first rest : List Byte}
    (hbytes : first ++ rest = s.bytes) :
    chunkCommand first = some s.command ↔ s.core <+: first := by
  obtain ⟨slack, hslack, hnone⟩ := h.bytes_core
  constructor
  · intro hc
    have hstart : first <+: s.core ++ slack := ⟨rest, by rw [hbytes, hslack]⟩
    rcases List.prefix_or_prefix_of_prefix (List.prefix_append s.core slack) hstart with hp | hp
    · exact hp
    · obtain ⟨x, hx⟩ := hp
      have hx0 : x = [] := by
        by_contra hne
        exact chunkCommand_strict h hx.symm hne hc
      exact ⟨[], by rw [← hx, hx0]; simp⟩
  · rintro ⟨mid, rfl⟩
    refine chunkCommand_core h fun b hb => hnone b ?_
    rw [hslack, List.append_assoc] at hbytes
    rw [← List.append_cancel_left hbytes]
    exact List.mem_append_left _ hb

theorem grouped_iff_aligned {sends : List Send} (h : ∀ s ∈ sends, s.WellFormed)
    (chunks : List (List Byte)) :
    Grouped Send.bytes Send.command chunkCommand sends chunks ↔ Aligned sends chunks := by
  constructor
  · intro hg
    induction hg with
    | nil => exact .nil
    | cons hbytes hfirst _ _ ih =>
      exact .cons hbytes ((chunkCommand_first_iff (h _ (by simp)) hbytes).mp hfirst)
        (ih fun s hs => h s (List.mem_cons_of_mem _ hs))
  · intro ha
    induction ha with
    | nil => exact .nil
    | @cons s sends first more rest hbytes hcore _ ih =>
      have hs := h s (by simp)
      refine .cons hbytes ((chunkCommand_first_iff hs hbytes).mpr hcore) (fun c hc => ?_)
        (ih fun t ht => h t (List.mem_cons_of_mem _ ht))
      obtain ⟨slack, hslack, hnone⟩ := hs.bytes_core
      obtain ⟨mid, rfl⟩ := hcore
      rw [hslack, List.append_assoc] at hbytes
      refine chunkCommand_none fun b hb => hnone b ?_
      rw [← List.append_cancel_left hbytes]
      exact List.mem_append_right _ (List.mem_flatten.mpr ⟨c, hc, hb⟩)

theorem Aligned.room {sends : List Send} {chunks : List (List Byte)} (ha : Aligned sends chunks)
    (h : ∀ s ∈ sends, s.WellFormed) : ∀ c ∈ chunks, c.length < p2sSizeCmd := by
  induction ha with
  | nil => simp
  | @cons s sends first more rest hbytes _ _ ih =>
    have hlen := congrArg List.length hbytes
    have hs := (h s (by simp)).bytes_length
    rw [List.length_append] at hlen
    intro c hc
    rcases List.mem_cons.mp hc with rfl | hc
    · omega
    · rcases List.mem_append.mp hc with hc | hc
      · have := (List.sublist_flatten_of_mem hc).length_le
        omega
      · exact ih (fun t ht => h t (List.mem_cons_of_mem _ ht)) c hc

/-- The server takes exactly the commands that the client sent from the pieces of the stream, in
order, exactly when the pieces are aligned with the sends. -/
theorem commands_received_iff {sends : List Send} (h : ∀ s ∈ sends, s.WellFormed)
    {chunks : List (List Byte)} (hcuts : Cuts (sends.map Send.bytes).flatten chunks)
    (cmd : P2sCmd) :
    cmdLoop cmd (chunks.map Recv.bytes) = some (sends.map Send.command) ↔
      Aligned sends chunks := by
  rw [cmdLoop_eq_some_iff hcuts, (weighs h).decoded_iff hcuts.nonempty hcuts.flatten,
    grouped_iff_aligned h]
  exact ⟨And.right, fun ha => ⟨fun c hc => Or.inl (ha.room h c hc), ha⟩⟩

/-- `pwd` and `cd a`, where the NULs of `pwd` come in a `recv` of their own. -/
theorem commands_received_pwd_cd :
    cmdLoop P2sCmd.cleared [.bytes [49, 55], .bytes [0, 0], .bytes [49, 50, 34, 97, 34]] =
      some [Send.command (.send 17), Send.command (.string 12 [97])] := by
  have hpwd : (Send.send 17).WellFormed :=
    ⟨show TwoDigits 17 by decide, by decide, by simp [Send.args, Send.fmtArgs]⟩
  have hcd : (Send.string 12 [97]).WellFormed := by
    refine ⟨show TwoDigits 12 by decide, by decide, ?_⟩
    simp only [Send.args, Send.fmtArgs, FmtArg.text, List.map_cons, List.map_nil,
      List.mem_singleton, forall_eq]
    decide
  have haligned : Aligned [.send 17, .string 12 [97]]
      ([49, 55] :: ([[0, 0]] ++ [49, 50, 34, 97, 34] :: ([] ++ []))) :=
    .cons (by decide +kernel) (by decide +kernel)
      (.cons (by decide +kernel) (by decide +kernel) .nil)
  exact (commands_received_iff (by simpa using ⟨hpwd, hcd⟩)
    ⟨by decide +kernel, by decide, by decide⟩ P2sCmd.cleared).mpr haligned

/-- `pwd` and `cd a` in one `recv`: the server takes `pwd` only.  `rmdir ab` cut before its `b`: the
server takes `rmdir` without an argument. -/
theorem commands_lost_and_changed :
    (Cuts ([Send.send 17, .string 12 [97]].map Send.bytes).flatten
        [[49, 55, 0, 0, 49, 50, 34, 97, 34]] ∧
      cmdLoop P2sCmd.cleared [.bytes [49, 55, 0, 0, 49, 50, 34, 97, 34]] =
        some [P2sCmd.ofArgs CmdType.pwd.code []]) ∧
    (Cuts ([Send.string 14 [97, 98]].map Send.bytes).flatten [[49, 52, 34, 97], [98, 34]] ∧
      cmdLoop P2sCmd.cleared [.bytes [49, 52, 34, 97], .bytes [98, 34]] =
        some [P2sCmd.ofArgs CmdType.rmdir.code []] ∧
      P2sCmd.ofArgs CmdType.rmdir.code [] ≠ Send.command (.string 14 [97, 98])) := by
  refine ⟨⟨⟨by decide +kernel, by decide, by decide⟩, ?_⟩,
    ⟨⟨by decide +kernel, by decide, by decide⟩, ?_, ?_⟩⟩
  · have hroom : ∀ c ∈ [[49, 55, 0, 0, 49, 50, 34, 97, (34 : Byte)]],
        c.length < p2sSizeCmd ∨ 0 ∈ c := by decide
    exact (cmdLoop_of_room (by decide) (by decide) hroom _).trans (by rfl)
  · have hroom : ∀ c ∈ [[49, 52, 34, (97 : Byte)], [98, 34]],
        c.length < p2sSizeCmd ∨ 0 ∈ c := by decide
    exact (cmdLoop_of_room (by decide) (by decide) hroom _).trans (by rfl)
  · intro h
    have hslot := congrArg (fun cmd => (P2sCmd.slot cmd 0).head?) h
    revert hslot
    decide +kernel

end Psp2Shell.Cmd
