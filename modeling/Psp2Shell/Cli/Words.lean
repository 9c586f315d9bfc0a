import Psp2Shell.Cli.Model
import Psp2Shell.Cmd.RoundTrip

/-! Words that the wire format cannot carry: the server decodes what a handler sends for them, to a
command with other arguments. -/

namespace Psp2Shell.Cli

open CLib Cmd

/-- A word without an encoding: it holds a quote or does not fit a slot. -/
def Unrepresentable (w : List Byte) : Prop := quote ∈ w ∨ p2sSizeString ≤ w.length

/-- The decoder refuses what a call puts on the wire. -/
def Refused (s : Send) : Prop :=
  ∀ (cmd : P2sCmd) (rest : List Byte), ∃ d,
    p2sCmdToCmd cmd (s.bytes ++ 0 :: rest) = some d ∧ d.ret = -1

/-- The decoder makes a command of what a call puts on the wire, and a slot of it does not hold the
argument that the call was given. -/
def Misread (s : Send) : Prop :=
  ∀ (cmd : P2sCmd) (rest : List Byte), ∃ d,
    p2sCmdToCmd cmd (s.bytes ++ 0 :: rest) = some d ∧ d.ret = 0 ∧
      ∃ i < p2sMaxArgs, cstring (d.cmd.slot i) ≠ some (s.args.getD i [])

/-- A command of the table that sends words of the user. -/
def Command.SendsWords (c : Command) : Prop :=
  ∃ host argv s w, (c.func host argv).sent = some s ∧ FmtArg.str w ∈ s.fmtArgs

/-- The handler stops before it sends: too few words, no confirmation, or no local file. -/
def Command.Stops (c : Command) (host : Host) (argv : List (List Byte)) : Prop :=
  match c with
  | cd | launch | modlistp | modinfo | modstart | modstop | kmodstart | kmodstop =>
    argv.length < 2
  | rm | rmdir => argv.length < 2 ∨ host.answer ≠ 121
  | mv | modinfop | modstartp | modstopp | memr | memw => argv.length < 3
  | moddump => argv.length < 4
  | put => ∀ path, argv[1]? = some path → host.fopen path = none
  | load => argv.length < 3 ∨ ∀ path, argv[2]? = some path → host.fopen path = none
  | _ => False

/-! ### What the server makes of a call -/

/-- A call of a sender with arguments, which are C strings. -/
structure WordCall (s : Send) : Prop where
  digits : TwoDigits s.type
  has_args : ∀ t, s ≠ .send t
  count : s.args.length ≤ p2sMaxArgs
  strings : ∀ a ∈ s.args, 0 ∉ a

namespace WordCall

variable {s : Send} (h : WordCall s)
include h

/-- What a call puts on the wire is cut off, if at all, after the type. -/
theorem bytes_eq : ∃ k, s.bytes = decimal s.type ++ (framed quote s.args).take k := by
  have htake : ∀ k, 2 < k → snprintf k (decimal s.type ++ framed quote s.args) =
      decimal s.type ++ (framed quote s.args).take (k - 3) := by
    intro k hk
    have hlen := h.digits.decimal_length
    rw [snprintf, List.take_append, List.take_of_length_le (by omega), hlen]
    rfl
  cases s with
  | send t => exact absurd rfl (h.has_args t)
  | string t v =>
    exact ⟨_, (congrArg (snprintf (p2sSizeString + 6)) (format_cmdFormat t [.str v])).trans
      (htake _ (by decide))⟩
  | fmt t as =>
    exact ⟨_, (congrArg (snprintf p2sSizeCmd) (format_cmdFormat t as)).trans
      (htake _ (by decide))⟩
  | int t v =>
    exact ⟨_, (congrArg (snprintf 16) (format_cmdFormat t [.int v.toInt])).trans
      (htake _ (by decide))⟩
  | long t v =>
    exact ⟨_, (congrArg (snprintf 32) (format_cmdFormat t [.long v.toInt])).trans
      (htake _ (by decide))⟩

theorem accepted (cmd : P2sCmd) (rest : List Byte) : ∃ copies,
    p2sCmdToCmd cmd (s.bytes ++ 0 :: rest) =
      some ⟨0, P2sCmd.ofArgs s.type (argFields s.bytes), copies⟩ := by
  obtain ⟨k, hk⟩ := h.bytes_eq
  have hnul : 0 ∉ s.bytes := by
    rw [hk, List.mem_append, not_or]
    refine ⟨nul_not_mem_decimal s.type, fun h0 => ?_⟩
    exact not_mem_framed (by decide) h.strings (List.mem_of_mem_take h0)
  have hs := cstring_terminated hnul rest
  rw [hk] at hs
  rw [hk]
  exact ⟨_, h.digits.decode hs cmd⟩

theorem not_refused : ¬Refused s := by
  intro hr
  obtain ⟨copies, hc⟩ := h.accepted P2sCmd.cleared []
  obtain ⟨d, hd, hret⟩ := hr P2sCmd.cleared []
  rw [hc] at hd
  cases hd
  simp at hret

end WordCall

theorem mem_storeArgs {i : Nat} {as : List (List Byte)} {b : ArgsBuffer} {c : Byte}
    (h : c ∈ (storeArgs i as b).bytes) : c ∈ b.bytes ∨ ∃ a ∈ as, c ∈ a := by
  induction as generalizing i b with
  | nil => exact Or.inl h
  | cons a as ih =>
    rcases ih h with hb | ⟨x, hx, hc⟩
    · simp only [Buffer.blit, List.mem_append] at hb
      rcases hb with (hb | hb) | hb
      · exact Or.inl (List.mem_of_mem_take hb)
      · exact Or.inr ⟨a, by simp, List.mem_of_mem_take hb⟩
      · exact Or.inl (List.mem_of_mem_drop hb)
    · exact Or.inr ⟨x, List.mem_cons_of_mem _ hx, hc⟩

theorem quote_not_mem_slot (type : Int) (bytes : List Byte) (i : Nat) :
    quote ∉ (P2sCmd.ofArgs type (argFields bytes)).slot i := by
  intro hq
  have hmem : quote ∈ (storeArgs 0 (argFields bytes) P2sCmd.cleared.args).bytes :=
    List.mem_of_mem_drop (List.mem_of_mem_take hq)
  rcases mem_storeArgs hmem with hzero | ⟨a, ha, hqa⟩
  · exact absurd (List.mem_replicate.mp hzero).2 (by decide)
  · exact not_mem_fields (List.mem_of_mem_take ha) hqa

theorem not_unrepresentable_slot {type : Int} {bytes : List Byte} {i : Nat} {w : List Byte}
    (h : cstring ((P2sCmd.ofArgs type (argFields bytes)).slot i) = some w) :
    ¬Unrepresentable w := by
  obtain ⟨rest, hrest⟩ := cstring_split h
  rintro (hq | hlen)
  · exact quote_not_mem_slot type bytes i (by rw [hrest]; exact List.mem_append_left _ hq)
  · have hslot : ((P2sCmd.ofArgs type (argFields bytes)).slot i).length ≤ p2sSizeString :=
      List.length_take_le _ _
    rw [hrest, List.length_append, List.length_cons] at hslot
    omega

/-- A call with an argument that has no encoding is misread. -/
theorem WordCall.misread {s : Send} (h : WordCall s) (hbad : ∃ a ∈ s.args, Unrepresentable a) :
    Misread s := by
  intro cmd rest
  obtain ⟨copies, hc⟩ := h.accepted cmd rest
  obtain ⟨a, ha, hun⟩ := hbad
  obtain ⟨i, hi, rfl⟩ := List.getElem_of_mem ha
  refine ⟨_, hc, rfl, i, by have := h.count; omega, fun hslot => ?_⟩
  rw [List.getD_eq_getElem _ _ hi] at hslot
  exact not_unrepresentable_slot hslot hun

/-! ### What a handler sends -/

/-- A handler on the words of a line: it stops without sending, or makes a call with arguments. -/
def SendsUnless (stops : Host → List (List Byte) → Prop) (h : Handler) : Prop :=
  ∀ host name words, words ≠ [] → (∀ w ∈ words, 0 ∉ w) →
    (stops host (name :: words) → h host (name :: words) = .nothing) ∧
    (¬stops host (name :: words) → ∃ s, (h host (name :: words)).sent = some s ∧ WordCall s)

theorem wordCall_string (t : CmdType) {w : List Byte} (hw : 0 ∉ w) :
    WordCall (.string t.code w) :=
  ⟨twoDigits_code t, by simp, by simp [Send.args, Send.fmtArgs, p2sMaxArgs],
    by simpa [Send.args, Send.fmtArgs, FmtArg.text] using hw⟩

theorem wordCall_fmt (t : CmdType) {args : List FmtArg} (hcount : args.length ≤ p2sMaxArgs)
    (hargs : ∀ a ∈ args, 0 ∉ a.text) : WordCall (.fmt t.code args) :=
  ⟨twoDigits_code t, by simp, by simpa [Send.args, Send.fmtArgs] using hcount,
    by simpa [Send.args, Send.fmtArgs] using hargs⟩

theorem sendOne_spec (t : CmdType) : SendsUnless (fun _ argv => argv.length < 2) (sendOne t) := by
  intro host name words hne hstr
  obtain ⟨w, words, rfl⟩ := List.exists_cons_of_ne_nil hne
  simp only [sendOne, List.length_cons, withArg, List.getElem?_cons_succ, List.getElem?_cons_zero]
  refine ⟨fun h => by omega, fun h => ?_⟩
  rw [if_neg h]
  exact ⟨_, rfl, wordCall_string t (hstr w (by simp))⟩

theorem sendConfirmed_spec (t : CmdType) :
    SendsUnless (fun host argv => argv.length < 2 ∨ host.answer ≠ 121) (sendConfirmed t) := by
  intro host name words hne hstr
  obtain ⟨w, words, rfl⟩ := List.exists_cons_of_ne_nil hne
  have hlen : ¬(name :: w :: words).length < 2 := by simp
  simp only [sendConfirmed, withArg, List.getElem?_cons_succ, List.getElem?_cons_zero, hlen,
    false_or, if_false]
  refine ⟨fun h => if_neg h, fun h => ?_⟩
  rw [if_pos (not_not.mp h)]
  exact ⟨_, rfl, wordCall_string t (hstr w (by simp))⟩

theorem sendTwo_spec (t : CmdType) : SendsUnless (fun _ argv => argv.length < 3) (sendTwo t) := by
  intro host name words hne hstr
  refine ⟨fun h => if_pos h, fun h => ?_⟩
  match words, h with
  | [_], h => exact absurd (by simp) h
  | a :: b :: rest, h =>
    refine ⟨.fmt t.code [.str a, .str b], ?_, wordCall_fmt t (by simp [p2sMaxArgs]) ?_⟩
    · rw [sendTwo, if_neg h]
      rfl
    simp [FmtArg.text, hstr a, hstr b]

theorem cmdModdump_spec : SendsUnless (fun _ argv => argv.length < 4) cmdModdump := by
  intro host name words hne hstr
  refine ⟨fun h => if_pos h, fun h => ?_⟩
  match words, h with
  | [_], h | [_, _], h => exact absurd (by simp) h
  | a :: b :: c :: rest, h =>
    refine ⟨.fmt CmdType.moddump.code [.str a, .str b, .str c], ?_,
      wordCall_fmt _ (by simp [p2sMaxArgs]) ?_⟩
    · rw [cmdModdump, if_neg h]
      rfl
    simp [FmtArg.text, hstr a, hstr b, hstr c]

theorem cmdLs_spec : SendsUnless (fun _ _ => False) cmdLs := by
  intro host name words hne hstr
  obtain ⟨w, words, rfl⟩ := List.exists_cons_of_ne_nil hne
  refine ⟨False.elim, fun _ => ⟨.string CmdType.ls.code w, ?_,
    wordCall_string _ (hstr w (by simp))⟩⟩
  simp [cmdLs, withArg, Outcome.sent]

theorem nul_not_mem_basename {path : List Byte} (h : 0 ∉ path) : 0 ∉ basename path := by
  intro h0
  simp only [basename] at h0
  split at h0
  · revert h0; decide
  · split at h0
    · revert h0; decide
    · exact h ((List.rdropWhile_prefix _ _).subset ((List.rtakeWhile_suffix _ _).subset h0))

theorem cmdPut_spec : SendsUnless
    (fun host argv => ∀ path, argv[1]? = some path → host.fopen path = none) cmdPut := by
  intro host name words hne hstr
  obtain ⟨w, words, rfl⟩ := List.exists_cons_of_ne_nil hne
  have hw : 0 ∉ w := hstr w (by simp)
  simp only [cmdPut, withArg, List.getElem?_cons_succ, List.getElem?_cons_zero, Option.some.injEq,
    forall_eq']
  refine ⟨fun h => by rw [h], fun h => ?_⟩
  cases hf : host.fopen w with
  | none => exact absurd hf h
  | some file =>
    have hcall : ∀ dst, 0 ∉ dst → WordCall (.fmt CmdType.put.code
        [.str (basename w), .str dst, .long file.size.toInt]) := by
      intro dst hdst
      apply wordCall_fmt _ (by simp [p2sMaxArgs])
      simp [FmtArg.text, hdst, nul_not_mem_basename hw, nul_not_mem_decimal]
    cases words with
    | nil => exact ⟨_, rfl, hcall (ascii "0") (by decide)⟩
    | cons dst words => exact ⟨_, by simp [Outcome.sent]; rfl, hcall dst (hstr dst (by simp))⟩

theorem cmdLoad_spec : SendsUnless (fun host argv => argv.length < 3 ∨
    ∀ path, argv[2]? = some path → host.fopen path = none) cmdLoad := by
  intro host name words hne hstr
  match words with
  | [w] => exact ⟨fun _ => rfl, fun h => absurd (Or.inl (by simp)) h⟩
  | tid :: path :: rest =>
    have hlen : ¬(name :: tid :: path :: rest).length < 3 := by simp
    simp only [cmdLoad, hlen, withArg, List.getElem?_cons_succ, List.getElem?_cons_zero,
      Option.some.injEq, forall_eq', false_or, if_false]
    refine ⟨fun h => by rw [h], fun h => ?_⟩
    cases hf : host.fopen path with
    | none => exact absurd hf h
    | some file =>
      refine ⟨.fmt CmdType.load.code [.str tid, .long file.size.toInt], rfl,
        wordCall_fmt _ (by simp [p2sMaxArgs]) ?_⟩
      simp [FmtArg.text, hstr tid, nul_not_mem_decimal]

theorem sendNone_sends_no_words (t : CmdType) (host : Host) (argv : List (List Byte)) {s : Send}
    (h : (sendNone t host argv).sent = some s) (w : List Byte) : FmtArg.str w ∉ s.fmtArgs := by
  cases h
  simp [Send.fmtArgs]

theorem cmdReload_sends_no_words {host : Host} {argv : List (List Byte)} {s : Send}
    (h : (cmdReload host argv).sent = some s) (w : List Byte) : FmtArg.str w ∉ s.fmtArgs := by
  simp only [cmdReload, withArg] at h
  split at h
  · cases h
  · split at h
    · cases h
    · cases h
      simp [Send.fmtArgs]

/-- Every command that sends words makes a call with arguments unless it stops. -/
theorem Command.spec {c : Command} (h : c.SendsWords) : SendsUnless c.Stops c.func := by
  obtain ⟨host, argv, s, w, hs, hw⟩ := h
  cases c with
  | cd | launch | modlistp | modinfo | modstart | modstop | kmodstart | kmodstop =>
    exact sendOne_spec _
  | rm | rmdir => exact sendConfirmed_spec _
  | mv | modinfop | modstartp | modstopp | memr | memw => exact sendTwo_spec _
  | moddump => exact cmdModdump_spec
  | ls => exact cmdLs_spec
  | put => exact cmdPut_spec
  | load => exact cmdLoad_spec
  | pwd | reset | reboot | title | modlist | thlist =>
    exact absurd hw (sendNone_sends_no_words _ host argv hs w)
  | reload => exact absurd hw (cmdReload_sends_no_words hs w)
  | question | help | exit => cases hs

/-- A command that sends words is given one without an encoding: nothing is sent or the server
refuses what is sent exactly when the handler stops; and when such a word is sent, the server
decodes a command with another argument in its place. -/
theorem unrepresentable_word_iff {c : Command} (hc : c.SendsWords) (host : Host)
    {name : List Byte} {words : List (List Byte)} (hstr : ∀ w ∈ words, 0 ∉ w)
    (hbad : ∃ w ∈ words, Unrepresentable w) :
    ((c.func host (name :: words) = .nothing ∨
        ∃ s, (c.func host (name :: words)).sent = some s ∧ Refused s) ↔
      c.Stops host (name :: words)) ∧
    ∀ s, (c.func host (name :: words)).sent = some s → (∃ w ∈ s.args, Unrepresentable w) →
      Misread s := by
  have hne : words ≠ [] := by
    rintro rfl
    simp at hbad
  obtain ⟨hstop, hsend⟩ := Command.spec hc host name words hne hstr
  by_cases hs : c.Stops host (name :: words)
  · have hnothing := hstop hs
    refine ⟨⟨fun _ => hs, fun _ => Or.inl hnothing⟩, fun s hcall => ?_⟩
    rw [hnothing] at hcall
    cases hcall
  · obtain ⟨s, hcall, hword⟩ := hsend hs
    refine ⟨⟨?_, fun h => absurd h hs⟩, ?_⟩
    · rintro (hnothing | ⟨t, ht, hr⟩)
      · rw [hnothing] at hcall
        cases hcall
      · rw [hcall] at ht
        cases ht
        exact absurd hr hword.not_refused
    · intro t ht hun
      rw [hcall] at ht
      cases ht
      exact hword.misread hun

/-- A host without files where the user confirms. -/
def bareHost : Host := ⟨121, fun _ => none⟩

/-- `mv` with the one word `a"b` stops. -/
theorem unrepresentable_word_mv :
    cmdMv bareHost [ascii "mv", [97, 34, 98]] = .nothing ∨
      ∃ s, (cmdMv bareHost [ascii "mv", [97, 34, 98]]).sent = some s ∧ Refused s :=
  (unrepresentable_word_iff (c := .mv)
    ⟨bareHost, [ascii "mv", [97], [98]], .fmt CmdType.mv.code [.str [97], .str [98]], [97], rfl,
      List.mem_cons_self⟩ bareHost (show ∀ w ∈ [[97, 34, (98 : Byte)]], 0 ∉ w by decide)
    ⟨_, List.mem_cons_self, Or.inl (by decide)⟩).1.mpr (by decide : 2 < 3)

/-- `cd a"b` is sent and decoded with the arguments `a` and `b`; a confirmed `rmdir` of a word of
514 bytes is sent and decoded with empty arguments. -/
theorem unrepresentable_words_decoded :
    (cmdCd bareHost [ascii "cd", [97, 34, 98]]).sent = some (.string 12 [97, 34, 98]) ∧
    (p2sCmdToCmd P2sCmd.cleared ((Send.string 12 [97, 34, 98]).bytes ++ [0])).map
      (fun d => (d.ret, d.cmd.type, d.cmd.arg 0, d.cmd.arg 1)) =
      some (0, 12, some [97], some [98]) ∧
    (cmdRmdir bareHost [ascii "rmdir", List.replicate 514 97]).sent =
      some (.string 14 (List.replicate 514 97)) ∧
    (p2sCmdToCmd P2sCmd.cleared ((Send.string 14 (List.replicate 514 97)).bytes ++ [0])).map
      (fun d => (d.ret, d.cmd.type, d.cmd.arg 0, d.cmd.arg 1)) =
      some (0, 14, some [], some []) := by
  refine ⟨rfl, by decide +kernel, rfl, by decide +kernel⟩

end Psp2Shell.Cli
