import Psp2Shell.CLib.Lines
import Psp2Shell.Cli.Line

/-! `strsplit` with the array that it fills, and as the inverse of joining. -/

namespace Psp2Shell.Cli

open CLib

/-- `tokens` of `strsplit`: the elements that are allocated, and the strings in the first
`tokens_used` of them. -/
structure Tokens where
  alloc : Nat
  used : List (List Byte)
deriving DecidableEq

/-- `tokens[tokens_used++] = strdup(token)`, in an array that is doubled when it is full; `none`
when the element is not in the array. -/
def Tokens.store (t : Tokens) (token : List Byte) : Option Tokens :=
  let alloc := if t.used.length = t.alloc then t.alloc * 2 else t.alloc
  if t.used.length < alloc then some ⟨alloc, t.used ++ [token]⟩ else none

/-- The loop of `strsplit`; `rest` is `none` behind the last token. -/
def strsplitLoop (t : Tokens) (rest : Option (List Byte)) (delim : List Byte) : Option Tokens :=
  match rest with
  | none => some t
  | some rest =>
    match _h : strsep rest delim with
    | (token, rest) => (t.store token).bind fun t => strsplitLoop t rest delim
termination_by rest.elim 0 fun rest => rest.length + 1
decreasing_by
  cases rest with
  | none => simp
  | some rest => simpa using strsep_length _h

/-- `strsplit`: the array at its last size, which is `*numtokens`. -/
def strsplitTokens (str delim : List Byte) : Option Tokens :=
  (strsplitLoop ⟨1, []⟩ (some str) delim).map fun t => ⟨t.used.length, t.used⟩

theorem strsplitLoop_none (t : Tokens) (delim : List Byte) :
    strsplitLoop t none delim = some t := by
  rw [strsplitLoop]

theorem strsplitLoop_some (t : Tokens) (rest delim : List Byte) :
    strsplitLoop t (some rest) delim =
      (t.store (strsep rest delim).1).bind fun t => strsplitLoop t (strsep rest delim).2 delim := by
  rw [strsplitLoop]

/-! ### The array -/

/-- The strings have room in the array, which was full when it was doubled. -/
structure Tokens.Doubled (t : Tokens) : Prop where
  pos : 0 < t.alloc
  room : t.used.length ≤ t.alloc
  tight : t.alloc ≤ max 1 (2 * t.used.length)

theorem Tokens.Doubled.store {t : Tokens} (h : t.Doubled) (token : List Byte) :
    ∃ t', t.store token = some t' ∧ t'.used = t.used ++ [token] ∧ t'.Doubled := by
  have hpos := h.pos
  have hroom := h.room
  have htight := h.tight
  unfold Tokens.store
  by_cases hfull : t.used.length = t.alloc
  · refine ⟨⟨t.alloc * 2, t.used ++ [token]⟩, ?_, rfl, ?_, ?_, ?_⟩
    · rw [if_pos hfull]
      exact if_pos (by omega)
    · dsimp only
      omega
    · simp only [List.length_append, List.length_singleton]
      omega
    · simp only [List.length_append, List.length_singleton]
      omega
  · refine ⟨⟨t.alloc, t.used ++ [token]⟩, ?_, rfl, hpos, ?_, ?_⟩
    · rw [if_neg hfull]
      exact if_pos (by omega)
    · simp only [List.length_append, List.length_singleton]
      omega
    · simp only [List.length_append, List.length_singleton]
      omega

/-- The loop stores the tokens of the text behind those that it has, each in the array. -/
theorem Tokens.Doubled.loop {t : Tokens} (h : t.Doubled) (str delim : List Byte) :
    ∃ t', strsplitLoop t (some str) delim = some t' ∧ t'.used = t.used ++ strsplit str delim ∧
      t'.Doubled := by
  fun_induction strsplit str delim generalizing t with
  | case1 str token hsep =>
    obtain ⟨t', hstore, hused, hdoubled⟩ := h.store token
    refine ⟨t', ?_, hused, hdoubled⟩
    rw [strsplitLoop_some, hsep, hstore, Option.bind_some, strsplitLoop_none]
  | case2 str token rest hsep ih =>
    obtain ⟨t', hstore, hused, hdoubled⟩ := h.store token
    obtain ⟨t'', hloop, hused', hdoubled'⟩ := ih hdoubled
    refine ⟨t'', ?_, ?_, hdoubled'⟩
    · rw [strsplitLoop_some, hsep, hstore, Option.bind_some, hloop]
    · rw [hused', hused, List.append_assoc, List.singleton_append]

theorem strsplitTokens_eq (str delim : List Byte) :
    strsplitTokens str delim = some ⟨(strsplit str delim).length, strsplit str delim⟩ := by
  have hstart : Tokens.Doubled ⟨1, []⟩ := ⟨Nat.one_pos, Nat.zero_le 1, le_rfl⟩
  obtain ⟨t, hloop, hused, -⟩ := hstart.loop str delim
  rw [strsplitTokens, hloop, Option.map_some, hused, List.nil_append]

/-! ### Joining -/

/-- With one delimiter the tokens are the stretches between its occurrences. -/
theorem strsplit_eq_splitOn (str : List Byte) (d : Byte) : strsplit str [d] = str.splitOn d := by
  have htoken : ∀ {l : List Byte}, d ∉ l → ∀ b ∈ l, b ∉ [d] := fun hl b hb hd =>
    hl (List.mem_singleton.mp hd ▸ hb)
  induction str using line_cases (q := d) with
  | last t ht => rw [strsplit_token (htoken ht), List.splitOn_eq_singleton ht]
  | line l t hl ih =>
    rw [strsplit_append (htoken hl) (List.mem_singleton_self d), ih,
      List.splitOn_append_cons_self_of_not_mem hl]

/-- `strsplit` returns the strings between the delimiters of its text, which joined with
the delimiter are the text, with no store behind the end of its array; and of joined
strings it returns these. -/
theorem strsplit_inverts_join (d : Byte) :
    (∀ str, ∃ tokens, strsplitTokens str [d] = some ⟨1 + str.count d, tokens⟩ ∧
      tokens.length = 1 + str.count d ∧ (∀ token ∈ tokens, d ∉ token) ∧
        [d].intercalate tokens = str) ∧
    ∀ words, words ≠ [] → (∀ w ∈ words, d ∉ w) →
      strsplitTokens ([d].intercalate words) [d] = some ⟨words.length, words⟩ := by
  constructor
  · intro str
    refine ⟨str.splitOn d, ?_, length_splitOn str, fun token => not_mem_of_mem_splitOn,
      List.intercalate_splitOn d⟩
    rw [strsplitTokens_eq, strsplit_eq_splitOn, length_splitOn]
  · intro words hne hwords
    rw [strsplitTokens_eq, strsplit_eq_splitOn, List.splitOn_intercalate d hwords hne]

example : strsplitTokens (ascii " ls  ux0: ") (ascii " ") =
    some ⟨5, [[], ascii "ls", [], ascii "ux0:", []]⟩ := by
  rw [strsplitTokens_eq, show ascii " " = [32] from rfl, strsplit_eq_splitOn]
  decide

end Psp2Shell.Cli
