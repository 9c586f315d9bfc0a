import Psp2Shell.CLib.Fields
import Psp2Shell.Cmd.Model

/-! What the decoder makes of a string: it accepts the strings that start with two digits of value
at least ten, and stores the first three fields between quotes, one in each slot. -/

namespace Psp2Shell.Cmd

open CLib

/-- Stores `as` in the slots from `i` on, one after the other. -/
def storeArgs : Nat → List (List Byte) → ArgsBuffer → ArgsBuffer
  | _, [], b => b
  | i, a :: as, b => storeArgs (i + 1) as (b.blit (i * p2sSizeString) a)

/-- The slots from `i` on that `as` goes to, with the length of each argument. -/
def copiesFrom : Nat → List (List Byte) → List (Nat × Nat)
  | _, [] => []
  | i, a :: as => (i, a.length) :: copiesFrom (i + 1) as

/-- The command of type `type` with the arguments `args`, as the decoder stores them. -/
def P2sCmd.ofArgs (type : Int) (args : List (List Byte)) : P2sCmd :=
  ⟨type, storeArgs 0 args P2sCmd.cleared.args⟩

/-- A string starts with a command type: two digits, the first not `0`. -/
def TypeDigits (s : List Byte) : Prop :=
  ∃ a b rest, s = a :: b :: rest ∧ isdigit a = true ∧ isdigit b = true ∧ a ≠ 48

/-- The value of the two digits that start a string. -/
def typeValue (s : List Byte) : Int := strtol 32 (strncpy s 2)

theorem typeValue_cons (a b : Byte) (rest : List Byte) :
    typeValue (a :: b :: rest) = strtol 32 [a, b] := by
  simp [typeValue, strncpy]

theorem start_le_typeValue {s : List Byte} (hs : 2 ≤ s.length) :
    CmdType.start.code ≤ typeValue s ↔ TypeDigits s := by
  obtain ⟨a, b, rest, rfl⟩ : ∃ a b rest, s = a :: b :: rest := by
    match s, hs with
    | a :: b :: rest, _ => exact ⟨a, b, rest, rfl⟩
  have hstart : CmdType.start.code = 10 := rfl
  rw [typeValue_cons, hstart]
  constructor
  · intro h
    obtain ⟨ha, hb⟩ := isdigit_of_le_strtol h
    refine ⟨a, b, rest, rfl, ha, hb, ?_⟩
    rintro rfl
    have hbv := isdigit_iff.mp hb
    rw [strtol_two_digits ha hb] at h
    simp at h
    omega
  · rintro ⟨a', b', rest', heq, ha, hb, hne⟩
    obtain ⟨rfl, rfl, rfl⟩ : a = a' ∧ b = b' ∧ rest = rest' := by simpa using heq
    have hav := isdigit_iff.mp ha
    have hbv := isdigit_iff.mp hb
    have h48 : a.toNat ≠ 48 := fun h => hne (UInt8.toNat_inj.mp h)
    rw [strtol_two_digits ha hb]
    omega

/-! ### The argument loop -/

theorem argLoop_of_not_mem {s : List Byte} (h : quote ∉ s) (left i : Nat) (b : ArgsBuffer) :
    argLoop left i s b = (b, []) := by
  cases left with
  | zero => rfl
  | succ left => simp only [argLoop, strstr_singleton_none.mpr h]

/-- The loop stores the fields of a frame until its iterations run out. -/
theorem argLoop_framed {pre post : List Byte} {as : List (List Byte)} (hpre : quote ∉ pre)
    (has : ∀ a ∈ as, quote ∉ a) (hpost : quote ∉ post) (left i : Nat) (b : ArgsBuffer) :
    argLoop left i (pre ++ framed quote as ++ post) b =
      (storeArgs i (as.take left) b, copiesFrom i (as.take left)) := by
  induction as generalizing pre left i b with
  | nil =>
    cases left with
    | zero => rfl
    | succ left =>
      have hstart : strstr [quote] (pre ++ framed quote [] ++ post) = some (quote :: post) := by
        simpa using strstr_singleton hpre post
      simp only [argLoop, hstart, List.drop_one, List.tail_cons,
        strstr_singleton_none.mpr hpost]
      rfl
  | cons a as ih =>
    cases left with
    | zero => rfl
    | succ left =>
      have hstart : strstr [quote] (pre ++ framed quote (a :: as) ++ post) =
          some (quote :: (a ++ (framed quote as ++ post))) := by
        rw [framed_cons, List.append_assoc, List.cons_append, List.append_assoc]
        exact strstr_singleton hpre _
      have hend : strstr [quote] (a ++ (framed quote as ++ post)) =
          some (framed quote as ++ post) :=
        strstr_singleton (has a (by simp)) _
      have hlen : (a ++ (framed quote as ++ post)).length - (framed quote as ++ post).length =
          a.length := by
        simp
      have hrest :=
        ih (show quote ∉ [] by simp) (fun c hc => has c (List.mem_cons_of_mem _ hc)) left
        (i + 1) (b.blit (i * p2sSizeString) a)
      rw [List.nil_append] at hrest
      simp only [argLoop, hstart, List.drop_one, List.tail_cons, hend, hlen, strncpy_append, hrest,
        List.take_succ_cons, storeArgs, copiesFrom]

/-- The loop on any string stores its first fields. -/
theorem argLoop_eq (s : List Byte) (left i : Nat) (b : ArgsBuffer) :
    argLoop left i s b =
      (storeArgs i ((fields quote s).take left) b, copiesFrom i ((fields quote s).take left)) := by
  by_cases h : quote ∈ s
  · obtain ⟨pre, as, post, rfl, hpre, has, hpost⟩ := exists_framed h
    rw [fields_framed hpre has hpost, argLoop_framed hpre has hpost]
  · rw [fields_of_not_mem h, argLoop_of_not_mem h]
    simp [storeArgs, copiesFrom]

/-! ### The decoder -/

/-- The arguments that the decoder takes from a string. -/
def argFields (s : List Byte) : List (List Byte) := (fields quote s).take p2sMaxArgs

theorem p2sCmdToCmd_eq {buffer s : List Byte} (h : cstring buffer = some s) (cmd : P2sCmd) :
    p2sCmdToCmd cmd buffer =
      if s.length < 2 then some ⟨-1, cmd, []⟩
      else if typeValue s < CmdType.start.code then some ⟨-1, P2sCmd.cleared, []⟩
      else some ⟨0, P2sCmd.ofArgs (typeValue s) (argFields s), copiesFrom 0 (argFields s)⟩ := by
  simp only [p2sCmdToCmd, h, argLoop_eq]
  rfl

theorem TypeDigits.two_le {s : List Byte} (h : TypeDigits s) : 2 ≤ s.length := by
  obtain ⟨a, b, rest, rfl, -⟩ := h
  simp

theorem p2sCmdToCmd_accepts {buffer s : List Byte} (h : cstring buffer = some s) (cmd : P2sCmd)
    (ht : TypeDigits s) : p2sCmdToCmd cmd buffer =
      some ⟨0, P2sCmd.ofArgs (typeValue s) (argFields s), copiesFrom 0 (argFields s)⟩ := by
  have hlen := ht.two_le
  have hstart := (start_le_typeValue hlen).mpr ht
  rw [p2sCmdToCmd_eq h, if_neg (by omega), if_neg (by omega)]

/-- A string that starts with no type is refused, and nothing is copied. -/
theorem p2sCmdToCmd_refuses {buffer s : List Byte} (h : cstring buffer = some s) (cmd : P2sCmd)
    (ht : ¬TypeDigits s) : ∃ left, p2sCmdToCmd cmd buffer = some ⟨-1, left, []⟩ := by
  rw [p2sCmdToCmd_eq h]
  by_cases hlen : s.length < 2
  · exact ⟨cmd, if_pos hlen⟩
  · have hstart : typeValue s < CmdType.start.code := by
      by_contra hc
      exact ht ((start_le_typeValue (by omega)).mp (by omega))
    exact ⟨P2sCmd.cleared, by rw [if_neg hlen, if_pos hstart]⟩

/-- The decoder returns 0 exactly on the strings that start with a type. -/
theorem p2sCmdToCmd_ret_zero {buffer s : List Byte} (h : cstring buffer = some s) (cmd : P2sCmd) :
    (∃ d, p2sCmdToCmd cmd buffer = some d ∧ d.ret = 0) ↔ TypeDigits s := by
  constructor
  · rintro ⟨d, hd, hret⟩
    by_contra ht
    obtain ⟨left, hl⟩ := p2sCmdToCmd_refuses h cmd ht
    rw [hl] at hd
    cases hd
    simp at hret
  · exact fun ht => ⟨_, p2sCmdToCmd_accepts h cmd ht, rfl⟩

end Psp2Shell.Cmd
