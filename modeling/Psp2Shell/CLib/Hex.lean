import Psp2Shell.CLib.Numbers

/-! Hexadecimal numerals: what their digits spell, and `strtoul` on them. -/

namespace Psp2Shell.CLib

def isxdigit (b : Byte) : Bool := (digitValue b).any (· < 16)

def toupper (b : Byte) : Byte := if 97 ≤ b ∧ b ≤ 122 then b - 32 else b

/-- The value of a hexadecimal digit. -/
def xdigit (b : Byte) : Nat := (digitValue b).getD 0

theorem isxdigit_iff {b : Byte} : isxdigit b = true ↔
    48 ≤ b.toNat ∧ b.toNat ≤ 57 ∨ 65 ≤ b.toNat ∧ b.toNat ≤ 70 ∨ 97 ≤ b.toNat ∧ b.toNat ≤ 102 := by
  unfold isxdigit digitValue
  by_cases hdigit : isdigit b = true
  · have h := isdigit_iff.mp hdigit
    rw [if_pos hdigit]
    simp
    omega
  · have h := isdigit_iff.not.mp hdigit
    rw [if_neg hdigit]
    simp only [UInt8.le_iff_toNat_le, UInt8.reduceToNat]
    split_ifs with hlower hupper
    · simp
      omega
    · simp
      omega
    · simp
      omega

theorem xdigit_of_lower {b : Byte} (h : 97 ≤ b.toNat ∧ b.toNat ≤ 102) :
    xdigit b = b.toNat - 87 := by
  have hdigit : ¬isdigit b = true := isdigit_iff.not.mpr (by omega)
  rw [xdigit, digitValue, if_neg hdigit, if_pos (by simp [UInt8.le_iff_toNat_le]; omega)]
  rfl

theorem xdigit_of_upper {b : Byte} (h : 65 ≤ b.toNat ∧ b.toNat ≤ 70) : xdigit b = b.toNat - 55 := by
  have hdigit : ¬isdigit b = true := isdigit_iff.not.mpr (by omega)
  rw [xdigit, digitValue, if_neg hdigit, if_neg (by simp [UInt8.le_iff_toNat_le]; omega),
    if_pos (by simp [UInt8.le_iff_toNat_le]; omega)]
  rfl

theorem xdigit_of_digit {b : Byte} (h : 48 ≤ b.toNat ∧ b.toNat ≤ 57) : xdigit b = b.toNat - 48 := by
  rw [xdigit, digitValue, if_pos (isdigit_iff.mpr h)]
  rfl

theorem xdigit_lt {b : Byte} (h : isxdigit b = true) : xdigit b < 16 := by
  rcases isxdigit_iff.mp h with h | h | h
  · rw [xdigit_of_digit h]
    omega
  · rw [xdigit_of_upper h]
    omega
  · rw [xdigit_of_lower h]
    omega

theorem xdigit_eq_zero {b : Byte} (h : isxdigit b = true) : xdigit b = 0 ↔ b = 48 := by
  rw [← UInt8.toNat_inj]
  rcases isxdigit_iff.mp h with h | h | h
  · rw [xdigit_of_digit h]
    simp
    omega
  · rw [xdigit_of_upper h]
    simp
    omega
  · rw [xdigit_of_lower h]
    simp
    omega

theorem toupper_of_lower {b : Byte} (h : 97 ≤ b.toNat ∧ b.toNat ≤ 122) :
    (toupper b).toNat = b.toNat - 32 := by
  rw [toupper, if_pos (by simp [UInt8.le_iff_toNat_le]; omega), UInt8.toNat_sub_of_le]
  · rfl
  · rw [UInt8.le_iff_toNat_le]
    exact Nat.le_trans (by decide) h.1

theorem toupper_of_not_lower {b : Byte} (h : ¬(97 ≤ b.toNat ∧ b.toNat ≤ 122)) : toupper b = b :=
  if_neg (by simpa [UInt8.le_iff_toNat_le] using h)

/-! ### What digits spell -/

theorem numeral_eq (base : Nat) (s : List Byte) :
    numeral base s = (s.takeWhile fun b => (digitValue b).any (· < base)).foldl
      (fun n b => base * n + (digitValue b).getD 0) 0 := by
  rw [numeral, List.takeWhile_map, List.foldl_map]
  rfl

theorem numeral_of_xdigits {s : List Byte} (hs : ∀ b ∈ s, isxdigit b = true) :
    numeral 16 s = s.foldl (fun n b => 16 * n + xdigit b) 0 := by
  have hall : (s.takeWhile fun b => (digitValue b).any (· < 16)) = s :=
    List.takeWhile_eq_self_iff.mpr hs
  rw [numeral_eq, hall]
  rfl

theorem numeral_concat {s : List Byte} {b : Byte} (hs : ∀ b ∈ s, isxdigit b = true)
    (hb : isxdigit b = true) :
    numeral 16 (s ++ [b]) = 16 * numeral 16 s + xdigit b := by
  have hall : ∀ c ∈ s ++ [b], isxdigit c = true := fun c hc => by
    rcases List.mem_append.mp hc with hc | hc
    · exact hs c hc
    · rwa [List.mem_singleton.mp hc]
  rw [numeral_of_xdigits hall, numeral_of_xdigits hs, List.foldl_append]
  rfl

/-- The digits of `t` up to its first other character go on with the number that `s` spells. -/
theorem numeral_append {s : List Byte} (hs : ∀ b ∈ s, isxdigit b = true) (t : List Byte) :
    numeral 16 (s ++ t) = numeral 16 s * 16 ^ (t.takeWhile isxdigit).length + numeral 16 t := by
  have hfold : ∀ (l : List Byte) (n : Nat), l.foldl (fun n b => 16 * n + xdigit b) n =
      n * 16 ^ l.length + l.foldl (fun n b => 16 * n + xdigit b) 0 := by
    intro l
    induction l with
    | nil => simp
    | cons b l ih =>
      intro n
      rw [List.foldl_cons, List.foldl_cons, ih, ih (16 * 0 + _), List.length_cons]
      ring
  have hrun : numeral 16 (s ++ t) =
      (s ++ t.takeWhile isxdigit).foldl (fun n b => 16 * n + xdigit b) 0 := by
    rw [numeral_eq, ← List.takeWhile_append_of_pos hs]
    rfl
  have htail : numeral 16 t = (t.takeWhile isxdigit).foldl (fun n b => 16 * n + xdigit b) 0 :=
    numeral_eq 16 t
  rw [hrun, htail, numeral_of_xdigits hs, List.foldl_append, hfold]

theorem numeral_lt {s : List Byte} (hs : ∀ b ∈ s, isxdigit b = true) :
    numeral 16 s < 16 ^ s.length := by
  induction s using List.reverseRecOn with
  | nil => exact Nat.one_pos
  | append_singleton s b ih =>
    have hall : ∀ c ∈ s, isxdigit c = true := fun c hc => hs c (List.mem_append_left _ hc)
    have hb := hs b (List.mem_append_right _ (List.mem_singleton_self b))
    have hlt := ih hall
    have hdigit := xdigit_lt hb
    rw [numeral_concat hall hb, List.length_append, List.length_singleton, pow_succ]
    omega

theorem numeral_eq_zero {s : List Byte} (hs : ∀ b ∈ s, isxdigit b = true) :
    numeral 16 s = 0 ↔ ∀ b ∈ s, b = 48 := by
  induction s using List.reverseRecOn with
  | nil => exact iff_of_true rfl (by simp)
  | append_singleton s b ih =>
    have hall : ∀ c ∈ s, isxdigit c = true := fun c hc => hs c (List.mem_append_left _ hc)
    have hb := hs b (List.mem_append_right _ (List.mem_singleton_self b))
    rw [numeral_concat hall hb, List.forall_mem_append, ← ih hall, List.forall_mem_singleton,
      ← xdigit_eq_zero hb]
    omega

/-- The largest number of so many digits has the largest digit everywhere. -/
theorem numeral_eq_max {s : List Byte} (hs : ∀ b ∈ s, isxdigit b = true) :
    numeral 16 s + 1 = 16 ^ s.length ↔ ∀ b ∈ s, xdigit b = 15 := by
  induction s using List.reverseRecOn with
  | nil => exact iff_of_true rfl (by simp)
  | append_singleton s b ih =>
    have hall : ∀ c ∈ s, isxdigit c = true := fun c hc => hs c (List.mem_append_left _ hc)
    have hb := hs b (List.mem_append_right _ (List.mem_singleton_self b))
    have hlt := numeral_lt hall
    have hdigit := xdigit_lt hb
    rw [numeral_concat hall hb, List.forall_mem_append, ← ih hall, List.forall_mem_singleton,
      List.length_append, List.length_singleton, pow_succ]
    omega

/-- Each digit can be told from the number. -/
theorem numeral_digit {s : List Byte} (hs : ∀ b ∈ s, isxdigit b = true) {k : Nat}
    (hk : k < s.length) :
    numeral 16 s / 16 ^ (s.length - 1 - k) % 16 = xdigit s[k] := by
  induction s using List.reverseRecOn generalizing k with
  | nil => cases hk
  | append_singleton s b ih =>
    have hall : ∀ c ∈ s, isxdigit c = true := fun c hc => hs c (List.mem_append_left _ hc)
    have hb := hs b (List.mem_append_right _ (List.mem_singleton_self b))
    have hdigit := xdigit_lt hb
    rw [List.length_append, List.length_singleton] at hk
    rw [numeral_concat hall hb]
    by_cases hlast : k < s.length
    · have hpow : (s ++ [b]).length - 1 - k = s.length - 1 - k + 1 := by
        rw [List.length_append, List.length_singleton]
        omega
      rw [hpow, pow_succ', ← Nat.div_div_eq_div_mul, Nat.mul_add_div (by decide),
        Nat.div_eq_of_lt hdigit, Nat.add_zero, ih hall hlast, List.getElem_append_left hlast]
    · obtain rfl : k = s.length := by omega
      have hpow : (s ++ [b]).length - 1 - s.length = 0 := by simp
      rw [hpow, pow_zero, Nat.div_one, Nat.mul_add_mod, Nat.mod_eq_of_lt hdigit,
        List.getElem_concat_length rfl]

/-! ### Reading -/

/-- `strtoul(s, NULL, 16)` on a string that starts with two digits, which are no
sign, space or prefix. -/
theorem strtoul_xdigits (bits : Nat) {a b : Byte} (ha : isxdigit a = true) (hb : isxdigit b = true)
    (s : List Byte) :
    strtoul bits 16 (a :: b :: s) = min (2 ^ bits - 1) (numeral 16 (a :: b :: s)) := by
  have ha' := isxdigit_iff.mp ha
  have hb' := isxdigit_iff.mp hb
  have hspace : isspace a = false := by
    rw [← Bool.not_eq_true, isspace_iff]
    omega
  have hminus : a ≠ 45 := by rintro rfl; simp at ha'
  have hplus : a ≠ 43 := by rintro rfl; simp at ha'
  have hx : b ≠ 120 := by rintro rfl; simp at hb'
  have hX : b ≠ 88 := by rintro rfl; simp at hb'
  have hprefix : hexPrefixed (a :: b :: s) = false := by
    unfold hexPrefixed
    split
    · rename_i x d rest heq
      obtain ⟨-, rfl, -⟩ : 48 = a ∧ x = b ∧ d :: rest = s := by simpa [eq_comm] using heq
      simp [hx, hX]
    · rfl
  simp only [strtoul,
    List.dropWhile_cons_of_neg (p := isspace) (by simp [hspace] : ¬isspace a = true)]
  simp only [List.head?_cons, Option.some.injEq, hminus, hplus, or_self, if_false, hprefix]
  simp
  split_ifs <;> omega

end Psp2Shell.CLib
