import Psp2Shell.CLib.Format

/-! Numbers that are printed in decimal and read back by `strtoul`. -/

namespace Psp2Shell.CLib

theorem digitValue_digit {d : Nat} (hd : d < 10) : digitValue (UInt8.ofNat (48 + d)) = some d := by
  interval_cases d <;> rfl

theorem foldl_digits (ds : List Nat) :
    ds.reverse.foldl (fun n d => 10 * n + d) 0 = Nat.ofDigits 10 ds := by
  rw [List.foldl_reverse, Nat.ofDigits_eq_foldr]
  congr 1
  funext d n
  exact Nat.add_comm _ _

theorem numeral_of_digits {ds : List Nat} (hds : ∀ d ∈ ds, d < 10) :
    numeral 10 (ds.map fun d => UInt8.ofNat (48 + d)) = ds.foldl (fun n d => 10 * n + d) 0 := by
  have hvalues : (ds.map fun d => UInt8.ofNat (48 + d)).map digitValue = ds.map some := by
    rw [List.map_map]
    exact List.map_congr_left fun d hd => digitValue_digit (hds d hd)
  have hall : ∀ v ∈ ds.map some, (v.any fun d => decide (d < 10)) = true := by
    intro v hv
    obtain ⟨d, hd, rfl⟩ := List.mem_map.mp hv
    simpa using hds d hd
  rw [numeral, hvalues, List.takeWhile_eq_self_iff.mpr hall, List.foldl_map]
  rfl

theorem numeral_decimalNat {n : Nat} (hn : n ≠ 0) : numeral 10 (decimalNat n) = n := by
  have hdigits : ∀ d ∈ (Nat.digits 10 n).reverse, d < 10 := fun d hd =>
    Nat.digits_lt_base (by decide) (List.mem_reverse.mp hd)
  rw [decimalNat, if_neg hn, numeral_of_digits hdigits, foldl_digits, Nat.ofDigits_digits]

/-- The first digit of a number that is not zero is not zero. -/
theorem head_decimalNat {n : Nat} (hn : n ≠ 0) : (decimalNat n).head? ≠ some 48 := by
  have hne : Nat.digits 10 n ≠ [] := Nat.digits_ne_nil_iff_ne_zero.mpr hn
  have hlast := Nat.getLast_digit_ne_zero 10 hn
  have hlt : (Nat.digits 10 n).getLast hne < 10 :=
    Nat.digits_lt_base (by decide) (List.getLast_mem hne)
  rw [decimalNat, if_neg hn, List.head?_map, List.head?_reverse, List.getLast?_eq_some_getLast hne,
    Option.map_some]
  intro h
  have hvalue := digitValue_digit hlt
  rw [Option.some.inj h] at hvalue
  exact hlast (Option.some.inj hvalue).symm

theorem strtoul_lt (bits base : Nat) (s : List Byte) : strtoul bits base s < 2 ^ bits := by
  have hpos := Nat.two_pow_pos bits
  unfold strtoul
  extract_lets s digits base value
  split
  · omega
  · split
    · exact Nat.mod_lt _ hpos
    · omega

/-- `strtoul(s, NULL, 0)` reads a printed number back, or the largest `unsigned
long` when it is larger. -/
theorem strtoul_decimalNat_eq (bits n : Nat) :
    strtoul bits 0 (decimalNat n) = if 2 ^ bits ≤ n then 2 ^ bits - 1 else n := by
  have hdigit : ∀ b ∈ decimalNat n, isdigit b = true := fun b hb => mem_decimalNat hb
  by_cases hzero : n = 0
  · subst hzero
    have hbits : ¬2 ^ bits ≤ 0 := by
      have := Nat.two_pow_pos bits
      omega
    have hvalue : numeral 8 [48] = 0 := rfl
    simp only [decimalNat, if_true, strtoul]
    simp [isspace, hexPrefixed, hvalue, hbits]
  · obtain ⟨b, rest, hb⟩ : ∃ b rest, decimalNat n = b :: rest := by
      cases h : decimalNat n with
      | nil => simp [decimalNat, hzero, Nat.digits_eq_nil_iff_eq_zero] at h
      | cons b rest => exact ⟨b, rest, rfl⟩
    have hd := isdigit_iff.mp (hdigit b (by simp [hb]))
    have hspace : isspace b = false := by
      rw [← Bool.not_eq_true, isspace_iff]
      omega
    have hminus : b ≠ 45 := by rintro rfl; simp at hd
    have hplus : b ≠ 43 := by rintro rfl; simp at hd
    have h48 : b ≠ 48 := by
      have hhead := head_decimalNat hzero
      rw [hb] at hhead
      simpa using hhead
    have hhex : hexPrefixed (b :: rest) = false := by
      unfold hexPrefixed
      split
      · rename_i heq
        exact absurd (List.cons.inj heq).1 h48
      · rfl
    have hvalue := numeral_decimalNat hzero
    rw [hb] at hvalue
    rw [hb]
    simp [strtoul, hspace, hminus, hplus, h48, hhex, hvalue]

theorem strtoul_decimalNat {bits n : Nat} (hn : n < 2 ^ bits) :
    strtoul bits 0 (decimalNat n) = n := by
  rw [strtoul_decimalNat_eq, if_neg (by omega)]

end Psp2Shell.CLib
