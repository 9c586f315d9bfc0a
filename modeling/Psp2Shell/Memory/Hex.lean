import Psp2Shell.CLib.Hex
import Psp2Shell.Kernel.Dump

/-! Words that `%08X` prints and `strtoul` reads. -/

namespace Psp2Shell.Memory

open CLib Kernel

theorem isxdigit_hexDigit {d : Nat} (hd : d < 16) : isxdigit (hexDigit d) = true := by
  interval_cases d <;> decide

theorem xdigit_hexDigit {d : Nat} (hd : d < 16) : xdigit (hexDigit d) = d := by
  interval_cases d <;> decide

/-- The digits are printed in upper case. -/
theorem hexDigit_xdigit {b : Byte} (hb : isxdigit b = true) : hexDigit (xdigit b) = toupper b := by
  apply UInt8.toNat_inj.mp
  rcases isxdigit_iff.mp hb with h | h | h
  · rw [xdigit_of_digit h, hexDigit, if_pos (by omega), toupper_of_not_lower (by omega),
      UInt8.toNat_ofNat']
    omega
  · rw [xdigit_of_upper h, hexDigit, if_neg (by omega), toupper_of_not_lower (by omega),
      UInt8.toNat_ofNat']
    omega
  · rw [xdigit_of_lower h, hexDigit, if_neg (by omega), toupper_of_lower (by omega),
      UInt8.toNat_ofNat']
    omega

theorem hex8_eq (w : BitVec 32) : hex8 w =
    [hexDigit (w.toNat / 16 ^ 7 % 16), hexDigit (w.toNat / 16 ^ 6 % 16),
      hexDigit (w.toNat / 16 ^ 5 % 16), hexDigit (w.toNat / 16 ^ 4 % 16),
        hexDigit (w.toNat / 16 ^ 3 % 16), hexDigit (w.toNat / 16 ^ 2 % 16),
      hexDigit (w.toNat / 16 ^ 1 % 16), hexDigit (w.toNat / 16 ^ 0 % 16)] := rfl

theorem isxdigit_hex8 {w : BitVec 32} {b : Byte} (hb : b ∈ hex8 w) : isxdigit b = true := by
  obtain ⟨k, -, rfl⟩ := List.mem_map.mp hb
  exact isxdigit_hexDigit (Nat.mod_lt _ (by decide))

theorem numeral_hex8 (w : BitVec 32) : numeral 16 (hex8 w) = w.toNat := by
  have hdigit : ∀ n, xdigit (hexDigit (n % 16)) = n % 16 := fun n =>
    xdigit_hexDigit (Nat.mod_lt n (by decide))
  -- the first `k` digits spell what is left of the number without its last `8 - k`
  have hfold : ∀ k ≤ 8, (List.range k).foldl
      (fun v i => 16 * v + xdigit (hexDigit (w.toNat / 16 ^ (7 - i) % 16))) 0 =
      w.toNat / 16 ^ (8 - k) := by
    intro k hk
    induction k with
    | zero => exact (Nat.div_eq_of_lt w.isLt).symm
    | succ k ih =>
      have hbefore : 8 - k = 7 - k + 1 := by omega
      have hafter : 8 - (k + 1) = 7 - k := by omega
      rw [List.range_succ, List.foldl_append, ih (by omega), hbefore, hafter, pow_succ,
        ← Nat.div_div_eq_div_mul]
      simp only [List.foldl_cons, List.foldl_nil, hdigit]
      exact Nat.div_add_mod _ 16
  rw [numeral_of_xdigits fun b => isxdigit_hex8, hex8, List.foldl_map, hfold 8 le_rfl,
    Nat.sub_self, pow_zero, Nat.div_one]

/-- What eight digits spell is printed as these, in upper case. -/
theorem hex8_numeral {s : List Byte} (hlen : s.length = 8) (hs : ∀ b ∈ s, isxdigit b = true) :
    hex8 (BitVec.ofNat 32 (numeral 16 s)) = s.map toupper := by
  have hlt := numeral_lt hs
  have hvalue : (BitVec.ofNat 32 (numeral 16 s)).toNat = numeral 16 s := by
    rw [hlen] at hlt
    exact Nat.mod_eq_of_lt hlt
  apply List.ext_getElem
  · rw [hex8_length, List.length_map, hlen]
  · intro k hk hk'
    rw [List.length_map] at hk'
    have hdigit := numeral_digit hs hk'
    rw [hlen] at hdigit
    simp only [hex8, List.getElem_map, List.getElem_range, hvalue, hdigit]
    exact hexDigit_xdigit (hs _ (List.getElem_mem hk'))

/-- A word that is followed by no further digit is read as it was printed. -/
theorem strtoul_hex8 {bits : Nat} (hbits : 32 ≤ bits) (w : BitVec 32) {rest : List Byte}
    (hrest : rest.takeWhile isxdigit = []) : strtoul bits 16 (hex8 w ++ rest) = w.toNat := by
  have hstop : numeral 16 rest = 0 := by
    have hrun : numeral 16 rest = (rest.takeWhile isxdigit).foldl _ 0 := numeral_eq 16 rest
    rw [hrun, hrest]
    rfl
  have hvalue : numeral 16 (hex8 w ++ rest) = w.toNat := by
    rw [numeral_append (fun b => isxdigit_hex8), hrest, hstop, numeral_hex8]
    simp
  have hread : strtoul bits 16 (hex8 w ++ rest) =
      min (2 ^ bits - 1) (numeral 16 (hex8 w ++ rest)) := by
    rw [hex8_eq]
    exact strtoul_xdigits bits (isxdigit_hexDigit (Nat.mod_lt _ (by decide)))
      (isxdigit_hexDigit (Nat.mod_lt _ (by decide))) _
  have hlt := w.isLt
  have hle : 2 ^ 32 ≤ 2 ^ bits := Nat.pow_le_pow_right (by decide) hbits
  rw [hread, hvalue]
  omega

end Psp2Shell.Memory
