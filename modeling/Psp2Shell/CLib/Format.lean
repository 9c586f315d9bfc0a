import Psp2Shell.CLib.Text

/-! The formatted output of `snprintf` for the conversions `%i`, `%ld` and `%s`, and the bytes that
it stores in a buffer of a given size. -/

namespace Psp2Shell.CLib

def decimalNat (n : Nat) : List Byte :=
  if n = 0 then [48] else (Nat.digits 10 n).reverse.map fun d => UInt8.ofNat (48 + d)

/-- The text of `%i` and `%ld`. -/
def decimal (z : Int) : List Byte :=
  if z < 0 then 45 :: decimalNat z.natAbs else decimalNat z.natAbs

/-- An argument of a formatting function. -/
inductive FmtArg
  | int (value : Int)
  | long (value : Int)
  | str (value : List Byte)

def FmtArg.text : FmtArg → List Byte
  | .int value => decimal value
  | .long value => decimal value
  | .str value => value

/-- The conversion that prints an argument: `%i`, `%ld` or `%s`. -/
def FmtArg.conversion : FmtArg → List Byte
  | .int _ => [37, 105]
  | .long _ => [37, 108, 100]
  | .str _ => [37, 115]

/-- The output of a format string: each conversion takes the next argument, and the output stops
where the arguments run out or the next one is of another type, which C leaves undefined. -/
def format : List Byte → List FmtArg → List Byte
  | 37 :: 105 :: fmt, .int value :: args => decimal value ++ format fmt args
  | 37 :: 108 :: 100 :: fmt, .long value :: args => decimal value ++ format fmt args
  | 37 :: 115 :: fmt, .str value :: args => value ++ format fmt args
  | 37 :: _, _ => []
  | c :: fmt, args => c :: format fmt args
  | [], _ => []

/-- The string that `snprintf(buffer, size, ...)` leaves in `buffer` when its output is `text`: all
of it when it and its NUL fit in `size` bytes, otherwise its first `size - 1` bytes. -/
def snprintf (size : Nat) (text : List Byte) : List Byte := text.take (size - 1)

theorem format_conversion (a : FmtArg) (fmt : List Byte) (args : List FmtArg) :
    format (a.conversion ++ fmt) (a :: args) = a.text ++ format fmt args := by
  cases a <;> simp [FmtArg.conversion, FmtArg.text, format]

theorem format_literal {c : Byte} (h : c ≠ 37) (fmt : List Byte) (args : List FmtArg) :
    format (c :: fmt) args = c :: format fmt args := by
  rw [format.eq_def]
  split <;> simp_all

theorem snprintf_of_lt {size : Nat} {text : List Byte} (h : text.length < size) :
    snprintf size text = text :=
  List.take_of_length_le (by omega)

/-! ### Decimal numbers -/

theorem mem_decimalNat {n : Nat} {b : Byte} (h : b ∈ decimalNat n) : isdigit b = true := by
  unfold decimalNat at h
  split at h
  · obtain rfl := List.mem_singleton.mp h
    decide
  · obtain ⟨d, hd, rfl⟩ := List.mem_map.mp h
    have hlt := Nat.digits_lt_base (by decide) (List.mem_reverse.mp hd)
    rw [isdigit_iff, UInt8.toNat_ofNat']
    omega

theorem mem_decimal {z : Int} {b : Byte} (h : b ∈ decimal z) : isdigit b = true ∨ b = 45 := by
  unfold decimal at h
  split at h
  · rcases List.mem_cons.mp h with rfl | h
    · exact Or.inr rfl
    · exact Or.inl (mem_decimalNat h)
  · exact Or.inl (mem_decimalNat h)

theorem not_mem_decimal {b : Byte} (hd : isdigit b = false) (hm : b ≠ 45) (z : Int) :
    b ∉ decimal z := by
  intro h
  rcases mem_decimal h with h | h
  · simp [hd] at h
  · exact hm h

theorem decimalNat_length_le {n k : Nat} (hk : 0 < k) (h : n < 10 ^ k) :
    (decimalNat n).length ≤ k := by
  unfold decimalNat
  split
  · simpa using Nat.succ_le_of_lt hk
  · simpa using (Nat.digits_length_le_iff (by decide) n).mpr h

theorem decimal_length_le {z : Int} {k : Nat} (hk : 0 < k) (h : z.natAbs < 10 ^ k) :
    (decimal z).length ≤ k + 1 := by
  have hn := decimalNat_length_le hk h
  unfold decimal
  split
  · simpa using hn
  · omega

theorem decimal_two {z : Int} (hlow : 10 ≤ z) (hhigh : z ≤ 99) :
    decimal z = [UInt8.ofNat (48 + z.toNat / 10), UInt8.ofNat (48 + z.toNat % 10)] := by
  obtain ⟨n, rfl⟩ := Int.eq_ofNat_of_zero_le (show 0 ≤ z by omega)
  have h10 : 10 ≤ n := by omega
  have h99 : n ≤ 99 := by omega
  interval_cases n <;> decide

/-- A number from ten on that two bytes spell is printed as these. -/
theorem decimal_strtol_two {a b : Byte} (h : 10 ≤ strtol 32 [a, b]) :
    strtol 32 [a, b] ≤ 99 ∧ decimal (strtol 32 [a, b]) = [a, b] := by
  obtain ⟨ha, hb⟩ := isdigit_of_le_strtol h
  have ha' := isdigit_iff.mp ha
  have hb' := isdigit_iff.mp hb
  rw [strtol_two_digits ha hb] at h ⊢
  have hhigh : 10 * (a.toNat - 48 : Int) + (b.toNat - 48) ≤ 99 := by omega
  have hfirst : UInt8.ofNat (48 + (10 * (a.toNat - 48 : Int) + (b.toNat - 48)).toNat / 10) = a := by
    apply UInt8.toNat_inj.mp
    rw [UInt8.toNat_ofNat']
    omega
  have hsecond : UInt8.ofNat (48 + (10 * (a.toNat - 48 : Int) + (b.toNat - 48)).toNat % 10) =
      b := by
    apply UInt8.toNat_inj.mp
    rw [UInt8.toNat_ofNat']
    omega
  exact ⟨hhigh, by rw [decimal_two h hhigh, hfirst, hsecond]⟩

end Psp2Shell.CLib
