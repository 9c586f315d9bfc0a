import Mathlib

/-! C strings over lists of bytes.  A pointer into a string is the suffix that starts at it, so the
difference of two pointers into one string is the difference of the suffixes' lengths. -/

namespace Psp2Shell.CLib

abbrev Byte := UInt8

/-- The bytes of a string literal. -/
def ascii (s : String) : List Byte := s.toList.map fun c => UInt8.ofNat c.toNat

/-- The string that starts a memory region: the bytes before the first NUL, and `none` when the
region holds no NUL, where a C string function reads past its end. -/
def cstring (mem : List Byte) : Option (List Byte) :=
  if 0 ∈ mem then some (mem.takeWhile (· ≠ 0)) else none

/-- The first suffix of `hay` that starts with `needle`. -/
def strstr (needle : List Byte) : List Byte → Option (List Byte)
  | [] => if needle.isPrefixOf [] then some [] else none
  | c :: hay => if needle.isPrefixOf (c :: hay) then some (c :: hay) else strstr needle hay

/-- The bytes that `strncpy(dst, src, n)` stores: `n` of them, padded with NULs. -/
def strncpy (src : List Byte) (n : Nat) : List Byte :=
  src.take n ++ List.replicate (n - src.length) 0

def isspace (b : Byte) : Bool := b = 32 || (9 ≤ b && b ≤ 13)

def isdigit (b : Byte) : Bool := 48 ≤ b && b ≤ 57

/-- The number that a run of decimal digits spells. -/
def digitsValue (digits : List Byte) : Nat :=
  digits.foldl (fun n d => 10 * n + (d.toNat - 48)) 0

/-- `strtol(s, NULL, 10)` for a `long` of `bits` bits, where an overflow saturates. -/
def strtol (bits : Nat) (s : List Byte) : Int :=
  let value : Int :=
    match s.dropWhile isspace with
    | 45 :: t => -(digitsValue (t.takeWhile isdigit) : Int)
    | 43 :: t => digitsValue (t.takeWhile isdigit)
    | t => digitsValue (t.takeWhile isdigit)
  max (-2 ^ (bits - 1)) (min (2 ^ (bits - 1) - 1) value)

/-- The value of a digit or letter in `strtoul`. -/
def digitValue (b : Byte) : Option Nat :=
  if isdigit b then some (b.toNat - 48)
  else if 97 ≤ b ∧ b ≤ 122 then some (b.toNat - 87)
  else if 65 ≤ b ∧ b ≤ 90 then some (b.toNat - 55)
  else none

/-- The number that the longest start of `s` made of digits below `base` spells. -/
def numeral (base : Nat) (s : List Byte) : Nat :=
  ((s.map digitValue).takeWhile fun d => d.any (· < base)).foldl
    (fun n d => base * n + d.getD 0) 0

/-- `0x` and a hexadecimal digit. -/
def hexPrefixed : List Byte → Bool
  | 48 :: x :: d :: _ => (x = 120 || x = 88) && (digitValue d).any (· < 16)
  | _ => false

/-- `strtoul(s, NULL, base)` for an `unsigned long` of `bits` bits: base 0 takes the base from the
prefix, an overflow saturates, and a minus sign negates modulo `2 ^ bits`. -/
def strtoul (bits base : Nat) (s : List Byte) : Nat :=
  let s := s.dropWhile isspace
  let digits := if s.head? = some 45 ∨ s.head? = some 43 then s.tail else s
  let base :=
    if base = 0 then
      if hexPrefixed digits then 16 else if digits.head? = some 48 then 8 else 10
    else base
  let value := numeral base (if base = 16 ∧ hexPrefixed digits then digits.drop 2 else digits)
  if 2 ^ bits ≤ value then 2 ^ bits - 1
  else if s.head? = some 45 then (2 ^ bits - value) % 2 ^ bits
  else value

/-! ### Strings in memory -/

theorem takeWhile_append_of_no_nul {s : List Byte} (h : 0 ∉ s) (rest : List Byte) :
    (s ++ rest).takeWhile (· ≠ 0) = s ++ rest.takeWhile (· ≠ 0) :=
  List.takeWhile_append_of_pos fun b hb => by simpa using fun h0 : b = 0 => h (h0 ▸ hb)

theorem takeWhile_of_no_nul {s : List Byte} (h : 0 ∉ s) : s.takeWhile (· ≠ 0) = s := by
  simpa using takeWhile_append_of_no_nul h []

theorem cstring_of_mem {mem : List Byte} (h : 0 ∈ mem) :
    cstring mem = some (mem.takeWhile (· ≠ 0)) := if_pos h

theorem cstring_eq_none {mem : List Byte} : cstring mem = none ↔ 0 ∉ mem := by
  simp [cstring]

theorem cstring_terminated {s : List Byte} (h : 0 ∉ s) (rest : List Byte) :
    cstring (s ++ 0 :: rest) = some s := by
  rw [cstring_of_mem (by simp), takeWhile_append_of_no_nul h]
  simp

theorem cstring_split {mem s : List Byte} (h : cstring mem = some s) :
    ∃ rest, mem = s ++ 0 :: rest := by
  unfold cstring at h
  split at h
  · rename_i h0
    cases h
    have hne : mem.dropWhile (· ≠ 0) ≠ [] := by
      intro hnil
      have := List.takeWhile_append_dropWhile (p := fun b : Byte => decide (b ≠ 0)) (l := mem)
      rw [hnil, List.append_nil] at this
      rw [← this] at h0
      simpa using List.mem_takeWhile_imp h0
    obtain ⟨b, rest, hb⟩ := List.exists_cons_of_ne_nil hne
    have hzero : b = 0 := by
      have := List.head_dropWhile_not (fun b : Byte => decide (b ≠ 0)) hne
      simp only [hb, List.head_cons] at this
      simpa using this
    refine ⟨rest, ?_⟩
    conv_lhs => rw [← List.takeWhile_append_dropWhile (p := fun b : Byte =>
      decide (b ≠ 0)) (l := mem)]
    rw [hb, hzero]
  · cases h

/-! ### Searching for one byte -/

theorem strstr_singleton_none {q : Byte} {s : List Byte} : strstr [q] s = none ↔ q ∉ s := by
  induction s with
  | nil => simp [strstr]
  | cons c s ih =>
    by_cases hc : q = c
    · simp [strstr, hc]
    · simp [strstr, hc, ih]

/-- The search stops at the first `q`. -/
theorem strstr_singleton {q : Byte} {pre : List Byte} (h : q ∉ pre) (rest : List Byte) :
    strstr [q] (pre ++ q :: rest) = some (q :: rest) := by
  induction pre with
  | nil => simp [strstr]
  | cons c pre ih =>
    have hc : q ≠ c := fun e => h (by simp [e])
    simp only [List.cons_append, strstr, List.isPrefixOf, beq_eq_false_iff_ne.mpr hc,
      Bool.false_and, Bool.false_eq_true, ite_false]
    exact ih fun hm => h (List.mem_cons_of_mem _ hm)

theorem strncpy_of_le {src : List Byte} {n : Nat} (h : n ≤ src.length) :
    strncpy src n = src.take n := by
  simp [strncpy, Nat.sub_eq_zero_of_le h]

theorem strncpy_append (pre rest : List Byte) :
    strncpy (pre ++ rest) pre.length = pre := by
  rw [strncpy_of_le (by simp), List.take_left']
  rfl

/-! ### Numbers of two bytes -/

theorem isdigit_iff {b : Byte} : isdigit b = true ↔ 48 ≤ b.toNat ∧ b.toNat ≤ 57 := by
  simp [isdigit, UInt8.le_iff_toNat_le]

theorem isspace_iff {b : Byte} :
    isspace b = true ↔ b.toNat = 32 ∨ 9 ≤ b.toNat ∧ b.toNat ≤ 13 := by
  simp [isspace, UInt8.le_iff_toNat_le, ← UInt8.toNat_inj]

theorem digitsValue_two (a b : Byte) :
    digitsValue [a, b] = 10 * (a.toNat - 48) + (b.toNat - 48) := by
  simp [digitsValue]

theorem digitsValue_short {l : List Byte} (h : l.length ≤ 1) :
    digitsValue (l.takeWhile isdigit) < 10 := by
  match l, h with
  | [], _ => simp [digitsValue]
  | [b], _ =>
    by_cases hb : isdigit b = true
    · have := isdigit_iff.mp hb
      simp [digitsValue, hb]; omega
    · simp [digitsValue, hb]

/-- Of two bytes, `strtol` makes the number they spell when both are digits. -/
theorem strtol_two_digits {a b : Byte} (ha : isdigit a = true) (hb : isdigit b = true) :
    strtol 32 [a, b] = 10 * (a.toNat - 48 : Int) + (b.toNat - 48) := by
  have h1 := isdigit_iff.mp ha
  have h2 := isdigit_iff.mp hb
  have hspace : isspace a = false := by
    rw [← Bool.not_eq_true, isspace_iff]; omega
  have hminus : a ≠ 45 := by rintro rfl; simp at h1
  have hplus : a ≠ 43 := by rintro rfl; simp at h1
  simp only [strtol,
    List.dropWhile_cons_of_neg (p := isspace) (a := a) (l := [b]) (by simp [hspace])]
  split
  · rename_i h; simp at h; exact absurd h.1 hminus
  · rename_i h; simp at h; exact absurd h.1 hplus
  · simp only [List.takeWhile_cons_of_pos ha, List.takeWhile_cons_of_pos hb, List.takeWhile_nil,
      digitsValue_two]
    omega

/-- Of two bytes that are not both digits, `strtol` makes a number below ten. -/
theorem strtol_two_lt {a b : Byte} (h : isdigit a = false ∨ isdigit b = false) :
    strtol 32 [a, b] < 10 := by
  have hnum : ∀ l : List Byte, l.length ≤ 1 → (digitsValue (l.takeWhile isdigit) : Int) < 10 :=
    fun l hl => by exact_mod_cast digitsValue_short hl
  have hab : (digitsValue ([a, b].takeWhile isdigit) : Int) < 10 := by
    rcases h with h | h
    · simp [h, digitsValue]
    · by_cases ha : isdigit a = true
      · have := digitsValue_short (l := [a]) (by simp)
        simp only [List.takeWhile_cons_of_pos ha, List.takeWhile_nil] at this
        simp only [List.takeWhile_cons_of_pos ha,
          List.takeWhile_cons_of_neg (show ¬isdigit b = true by simp [h])]
        exact_mod_cast this
      · simp [ha, digitsValue]
  have hvalue : ∀ z : Int, z < 10 → max (-2 ^ (32 - 1)) (min (2 ^ (32 - 1) - 1) z) < 10 := by
    intro z hz; omega
  simp only [strtol]
  apply hvalue
  by_cases hspace : isspace a = true
  · rw [List.dropWhile_cons_of_pos hspace]
    have hlen : ([b].dropWhile isspace).length ≤ 1 := (List.length_dropWhile_le _ _).trans (by simp)
    split
    · omega
    · rename_i t ht; rw [ht, List.length_cons] at hlen; exact hnum t (by omega)
    · exact hnum _ hlen
  · rw [List.dropWhile_cons_of_neg hspace]
    split
    · omega
    · rename_i t ht; cases ht; exact hnum _ (by simp)
    · exact hab

theorem isdigit_of_le_strtol {a b : Byte} (h : 10 ≤ strtol 32 [a, b]) :
    isdigit a = true ∧ isdigit b = true := by
  by_contra hno
  rw [not_and_or, Bool.not_eq_true, Bool.not_eq_true] at hno
  have := strtol_two_lt hno
  omega

end Psp2Shell.CLib
