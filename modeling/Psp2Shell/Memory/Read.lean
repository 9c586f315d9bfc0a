import Psp2Shell.Memory.Model

/-! When `cmd_memr` covers the range that it is given: its end and its pointer are
wrapped each on its own. -/

namespace Psp2Shell.Memory

open CLib

/-- The lines that a range takes. -/
def lineCount (size : BitVec 32) : Nat := (size.toNat + 15) / 16

/-- `cmd_memr` ends with as many lines as the range takes; each shows the words at its place in the
range, and begins in it. -/
def ReadsRange (memory : Nat → ByteMemory) (addressStr sizeStr : List Byte) : Prop :=
  ∃ fuel lines, cmdMemr fuel memory addressStr sizeStr = some lines ∧
    lines.length = lineCount (parseHex sizeStr) ∧
    (∀ k l, lines[k]? = some l →
      l = hexLine (memory k) (parseHex addressStr + BitVec.ofNat 32 (16 * k))) ∧
    ∀ l ∈ lines, (l.addr - parseHex addressStr).toNat < (parseHex sizeStr).toNat

variable {max addr address size : BitVec 32} {memory : Nat → ByteMemory}

theorem memrLoop_stop (h : ¬addr < max) (fuel : Nat) (memory : Nat → ByteMemory) :
    memrLoop max (fuel + 1) memory addr = some [] := if_neg h

/-- A pointer that gets to the end after `n` lines. -/
theorem memrLoop_ends (n : Nat) (hinside : ∀ k < n, addr + BitVec.ofNat 32 (16 * k) < max)
    (hend : ¬addr + BitVec.ofNat 32 (16 * n) < max) :
    memrLoop max (n + 1) memory addr =
      some ((List.range n).map fun k => hexLine (memory k) (addr + BitVec.ofNat 32 (16 * k))) := by
  induction n generalizing addr memory with
  | zero =>
    rw [Nat.mul_zero, BitVec.add_zero] at hend
    exact memrLoop_stop hend 0 memory
  | succ n ih =>
    have hshift : ∀ k, addr + BitVec.ofNat 32 (16 * (k + 1)) =
      addr + 16 + BitVec.ofNat 32 (16 * k) :=
      add_ofNat_succ addr 16
    have hfirst : addr < max := by simpa using hinside 0 n.succ_pos
    have hrest := @ih (addr + 16) (fun k => memory (k + 1))
      (fun k hk => by simpa [hshift] using hinside (k + 1) (Nat.succ_lt_succ hk))
      (by simpa [hshift] using hend)
    rw [memrLoop, if_pos hfirst, hrest, Option.map_some, List.range_succ_eq_map,
      List.map_cons, List.map_map]
    simp [Function.comp_def, hshift]

/-- A pointer that meets only addresses before the end goes on for ever. -/
theorem memrLoop_never (hall : ∀ a : BitVec 32, a.toNat % 16 = addr.toNat % 16 →
    a < max) (fuel : Nat) (memory : Nat → ByteMemory) : memrLoop max fuel memory addr = none := by
  induction fuel generalizing addr memory with
  | zero => rfl
  | succ fuel ih =>
    have hnext : (addr + 16).toNat % 16 = addr.toNat % 16 := by bv_omega
    rw [memrLoop, if_pos (hall addr rfl), ih fun a ha => hall a (ha.trans hnext)]
    rfl

/-- The addresses of the lines, and the one behind the last, are below 2^32; an
empty range has no lines. -/
def BelowTop (address size : BitVec 32) : Prop :=
  size = 0 ∨ address.toNat + 16 * lineCount size < 2 ^ 32

instance (address size : BitVec 32) : Decidable (BelowTop address size) :=
  inferInstanceAs (Decidable (_ ∨ _))

theorem memrLoop_belowTop (h : BelowTop address size) (memory : Nat → ByteMemory) :
    memrLoop (address + size) (lineCount size + 1) memory address =
      some ((List.range (lineCount size)).map fun k =>
        hexLine (memory k) (address + BitVec.ofNat 32 (16 * k))) := by
  rcases h with rfl | h
  · exact memrLoop_stop (by simp) 0 memory
  have hcount : size.toNat ≤ 16 * lineCount size ∧ 16 * lineCount size < size.toNat + 16 := by
    rw [lineCount]
    omega
  have hmax : (address + size).toNat = address.toNat + size.toNat := by
    rw [BitVec.toNat_add, Nat.mod_eq_of_lt (by omega)]
  refine memrLoop_ends (lineCount size) (fun k hk => ?_) ?_
  · rw [BitVec.lt_def, hmax, toNat_add_ofNat (by omega)]
    omega
  · rw [BitVec.lt_def, hmax, toNat_add_ofNat (by omega)]
    omega

theorem cmdMemr_belowTop {addressStr sizeStr : List Byte}
    (h : BelowTop (parseHex addressStr) (parseHex sizeStr)) (memory : Nat → ByteMemory) :
    cmdMemr (lineCount (parseHex sizeStr) + 1) memory addressStr sizeStr =
      some ((List.range (lineCount (parseHex sizeStr))).map fun k =>
        hexLine (memory k) (parseHex addressStr + BitVec.ofNat 32 (16 * k))) :=
  memrLoop_belowTop h memory

/-- When only the pointer would be wrapped, it is, and comes around again and again. -/
theorem memrLoop_endless (hend : address.toNat + size.toNat < 2 ^ 32)
    (htop : 2 ^ 32 ≤ address.toNat + 16 * lineCount size) (fuel : Nat) (memory : Nat → ByteMemory) :
    memrLoop (address + size) fuel memory address = none := by
  have hmax : (address + size).toNat = address.toNat + size.toNat := by
    rw [BitVec.toNat_add, Nat.mod_eq_of_lt hend]
  rw [lineCount] at htop
  refine memrLoop_never (fun a ha => ?_) fuel memory
  have ha' := a.isLt
  rw [BitVec.lt_def, hmax]
  omega

/-- When the end is wrapped, it lies before the start. -/
theorem memrLoop_empty (hend : 2 ^ 32 ≤ address.toNat + size.toNat) (fuel : Nat)
    (memory : Nat → ByteMemory) :
    memrLoop (address + size) (fuel + 1) memory address = some [] := by
  refine memrLoop_stop ?_ fuel memory
  have hsize := size.isLt
  rw [BitVec.lt_def, BitVec.toNat_add]
  omega

/-- `cmd_memr` covers its range exactly when the range is empty, or the lines end below the
top of the addresses. -/
theorem memr_covers_iff (memory : Nat → ByteMemory) (addressStr sizeStr : List Byte) :
    ReadsRange memory addressStr sizeStr ↔ BelowTop (parseHex addressStr) (parseHex sizeStr) := by
  constructor
  · rintro ⟨fuel, lines, hlines, hlength, -⟩
    by_contra hbelow
    obtain ⟨hsize, htop⟩ := not_or.mp hbelow
    by_cases hend : (parseHex addressStr).toNat + (parseHex sizeStr).toNat < 2 ^ 32
    · rw [cmdMemr, memrLoop_endless hend (Nat.not_lt.mp htop)] at hlines
      cases hlines
    · cases fuel with
      | zero => cases hlines
      | succ fuel =>
        rw [cmdMemr, memrLoop_empty (Nat.not_lt.mp hend)] at hlines
        cases hlines
        have hne : (parseHex sizeStr).toNat ≠ 0 := fun hzero => hsize (BitVec.eq_of_toNat_eq hzero)
        rw [List.length_nil, lineCount] at hlength
        omega
  · intro h
    refine ⟨_, _, cmdMemr_belowTop h memory, by rw [List.length_map, List.length_range],
      fun k l hl => ?_, fun l hl => ?_⟩
    · rw [List.getElem?_map, Option.map_eq_some_iff] at hl
      obtain ⟨j, hj, rfl⟩ := hl
      obtain ⟨hk, hj⟩ := List.getElem?_eq_some_iff.mp hj
      rw [List.getElem_range] at hj
      rw [hj]
    · obtain ⟨k, hk, rfl⟩ := List.mem_map.mp hl
      have hlt := List.mem_range.mp hk
      have hsize := (parseHex sizeStr).isLt
      rw [lineCount] at hlt
      rw [hexLine, BitVec.add_comm, BitVec.add_sub_cancel, BitVec.toNat_ofNat]
      omega

/-- A range of 15 bytes from 0xFFFFFFF0 on is read without end, and of the upper half of the
addresses nothing is. -/
theorem memr_misses_top :
    (¬ReadsRange (fun _ _ => 0) (ascii "FFFFFFF0") (ascii "F") ∧
      ∀ fuel, cmdMemr fuel (fun _ _ => 0) (ascii "FFFFFFF0") (ascii "F") = none) ∧
    ¬ReadsRange (fun _ _ => 0) (ascii "80000000") (ascii "80000000") ∧
      cmdMemr 1 (fun _ _ => 0) (ascii "80000000") (ascii "80000000") = some [] := by
  have haddress : parseHex (ascii "FFFFFFF0") = 0xFFFFFFF0 := by decide +kernel
  have hsize : parseHex (ascii "F") = 0xF := by decide +kernel
  have hhalf : parseHex (ascii "80000000") = 0x80000000 := by decide +kernel
  have hendless : ∀ fuel, cmdMemr fuel (fun _ _ => 0) (ascii "FFFFFFF0") (ascii "F") = none := by
    intro fuel
    rw [cmdMemr, haddress, hsize]
    exact memrLoop_endless (by decide) (by decide) fuel _
  have hempty : ∀ fuel,
      cmdMemr (fuel + 1) (fun _ _ => 0) (ascii "80000000") (ascii "80000000") = some [] := by
    intro fuel
    rw [cmdMemr, hhalf]
    exact memrLoop_empty (by decide) fuel _
  refine ⟨⟨?_, hendless⟩, ?_, hempty 0⟩
  · rintro ⟨fuel, lines, hlines, -⟩
    rw [hendless fuel] at hlines
    cases hlines
  · rintro ⟨fuel, lines, hlines, hlength, -⟩
    cases fuel with
    | zero => cases hlines
    | succ fuel =>
      rw [hempty fuel] at hlines
      cases hlines
      rw [hhalf] at hlength
      exact absurd hlength (by decide)

end Psp2Shell.Memory
