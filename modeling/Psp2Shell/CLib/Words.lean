import Psp2Shell.CLib.Text

/-! Words of 32 bits in a memory of bytes with 32-bit addresses, the low byte first. -/

namespace Psp2Shell.CLib

abbrev ByteMemory := BitVec 32 → Byte

/-- Byte `k` of a word, counted from the least significant. -/
def wordByte (v : BitVec 32) (k : Nat) : Byte := UInt8.ofNat (v.toNat / 256 ^ k)

def loadWord (m : ByteMemory) (a : BitVec 32) : BitVec 32 :=
  BitVec.ofNat 32 ((m a).toNat + 256 * (m (a + 1)).toNat + 256 ^ 2 * (m (a + 2)).toNat +
    256 ^ 3 * (m (a + 3)).toNat)

def storeWord (m : ByteMemory) (a v : BitVec 32) : ByteMemory := fun b =>
  if (b - a).toNat < 4 then wordByte v (b - a).toNat else m b

/-- The words `vs` from an address on. -/
def storeWords (m : ByteMemory) (a : BitVec 32) : List (BitVec 32) → ByteMemory
  | [] => m
  | v :: vs => storeWords (storeWord m a v) (a + 4) vs

/-- An address behind another, where none of them wraps. -/
theorem toNat_add_ofNat {a : BitVec 32} {n : Nat} (h : a.toNat + n < 2 ^ 32) :
    (a + BitVec.ofNat 32 n).toNat = a.toNat + n := by
  rw [BitVec.toNat_add, BitVec.toNat_ofNat, Nat.mod_eq_of_lt (by omega : n < 2 ^ 32),
    Nat.mod_eq_of_lt h]

/-- The next of some places that lie `c` apart. -/
theorem add_ofNat_succ (a : BitVec 32) (c k : Nat) :
    a + BitVec.ofNat 32 (c * (k + 1)) = a + BitVec.ofNat 32 c + BitVec.ofNat 32 (c * k) := by
  rw [BitVec.add_assoc, Nat.mul_succ, Nat.add_comm, BitVec.ofNat_add]

theorem storeWord_inside (m : ByteMemory) (a v : BitVec 32) {k : Nat} (hk : k < 4) :
    storeWord m a v (a + BitVec.ofNat 32 k) = wordByte v k := by
  have hdist : (a + BitVec.ofNat 32 k - a).toNat = k := by
    rw [BitVec.add_comm, BitVec.add_sub_cancel, BitVec.toNat_ofNat]
    omega
  rw [storeWord, hdist, if_pos hk]

theorem storeWord_outside {m : ByteMemory} {a v b : BitVec 32} (h : 4 ≤ (b - a).toNat) :
    storeWord m a v b = m b :=
  if_neg (Nat.not_lt.mpr h)

@[simp] theorem loadWord_storeWord (m : ByteMemory) (a v : BitVec 32) :
    loadWord (storeWord m a v) a = v := by
  have h0 : storeWord m a v a = wordByte v 0 := by
    simpa using storeWord_inside m a v (by decide : 0 < 4)
  have h1 : storeWord m a v (a + 1) = wordByte v 1 := storeWord_inside m a v (by decide)
  have h2 : storeWord m a v (a + 2) = wordByte v 2 := storeWord_inside m a v (by decide)
  have h3 : storeWord m a v (a + 3) = wordByte v 3 := storeWord_inside m a v (by decide)
  have hlt := v.isLt
  rw [loadWord, h0, h1, h2, h3]
  apply BitVec.eq_of_toNat_eq
  simp only [wordByte, UInt8.toNat_ofNat', BitVec.toNat_ofNat]
  omega

/-- A store to another word, in whichever order they lie, is not seen. -/
theorem loadWord_storeWord_of_apart {m : ByteMemory} {a v b : BitVec 32}
    (hbehind : 4 ≤ (b - a).toNat) (hbefore : 4 ≤ (a - b).toNat) :
    loadWord (storeWord m a v) b = loadWord m b := by
  have h0 : storeWord m a v b = m b := storeWord_outside hbehind
  have h1 : storeWord m a v (b + 1) = m (b + 1) := storeWord_outside (by bv_omega)
  have h2 : storeWord m a v (b + 2) = m (b + 2) := storeWord_outside (by bv_omega)
  have h3 : storeWord m a v (b + 3) = m (b + 3) := storeWord_outside (by bv_omega)
  rw [loadWord, loadWord, h0, h1, h2, h3]

/-- Stores that do not come around to a word leave it as it is. -/
theorem loadWord_storeWords_of_apart {m : ByteMemory} {a b : BitVec 32} {vs : List (BitVec 32)}
    (hbehind : 4 ≤ (a - b).toNat) (hend : (a - b).toNat + 4 * vs.length ≤ 2 ^ 32) :
    loadWord (storeWords m a vs) b = loadWord m b := by
  induction vs generalizing m a with
  | nil => rfl
  | cons v vs ih =>
    rw [List.length_cons] at hend
    have hnext : vs = [] ∨ (a + 4 - b).toNat = (a - b).toNat + 4 := by
      rcases vs with _ | ⟨v', vs⟩
      · exact Or.inl rfl
      · refine Or.inr ?_
        rw [List.length_cons] at hend
        bv_omega
    have hapart : loadWord (storeWord m a v) b = loadWord m b :=
      loadWord_storeWord_of_apart (by bv_omega) hbehind
    rcases hnext with rfl | hnext
    · exact hapart
    · rw [storeWords, ih (by omega) (by omega), hapart]

/-- The words are where they have been stored. -/
theorem loadWord_storeWords {m : ByteMemory} {a : BitVec 32} {vs : List (BitVec 32)}
    (hend : 4 * vs.length ≤ 2 ^ 32) {k : Nat} {v : BitVec 32} (hk : vs[k]? = some v) :
    loadWord (storeWords m a vs) (a + BitVec.ofNat 32 (4 * k)) = v := by
  induction vs generalizing m a k with
  | nil => cases hk
  | cons u vs ih =>
    rw [List.length_cons] at hend
    cases k with
    | zero =>
      obtain rfl : u = v := Option.some.inj hk
      have hdist : (a + 4 - (a + BitVec.ofNat 32 (4 * 0))).toNat = 4 := by bv_omega
      rw [storeWords, loadWord_storeWords_of_apart hdist.ge (by omega)]
      simp
    | succ k =>
      have hword := ih (m := storeWord m a u) (a := a + 4) (by omega) hk
      have haddr : a + BitVec.ofNat 32 (4 * (k + 1)) = a + 4 + BitVec.ofNat 32 (4 * k) :=
        add_ofNat_succ a 4 k
      rw [haddr, storeWords, hword]

end Psp2Shell.CLib
