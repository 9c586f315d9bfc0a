import Psp2Shell.CLib.Text

/-! Memory objects of a fixed size.  A store past the end of an object leaves the object's own bytes
as they are: what it hits lies outside. -/

namespace Psp2Shell.CLib

/-- An object of `n` bytes. -/
structure Buffer (n : Nat) where
  bytes : List Byte
  size_eq : bytes.length = n
deriving DecidableEq

namespace Buffer

variable {n : Nat}

/-- `memset(object, 0, n)`. -/
def zero (n : Nat) : Buffer n := ⟨List.replicate n 0, List.length_replicate⟩

/-- Stores `src` from offset `off` on. -/
def blit (b : Buffer n) (off : Nat) (src : List Byte) : Buffer n where
  bytes := b.bytes.take off ++ src.take (n - off) ++ b.bytes.drop (off + src.length)
  size_eq := by simp [b.size_eq]; omega

/-- Stores `src` at an offset that may lie before the object. -/
def store (b : Buffer n) (off : Int) (src : List Byte) : Buffer n :=
  if 0 ≤ off then b.blit off.toNat src else b.blit 0 (src.drop (-off).toNat)

/-- The `len` bytes from offset `off` on. -/
def window (b : Buffer n) (off len : Nat) : List Byte := (b.bytes.drop off).take len

@[ext] theorem ext {b c : Buffer n} (h : ∀ i < n, b.bytes[i]? = c.bytes[i]?) : b = c := by
  obtain ⟨bs, hb⟩ := b
  obtain ⟨cs, hc⟩ := c
  congr
  apply List.ext_getElem?
  intro i
  by_cases hi : i < n
  · exact h i hi
  · rw [List.getElem?_eq_none (by omega), List.getElem?_eq_none (by omega)]

theorem zero_get {i : Nat} (hi : i < n) : (zero n).bytes[i]? = some 0 := by
  simp [zero, hi]

theorem blit_get_inside (b : Buffer n) {off i : Nat} {src : List Byte} (hi : i < n)
    (hlow : off ≤ i) (hhigh : i < off + src.length) :
    (b.blit off src).bytes[i]? = src[i - off]? := by
  have hoff : (b.bytes.take off).length = off := by simp [b.size_eq]; omega
  have htake : i - off < (src.take (n - off)).length := by simp; omega
  simp only [blit, List.append_assoc]
  rw [List.getElem?_append_right (by omega), hoff, List.getElem?_append_left htake,
    List.getElem?_take_of_lt (by omega)]

theorem blit_get_outside (b : Buffer n) {off i : Nat} {src : List Byte}
    (h : i < off ∨ off + src.length ≤ i) : (b.blit off src).bytes[i]? = b.bytes[i]? := by
  by_cases hi : i < n
  · rcases h with h | h
    · have hoff : i < (b.bytes.take off).length := by simp [b.size_eq]; omega
      simp only [blit, List.append_assoc]
      rw [List.getElem?_append_left hoff, List.getElem?_take_of_lt h]
    · have hlen : (b.bytes.take off ++ src.take (n - off)).length = off + src.length := by
        simp [b.size_eq]; omega
      simp only [blit]
      rw [List.getElem?_append_right (by omega), hlen, List.getElem?_drop]
      congr 1
      omega
  · rw [List.getElem?_eq_none (by rw [(b.blit off src).size_eq]; omega),
      List.getElem?_eq_none (by rw [b.size_eq]; omega)]

@[simp] theorem blit_nil (b : Buffer n) (off : Nat) : b.blit off [] = b :=
  Buffer.ext fun _ _ => blit_get_outside b (by simp; omega)

theorem window_get (b : Buffer n) {off len i : Nat} (hi : i < len) :
    (b.window off len)[i]? = b.bytes[off + i]? := by
  simp [window, List.getElem?_take_of_lt hi]

theorem window_length (b : Buffer n) {off len : Nat} (h : off + len ≤ n) :
    (b.window off len).length = len := by
  simp [window, b.size_eq]; omega

/-- A store that starts an object: the string at the object's start is that of the stored bytes
and the object's rest. -/
theorem zero_blit (src : List Byte) (h : src.length ≤ n) :
    ((zero n).blit 0 src).bytes = src ++ List.replicate (n - src.length) 0 := by
  simp [zero, blit, List.take_of_length_le h]

theorem store_ofNat (b : Buffer n) (off : Nat) (src : List Byte) :
    b.store off src = b.blit off src := by
  simp [store]

theorem blit_blit (b : Buffer n) (off : Nat) (s t : List Byte) :
    (b.blit off s).blit (off + s.length) t = b.blit off (s ++ t) := by
  apply ext
  intro i hi
  by_cases hlow : i < off
  · rw [blit_get_outside _ (Or.inl (by omega)), blit_get_outside _ (Or.inl hlow),
      blit_get_outside _ (Or.inl hlow)]
  · by_cases hmid : i < off + s.length
    · rw [blit_get_outside _ (Or.inl hmid), blit_get_inside _ hi (by omega) hmid,
        blit_get_inside _ hi (by omega) (by rw [List.length_append]; omega),
        List.getElem?_append_left (by omega)]
    · by_cases hhigh : i < off + s.length + t.length
      · rw [blit_get_inside _ hi (by omega) hhigh,
          blit_get_inside _ hi (by omega) (by rw [List.length_append]; omega),
          List.getElem?_append_right (by omega)]
        congr 1
        omega
      · rw [blit_get_outside _ (Or.inr (by omega)),
          blit_get_outside _ (Or.inr (by omega)),
          blit_get_outside _ (Or.inr (by rw [List.length_append]; omega))]

theorem take_blit_zero (b : Buffer n) {s : List Byte} (h : s.length ≤ n) :
    (b.blit 0 s).bytes.take s.length = s := by
  simp [blit, List.take_of_length_le h]

/-- A zeroed object after a store at its start holds a NUL when the store leaves room for one or
brings one. -/
theorem nul_mem_zero_blit {src : List Byte} (h : src.length ≤ n) :
    0 ∈ ((zero n).blit 0 src).bytes ↔ src.length < n ∨ 0 ∈ src := by
  rw [zero_blit src h, List.mem_append, List.mem_replicate]
  constructor
  · rintro (h0 | ⟨hne, -⟩)
    · exact Or.inr h0
    · exact Or.inl (by omega)
  · rintro (hlt | h0)
    · exact Or.inr ⟨by omega, rfl⟩
    · exact Or.inl h0

theorem cstring_zero_blit {src : List Byte} (h : src.length ≤ n)
    (hroom : src.length < n ∨ 0 ∈ src) :
    cstring ((zero n).blit 0 src).bytes = some (src.takeWhile (· ≠ 0)) := by
  rw [cstring_of_mem ((nul_mem_zero_blit h).mpr hroom), zero_blit src h]
  congr 1
  by_cases h0 : 0 ∈ src
  · rw [List.takeWhile_append, if_neg]
    intro hlen
    have hall := List.takeWhile_eq_self_iff.mp
      ((List.takeWhile_prefix (fun b : Byte => decide (b ≠ 0))).eq_of_length hlen)
    simpa using hall 0 h0
  · rw [takeWhile_append_of_no_nul h0, List.takeWhile_replicate, takeWhile_of_no_nul h0]
    simp

theorem cstring_zero_blit_plain {src : List Byte} (h0 : 0 ∉ src) (h : src.length < n) :
    cstring ((zero n).blit 0 src).bytes = some src := by
  rw [cstring_zero_blit h.le (Or.inl h), takeWhile_of_no_nul h0]

end Buffer

end Psp2Shell.CLib
