import Psp2Shell.CLib.Buffer
import Psp2Shell.CLib.Format

/-! The string functions on objects of a fixed size.  Each is `none` where C leaves it undefined: it
would store past the end of the object, or read on past the end in search of a NUL. -/

namespace Psp2Shell.CLib

/-- `strrchr(s, c)`, as the index of the last `c`. -/
def strrchr (s : List Byte) (c : Byte) : Option Nat :=
  if c ∈ s then some (s.length - 1 - s.reverse.idxOf c) else none

theorem strrchr_eq_none {s : List Byte} {c : Byte} : strrchr s c = none ↔ c ∉ s := by
  unfold strrchr
  split <;> simp [*]

theorem strrchr_lt {s : List Byte} {c : Byte} {i : Nat} (h : strrchr s c = some i) :
    i < s.length := by
  unfold strrchr at h
  split at h
  · have := List.length_pos_of_mem ‹c ∈ s›
    simp only [Option.some.injEq] at h
    omega
  · cases h

theorem strrchr_append_cons {c : Byte} {t : List Byte} (h : c ∉ t) (s : List Byte) :
    strrchr (s ++ c :: t) c = some s.length := by
  have hmem : c ∈ s ++ c :: t := List.mem_append_right s List.mem_cons_self
  have hreverse : (s ++ c :: t).reverse = t.reverse ++ c :: s.reverse := by simp
  have hindex : (t.reverse ++ c :: s.reverse).idxOf c = t.length := by
    rw [List.idxOf_append_of_notMem (by simpa using h), List.idxOf_cons_self, List.length_reverse,
      Nat.add_zero]
  rw [strrchr, if_pos hmem, hreverse, hindex, List.length_append, List.length_cons]
  congr 1
  omega

namespace Buffer

variable {n : Nat}

/-- The string that the object holds. -/
def str (b : Buffer n) : Option (List Byte) := cstring b.bytes

/-- `strcpy(object + off, src)`. -/
def strcpy (b : Buffer n) (off : Nat) (src : List Byte) : Option (Buffer n) :=
  if off + src.length < n then some (b.blit off (src ++ [0])) else none

/-- `strcat(object, src)`, and `sprintf(object + strlen(object), ...)` when it prints `src`. -/
def strcat (b : Buffer n) (src : List Byte) : Option (Buffer n) :=
  b.str.bind fun s => b.strcpy s.length src

/-- `strncpy(object, src, k)`. -/
def strncpy (b : Buffer n) (src : List Byte) (k : Nat) : Option (Buffer n) :=
  if k ≤ n then some (b.blit 0 (CLib.strncpy src k)) else none

/-- `snprintf(object, k, ...)` when it prints `text`. -/
def snprintf (b : Buffer n) (k : Nat) (text : List Byte) : Option (Buffer n) :=
  if k = 0 then some b else b.strcpy 0 (CLib.snprintf k text)

/-- `object[i] = c`. -/
def setByte (b : Buffer n) (i : Nat) (c : Byte) : Option (Buffer n) :=
  if i < n then some (b.blit i [c]) else none

/-! ### Strings after a store -/

theorem str_eq_some {b : Buffer n} {s : List Byte} (h : b.str = some s) :
    0 ∉ s ∧ s.length < n ∧ ∃ rest, b.bytes = s ++ 0 :: rest := by
  obtain ⟨rest, hrest⟩ := cstring_split h
  refine ⟨?_, ?_, rest, hrest⟩
  · rw [str, cstring] at h
    split at h
    · simp only [Option.some.injEq] at h
      rw [← h]
      intro h0
      simpa using List.mem_takeWhile_imp h0
    · cases h
  · have hsize := b.size_eq
    rw [hrest, List.length_append, List.length_cons] at hsize
    omega

theorem str_of_bytes {b : Buffer n} {s : List Byte} (rest : List Byte) (h0 : 0 ∉ s)
    (h : b.bytes = s ++ 0 :: rest) : b.str = some s := by
  rw [str, h, cstring_terminated h0]

theorem strcpy_eq_some {b c : Buffer n} {off : Nat} {src : List Byte} :
    b.strcpy off src = some c ↔ off + src.length < n ∧ c = b.blit off (src ++ [0]) := by
  unfold strcpy
  split <;> simp [*, eq_comm]

theorem blit_bytes {b : Buffer n} {off : Nat} {src : List Byte} (h : off + src.length ≤ n) :
    (b.blit off src).bytes = b.bytes.take off ++ src ++ b.bytes.drop (off + src.length) := by
  simp only [blit]
  rw [List.take_of_length_le (by omega : src.length ≤ n - off)]

/-- What a copy behind the string `s` leaves is `s` and the copied string. -/
theorem str_strcpy {b c : Buffer n} {s src : List Byte} (hs : b.bytes.take s.length = s)
    (h0 : 0 ∉ s) (hsrc : 0 ∉ src) (h : b.strcpy s.length src = some c) :
    c.str = some (s ++ src) := by
  obtain ⟨hlen, rfl⟩ := strcpy_eq_some.mp h
  apply str_of_bytes (b.bytes.drop (s.length + (src ++ [0]).length)) (by simp [h0, hsrc])
  rw [blit_bytes (by simp; omega), hs]
  simp

theorem str_strcpy_zero {b c : Buffer n} {src : List Byte} (hsrc : 0 ∉ src)
    (h : b.strcpy 0 src = some c) : c.str = some src :=
  str_strcpy (s := []) rfl (by simp) hsrc h

theorem strcpy_zero_isSome {b : Buffer n} (src : List Byte) :
    (b.strcpy 0 src).isSome ↔ src.length < n := by
  unfold strcpy
  split <;> simp_all

theorem take_of_str {b : Buffer n} {s : List Byte} (h : b.str = some s) :
    b.bytes.take s.length = s := by
  obtain ⟨-, -, rest, hrest⟩ := str_eq_some h
  rw [hrest, List.take_left']
  rfl

theorem strcat_of_str {b : Buffer n} {s : List Byte} (h : b.str = some s) (src : List Byte) :
    b.strcat src = b.strcpy s.length src := by
  rw [strcat, h]
  rfl

theorem strcat_isSome {b : Buffer n} {s : List Byte} (h : b.str = some s) (src : List Byte) :
    (b.strcat src).isSome ↔ s.length + src.length < n := by
  rw [strcat_of_str h]
  unfold strcpy
  split <;> simp_all

theorem str_strcat {b c : Buffer n} {s src : List Byte} (hs : b.str = some s) (hsrc : 0 ∉ src)
    (h : b.strcat src = some c) : c.str = some (s ++ src) := by
  rw [strcat_of_str hs] at h
  exact str_strcpy (take_of_str hs) (str_eq_some hs).1 hsrc h

theorem strncpy_full (b : Buffer n) (src : List Byte) :
    b.strncpy src n = some (b.blit 0 (CLib.strncpy src n)) := if_pos le_rfl

/-- A string that is shorter than the object is copied with NULs behind it. -/
theorem str_strncpy_of_lt {b : Buffer n} {src : List Byte} (hsrc : 0 ∉ src) (h : src.length < n) :
    (b.blit 0 (CLib.strncpy src n)).str = some src := by
  obtain ⟨k, hk⟩ : ∃ k, n - src.length = k + 1 := ⟨n - src.length - 1, by omega⟩
  apply str_of_bytes (List.replicate k 0) hsrc
  rw [blit_bytes (by simp [CLib.strncpy]; omega)]
  simp [CLib.strncpy, List.take_of_length_le h.le, hk, List.replicate_succ, b.size_eq]
  omega

/-- A string that fills the object leaves no room for a NUL. -/
theorem str_strncpy_of_le {b : Buffer n} {src : List Byte} (hsrc : 0 ∉ src) (h : n ≤ src.length) :
    (b.blit 0 (CLib.strncpy src n)).str = none := by
  rw [str, cstring_eq_none, blit_bytes (by simp [CLib.strncpy]; omega), strncpy_of_le h]
  have hdrop : b.bytes.drop (0 + (src.take n).length) = [] := by
    apply List.drop_of_length_le
    rw [b.size_eq, List.length_take]
    omega
  rw [hdrop]
  simpa using fun hmem => hsrc (List.mem_of_mem_take hmem)

theorem str_strncpy {b : Buffer n} {src : List Byte} (hsrc : 0 ∉ src) :
    (b.blit 0 (CLib.strncpy src n)).str = if src.length < n then some src else none := by
  split
  · exact str_strncpy_of_lt hsrc ‹_›
  · exact str_strncpy_of_le hsrc (by omega)

/-- What `snprintf` with the size of the object leaves. -/
theorem snprintf_full {b : Buffer n} {text : List Byte} (hn : 0 < n) (htext : 0 ∉ text) :
    ∃ c, b.snprintf n text = some c ∧ c.str = some (CLib.snprintf n text) := by
  have hlen : (CLib.snprintf n text).length < n := by
    rw [CLib.snprintf, List.length_take]
    omega
  obtain ⟨c, hc⟩ := Option.isSome_iff_exists.mp ((strcpy_zero_isSome (b := b) _).mpr hlen)
  refine ⟨c, by rw [snprintf, if_neg hn.ne', hc], str_strcpy_zero (fun h0 => ?_) hc⟩
  exact htext (List.mem_of_mem_take h0)

/-- A NUL inside the string cuts it off there. -/
theorem str_setByte {b : Buffer n} {s : List Byte} (h : b.str = some s) {i : Nat}
    (hi : i ≤ s.length) : ∃ c, b.setByte i 0 = some c ∧ c.str = some (s.take i) := by
  obtain ⟨h0, hlen, rest, hrest⟩ := str_eq_some h
  refine ⟨b.blit i [0], if_pos (by omega), ?_⟩
  apply str_of_bytes (b.bytes.drop (i + 1)) fun hmem => h0 (List.mem_of_mem_take hmem)
  rw [blit_bytes (by simp; omega), hrest, List.take_append_of_le_length hi]
  simp

end Buffer

end Psp2Shell.CLib
