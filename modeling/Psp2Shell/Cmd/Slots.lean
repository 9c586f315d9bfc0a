import Psp2Shell.Cmd.Decode

/-! The argument slots of a decoded command. -/

namespace Psp2Shell.Cmd

open CLib

theorem storeArgs_append (i : Nat) (as cs : List (List Byte)) (b : ArgsBuffer) :
    storeArgs i (as ++ cs) b = storeArgs (i + as.length) cs (storeArgs i as b) := by
  induction as generalizing i b with
  | nil => rfl
  | cons a as ih =>
    simp only [List.cons_append, storeArgs, ih, List.length_cons]
    rw [show i + 1 + as.length = i + (as.length + 1) by omega]

theorem storeArgs_replicate_nil (i k : Nat) (b : ArgsBuffer) :
    storeArgs i (List.replicate k []) b = b := by
  induction k generalizing i b with
  | zero => rfl
  | succ k ih => simp only [List.replicate_succ, storeArgs, Buffer.blit_nil, ih]

theorem ofArgs_append_nil (type : Int) (as : List (List Byte)) (k : Nat) :
    P2sCmd.ofArgs type (as ++ List.replicate k []) = P2sCmd.ofArgs type as := by
  simp only [P2sCmd.ofArgs, storeArgs_append, storeArgs_replicate_nil]

theorem storeArgs_get_below {i p : Nat} (as : List (List Byte)) (b : ArgsBuffer)
    (hp : p < i * p2sSizeString) : (storeArgs i as b).bytes[p]? = b.bytes[p]? := by
  induction as generalizing i b with
  | nil => rfl
  | cons a as ih =>
    rw [storeArgs, ih _ (by rw [Nat.succ_mul]; omega), Buffer.blit_get_outside _ (Or.inl hp)]

/-- The byte at offset `r` of slot `i + k`, when no argument is longer than its slot. -/
theorem storeArgs_get {as : List (List Byte)} (has : ∀ a ∈ as, a.length ≤ p2sSizeString)
    {i k r : Nat} (b : ArgsBuffer) (hi : i + as.length ≤ p2sMaxArgs) (hk : k < as.length)
    (hr : r < p2sSizeString) :
    (storeArgs i as b).bytes[(i + k) * p2sSizeString + r]? =
      if r < as[k].length then as[k][r]? else b.bytes[(i + k) * p2sSizeString + r]? := by
  induction as generalizing i k b with
  | nil => simp at hk
  | cons a as ih =>
    have ha : a.length ≤ p2sSizeString := has a (by simp)
    have hlen : i + 1 + as.length ≤ p2sMaxArgs := by simp at hi; omega
    cases k with
    | zero =>
      simp only [List.getElem_cons_zero, Nat.add_zero]
      rw [storeArgs, storeArgs_get_below as _ (by rw [Nat.succ_mul]; omega)]
      split
      · rename_i hlt
        rw [Buffer.blit_get_inside _ (by simp only [p2sMaxArgs, p2sSizeString] at *; omega)
          (by omega) (by omega)]
        congr 1
        omega
      · rw [Buffer.blit_get_outside _ (Or.inr (by omega))]
    | succ k =>
      have hrest := ih (fun c hc => has c (List.mem_cons_of_mem _ hc)) (i := i + 1) (k := k)
        (b.blit (i * p2sSizeString) a) hlen (by simpa using hk)
      rw [show i + (k + 1) = i + 1 + k by omega, storeArgs, hrest, List.getElem_cons_succ]
      split
      · rfl
      · rw [Buffer.blit_get_outside]
        apply Or.inr
        have : (i + 1) * p2sSizeString ≤ (i + 1 + k) * p2sSizeString :=
          Nat.mul_le_mul_right _ (by omega)
        rw [Nat.succ_mul] at this
        omega

theorem storeArgs_get_above {as : List (List Byte)} (has : ∀ a ∈ as, a.length ≤ p2sSizeString)
    {i p : Nat} (b : ArgsBuffer) (hp : (i + as.length) * p2sSizeString ≤ p) :
    (storeArgs i as b).bytes[p]? = b.bytes[p]? := by
  induction as generalizing i b with
  | nil => rfl
  | cons a as ih =>
    have ha : a.length ≤ p2sSizeString := has a (by simp)
    have hstep : (i + 1) * p2sSizeString ≤ (i + (a :: as).length) * p2sSizeString :=
      Nat.mul_le_mul_right _ (by simp)
    rw [storeArgs, ih (fun c hc => has c (List.mem_cons_of_mem _ hc)) _
      (by simpa [Nat.add_assoc, Nat.add_comm 1] using hp), Buffer.blit_get_outside]
    rw [Nat.succ_mul] at hstep
    exact Or.inr (by omega)

/-- An argument that fits its slot is followed there by NULs only. -/
theorem slot_ofArgs {as : List (List Byte)} (has : ∀ a ∈ as, a.length ≤ p2sSizeString)
    (hlen : as.length ≤ p2sMaxArgs) (type : Int) {k : Nat} (hk : k < p2sMaxArgs) :
    (P2sCmd.ofArgs type as).slot k =
      as.getD k [] ++ List.replicate (p2sSizeString - (as.getD k []).length) 0 := by
  have hroom : k * p2sSizeString + p2sSizeString ≤ p2sMaxArgs * p2sSizeString := by
    rw [← Nat.succ_mul]; exact Nat.mul_le_mul_right _ hk
  have hle : (as.getD k []).length ≤ p2sSizeString := by
    by_cases h : k < as.length
    · rw [List.getD_eq_getElem _ _ h]; exact has _ (List.getElem_mem h)
    · rw [List.getD_eq_default _ _ (by omega)]; simp
  apply List.ext_getElem?
  intro r
  by_cases hr : r < p2sSizeString
  · rw [P2sCmd.slot, Buffer.window_get _ hr, P2sCmd.ofArgs]
    have hzero : P2sCmd.cleared.args.bytes[k * p2sSizeString + r]? = some 0 :=
      Buffer.zero_get (by omega)
    by_cases h : k < as.length
    · have hget := storeArgs_get has (i := 0) (k := k) (r := r) P2sCmd.cleared.args (by omega) h hr
      rw [Nat.zero_add] at hget
      rw [hget, List.getD_eq_getElem _ _ h, hzero]
      split
      · rename_i hlt; rw [List.getElem?_append_left hlt]
      · rw [List.getElem?_append_right (by omega), List.getElem?_replicate, if_pos]
        omega
    · rw [storeArgs_get_above has _ (by
        rw [Nat.zero_add]
        exact (Nat.mul_le_mul_right _ (by omega : as.length ≤ k)).trans (by omega)), hzero,
        List.getD_eq_default _ _ (by omega)]
      simp [hr]
  · rw [List.getElem?_eq_none, List.getElem?_eq_none]
    · rw [List.length_append, List.length_replicate]; omega
    · rw [P2sCmd.slot, Buffer.window_length _ hroom]; omega

/-- A slot holds a NUL exactly when its argument leaves room for one. -/
theorem slot_terminated {as : List (List Byte)} (has : ∀ a ∈ as, a.length ≤ p2sSizeString)
    (hlen : as.length ≤ p2sMaxArgs) (hnul : ∀ a ∈ as, 0 ∉ a) (type : Int) {k : Nat}
    (hk : k < p2sMaxArgs) :
    0 ∈ (P2sCmd.ofArgs type as).slot k ↔ (as.getD k []).length < p2sSizeString := by
  rw [slot_ofArgs has hlen type hk, List.mem_append, List.mem_replicate]
  have h0 : 0 ∉ as.getD k [] := by
    by_cases h : k < as.length
    · rw [List.getD_eq_getElem _ _ h]; exact hnul _ (List.getElem_mem h)
    · rw [List.getD_eq_default _ _ (by omega)]; simp
  simp only [h0, false_or, and_true]
  omega

end Psp2Shell.Cmd
