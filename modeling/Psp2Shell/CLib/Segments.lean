import Mathlib

/-! A stream of messages that is read in pieces, where a decoder takes each piece for one message or
for none.  When every message starts with a byte that counts, and a piece that decodes to a message
holds as many bytes that count as the message does, the pieces decode to the messages exactly when
they can be grouped by message. -/

namespace Psp2Shell.CLib

variable {α β γ : Type}

/-- The pieces `chunks` fall into one group for each message: the pieces of a group make up the
message, the first decodes to it and the others to nothing. -/
inductive Grouped (enc : γ → List α) (val : γ → β) (dec : List α → Option β) :
    List γ → List (List α) → Prop
  | nil : Grouped enc val dec [] []
  | cons {m : γ} {ms : List γ} {first : List α} {more rest : List (List α)} :
      first ++ more.flatten = enc m → dec first = some (val m) → (∀ c ∈ more, dec c = none) →
      Grouped enc val dec ms rest → Grouped enc val dec (m :: ms) (first :: (more ++ rest))

variable {enc : γ → List α} {val : γ → β} {dec : List α → Option β}

theorem filterMap_eq_nil_of_none {l : List (List α)} (h : ∀ c ∈ l, dec c = none) :
    l.filterMap dec = [] :=
  List.filterMap_eq_nil_iff.mpr h

theorem Grouped.decoded {ms : List γ} {chunks : List (List α)}
    (h : Grouped enc val dec ms chunks) : chunks.filterMap dec = ms.map val := by
  induction h with
  | nil => rfl
  | cons hbytes hfirst hmore _ ih =>
    rw [List.filterMap_cons_some hfirst, List.filterMap_append, filterMap_eq_nil_of_none hmore, ih]
    rfl

/-- The first message of a stream: pieces that decode to nothing, and then one that decodes to
it. -/
theorem exists_first_decoded {ms : List γ} {m : γ} {chunks : List (List α)}
    (h : chunks.filterMap dec = (m :: ms).map val) :
    ∃ before first after, chunks = before ++ first :: after ∧ (∀ c ∈ before, dec c = none) ∧
      dec first = some (val m) ∧ after.filterMap dec = ms.map val := by
  rw [List.map_cons, List.filterMap_eq_cons_iff] at h
  obtain ⟨before, first, after, rfl, hbefore, hfirst, hafter⟩ := h
  exact ⟨before, first, after, rfl, hbefore, hfirst, hafter⟩

/-- How a decoder and a set of bytes that count fit a list of messages. -/
structure Weighs (w : α → Bool) (enc : γ → List α) (val : γ → β) (dec : List α → Option β)
    (ms : List γ) : Prop where
  starts : ∀ m ∈ ms, ∃ a rest, enc m = a :: rest ∧ w a = true
  decodes : ∀ c x, dec c = some x → ∃ a rest, c = a :: rest ∧ w a = true
  heavy : ∀ m ∈ ms, ∀ c, dec c = some (val m) → (enc m).countP w ≤ c.countP w

namespace Weighs

variable {w : α → Bool} {m : γ} {ms : List γ}

theorem tail (h : Weighs w enc val dec (m :: ms)) : Weighs w enc val dec ms :=
  ⟨fun m' hm => h.starts m' (List.mem_cons_of_mem _ hm), h.decodes,
    fun m' hm => h.heavy m' (List.mem_cons_of_mem _ hm)⟩

theorem countP_le (h : Weighs w enc val dec ms) {chunks : List (List α)}
    (hdec : chunks.filterMap dec = ms.map val) :
    (ms.map enc).flatten.countP w ≤ chunks.flatten.countP w := by
  induction chunks generalizing ms with
  | nil =>
    obtain rfl : ms = [] := by simpa using hdec.symm
    simp
  | cons c chunks ih =>
    rw [List.flatten_cons, List.countP_append]
    cases hc : dec c with
    | none =>
      rw [List.filterMap_cons_none hc] at hdec
      exact (ih h hdec).trans (Nat.le_add_left _ _)
    | some x =>
      rw [List.filterMap_cons_some hc] at hdec
      cases ms with
      | nil => simp at hdec
      | cons m ms =>
        obtain ⟨rfl, hrest⟩ := List.cons_eq_cons.mp hdec
        rw [List.map_cons, List.flatten_cons, List.countP_append]
        exact Nat.add_le_add (h.heavy m (by simp) c hc) (ih h.tail hrest)

theorem eq_nil_of_prefix (h : Weighs w enc val dec ms) {x rest : List α}
    (hx : (ms.map enc).flatten = x ++ rest) (hw : x.countP w = 0) : x = [] := by
  cases x with
  | nil => rfl
  | cons a x =>
    cases ms with
    | nil => simp at hx
    | cons m ms =>
      obtain ⟨b, tail, hb, hwb⟩ := h.starts m (by simp)
      rw [List.map_cons, List.flatten_cons, hb, List.cons_append, List.cons_append] at hx
      obtain ⟨rfl, -⟩ := List.cons_eq_cons.mp hx
      simp [hwb] at hw

/-- The pieces after the first one of a message: those that end it decode to nothing, and the others
decode to the messages that follow. -/
theorem split_rest (h : Weighs w enc val dec ms) {after : List (List α)} {y : List α}
    (hafter : after.flatten = y ++ (ms.map enc).flatten) (hy : y.countP w = 0)
    (hdec : after.filterMap dec = ms.map val) : ∃ more rest, after = more ++ rest ∧
      more.flatten = y ∧ (∀ c ∈ more, dec c = none) ∧ rest.filterMap dec = ms.map val := by
  cases ms with
  | nil =>
    exact ⟨after, [], by simp, by simpa using hafter,
      List.filterMap_eq_nil_iff.mp (by simpa using hdec), by simp⟩
  | cons m ms =>
    obtain ⟨more, next, last, rfl, hmore, hnext, hlast⟩ := exists_first_decoded hdec
    have hnextdec : (next :: last).filterMap dec = (m :: ms).map val := by
      rw [List.filterMap_cons_some hnext, hlast, List.map_cons]
    have hheavy := h.countP_le hnextdec
    rw [List.flatten_append] at hafter
    refine ⟨more, next :: last, rfl, ?_, hmore, hnextdec⟩
    rcases List.append_eq_append_iff.mp hafter with ⟨z, hz, hznext⟩ | ⟨z, hz, hznext⟩
    · -- the next message would start inside this one, at a byte that does not count
      have hz0 : z = [] := by
        obtain ⟨a, t, ht, hwa⟩ := h.decodes next _ hnext
        cases z with
        | nil => rfl
        | cons b z =>
          rw [List.flatten_cons, ht, List.cons_append, List.cons_append] at hznext
          obtain ⟨rfl, -⟩ := List.cons_eq_cons.mp hznext
          rw [hz] at hy
          simp [hwa] at hy
      rw [hz, hz0, List.append_nil]
    · have hz0 : z = [] := by
        apply h.eq_nil_of_prefix hznext
        have hcount := congrArg (List.countP w) hznext
        rw [List.countP_append] at hcount
        omega
      rw [hz, hz0, List.append_nil]

/-- The pieces of a stream that decode to its messages are grouped. -/
theorem grouped (h : Weighs w enc val dec ms) {chunks : List (List α)}
    (hne : ∀ c ∈ chunks, c ≠ []) (hflat : chunks.flatten = (ms.map enc).flatten)
    (hdec : chunks.filterMap dec = ms.map val) : Grouped enc val dec ms chunks := by
  induction ms generalizing chunks with
  | nil =>
    cases chunks with
    | nil => exact .nil
    | cons c chunks =>
      exact absurd (by simpa using (List.append_eq_nil_iff.mp hflat).1) (hne c (by simp))
  | cons m ms ih =>
    obtain ⟨before, first, after, rfl, hbefore, hfirst, hafter⟩ := exists_first_decoded hdec
    have hheavy := h.heavy m (by simp) first hfirst
    have hafterw := h.tail.countP_le hafter
    have htotal := congrArg (List.countP w) hflat
    simp only [List.flatten_append, List.flatten_cons, List.map_cons, List.countP_append] at htotal
    have hnil : before = [] := by
      have hflat0 : before.flatten = [] :=
        h.eq_nil_of_prefix (show _ = before.flatten ++ (first ++ after.flatten) by
          rw [← hflat]; simp) (by omega)
      cases before with
      | nil => rfl
      | cons c before =>
        exact absurd (List.append_eq_nil_iff.mp hflat0).1 (hne c (by simp))
    subst hnil
    rw [List.nil_append] at hne hflat
    simp only [List.flatten_nil, List.countP_nil, Nat.zero_add] at htotal
    rw [List.flatten_cons, List.map_cons, List.flatten_cons] at hflat
    obtain ⟨y, hy, hyafter⟩ : ∃ y, enc m = first ++ y ∧
        after.flatten = y ++ (ms.map enc).flatten := by
      rcases List.append_eq_append_iff.mp hflat with ⟨y, hy, hyafter⟩ | ⟨x, hx, hxafter⟩
      · exact ⟨y, hy, hyafter⟩
      · have hx0 : x = [] := by
          apply h.tail.eq_nil_of_prefix hxafter
          have := congrArg (List.countP w) hx
          rw [List.countP_append] at this
          omega
        subst hx0
        exact ⟨[], by simpa using hx.symm, by simpa using hxafter.symm⟩
    have hy0 : y.countP w = 0 := by
      have := congrArg (List.countP w) hy
      rw [List.countP_append] at this
      omega
    obtain ⟨more, rest, rfl, hmore, hnone, hrest⟩ := h.tail.split_rest hyafter hy0 hafter
    have hrestflat : rest.flatten = (ms.map enc).flatten := by
      rw [List.flatten_append, hmore] at hyafter
      exact List.append_cancel_left hyafter
    exact .cons (by rw [hmore, hy]) hfirst hnone
      (ih h.tail (fun c hc => hne c (by simp [hc])) hrestflat hrest)

/-- The pieces of a stream decode to its messages exactly when they are grouped. -/
theorem decoded_iff (h : Weighs w enc val dec ms) {chunks : List (List α)}
    (hne : ∀ c ∈ chunks, c ≠ []) (hflat : chunks.flatten = (ms.map enc).flatten) :
    chunks.filterMap dec = ms.map val ↔ Grouped enc val dec ms chunks :=
  ⟨h.grouped hne hflat, Grouped.decoded⟩

end Weighs

end Psp2Shell.CLib
