import Mathlib

/-! Texts that a delimiter cuts into fields: a field is a segment with the delimiter on both sides,
and two neighbouring fields share one delimiter. -/

namespace Psp2Shell.CLib

variable {α : Type} {q : α}

/-- `as` as fields, from the delimiter that opens the first to the one that closes the last. -/
def framed (q : α) (as : List (List α)) : List α := q :: as.flatMap (· ++ [q])

@[simp] theorem framed_nil : framed q ([] : List (List α)) = [q] := rfl

theorem framed_cons (a : List α) (as : List (List α)) :
    framed q (a :: as) = q :: (a ++ framed q as) := by
  simp [framed]

theorem framed_append (as bs : List (List α)) :
    framed q (as ++ bs) = framed q as ++ bs.flatMap (· ++ [q]) := by
  simp [framed]

theorem framed_length (as : List (List α)) :
    (framed q as).length = 1 + as.length + (as.map List.length).sum := by
  induction as with
  | nil => rfl
  | cons a as ih => simp [framed_cons, ih]; omega

theorem framed_eq_concat (as : List (List α)) : ∃ init, framed q as = init ++ [q] := by
  induction as with
  | nil => exact ⟨[], rfl⟩
  | cons a as ih =>
    obtain ⟨init, h⟩ := ih
    exact ⟨q :: (a ++ init), by simp [framed_cons, h]⟩

theorem head_framed (as : List (List α)) : (framed q as).head? = some q := rfl

theorem getLast_framed (as : List (List α)) : (framed q as).getLast? = some q := by
  obtain ⟨init, h⟩ := framed_eq_concat (q := q) as
  simp [h]

theorem countP_framed (p : α → Bool) (hq : p q = false) (as : List (List α)) :
    (framed q as).countP p = (as.map (List.countP p)).sum := by
  induction as with
  | nil => simp [hq]
  | cons a as ih => simp [framed_cons, hq, ih]

variable [DecidableEq α]

theorem count_framed {as : List (List α)} (has : ∀ a ∈ as, q ∉ a) :
    (framed q as).count q = as.length + 1 := by
  induction as with
  | nil => simp
  | cons a as ih =>
    have ha : a.count q = 0 := List.count_eq_zero.mpr (has a (by simp))
    simp [framed_cons, ha, ih fun b hb => has b (List.mem_cons_of_mem _ hb)]

/-- The fields of `s`, in order. -/
def fields (q : α) (s : List α) : List (List α) := (s.splitOn q).tail.dropLast

theorem fields_of_not_mem {s : List α} (h : q ∉ s) : fields q s = [] := by
  simp [fields, List.splitOn_eq_singleton h]

theorem fields_open {pre rest : List α} (hpre : q ∉ pre) (hrest : q ∉ rest) :
    fields q (pre ++ q :: rest) = [] := by
  simp [fields, List.splitOn_append_cons_self_of_not_mem hpre, List.splitOn_eq_singleton hrest]

theorem fields_cons {pre f : List α} (hpre : q ∉ pre) (hf : q ∉ f) (rest : List α) :
    fields q (pre ++ q :: (f ++ q :: rest)) = f :: fields q (q :: rest) := by
  have hq : (q :: rest).splitOn q = [] :: rest.splitOn q := by
    simpa using List.splitOn_append_cons_self_of_not_mem (show q ∉ [] by simp) rest
  simp only [fields, List.splitOn_append_cons_self_of_not_mem hpre,
    List.splitOn_append_cons_self_of_not_mem hf, hq, List.tail_cons]
  rw [List.dropLast_cons_of_ne_nil (List.splitOn_ne_nil _ _)]

theorem fields_framed {pre post : List α} (hpre : q ∉ pre) {as : List (List α)}
    (has : ∀ a ∈ as, q ∉ a) (hpost : q ∉ post) :
    fields q (pre ++ framed q as ++ post) = as := by
  induction as generalizing pre with
  | nil => simpa using fields_open hpre hpost
  | cons a as ih =>
    have ha : q ∉ a := has a (by simp)
    have hrest := ih (show q ∉ [] by simp) fun b hb => has b (List.mem_cons_of_mem _ hb)
    have hshape : pre ++ framed q (a :: as) ++ post =
        pre ++ q :: (a ++ q :: (as.flatMap (· ++ [q]) ++ post)) := by
      simp [framed]
    rw [hshape, fields_cons hpre ha]
    simpa [framed] using hrest

theorem fields_framed_end {pre : List α} (hpre : q ∉ pre) {as : List (List α)}
    (has : ∀ a ∈ as, q ∉ a) : fields q (pre ++ framed q as) = as := by
  simpa using fields_framed hpre has (show q ∉ [] by simp)

/-- Every text with a delimiter is a frame with text without delimiters on both sides. -/
theorem exists_framed {s : List α} (h : q ∈ s) : ∃ pre as post,
    s = pre ++ framed q as ++ post ∧ q ∉ pre ∧ (∀ a ∈ as, q ∉ a) ∧ q ∉ post := by
  induction hn : s.length using Nat.strong_induction_on generalizing s with
  | _ n ih =>
    obtain ⟨pre, rest, hs, hpre⟩ := List.eq_append_cons_of_mem h
    by_cases hrest : q ∈ rest
    · have hlt : rest.length < n := by
        rw [← hn, hs, List.length_append, List.length_cons]
        omega
      obtain ⟨a, as, post, hr, ha, has, hpost⟩ := ih rest.length hlt hrest rfl
      refine ⟨pre, a :: as, post, ?_, hpre, ?_, hpost⟩
      · simp [hs, hr, framed_cons]
      · simpa using ⟨ha, has⟩
    · exact ⟨pre, [], rest, by simp [hs], hpre, by simp, hrest⟩

theorem not_mem_fields {s a : List α} (h : a ∈ fields q s) : q ∉ a := by
  by_cases hs : q ∈ s
  · obtain ⟨pre, as, post, rfl, hpre, has, hpost⟩ := exists_framed hs
    rw [fields_framed hpre has hpost] at h
    exact has a h
  · simp [fields_of_not_mem hs] at h

/-- Delimiters close one field fewer than there are of them. -/
theorem length_fields (s : List α) : (fields q s).length = s.count q - 1 := by
  by_cases h : q ∈ s
  · obtain ⟨pre, as, post, rfl, hpre, has, hpost⟩ := exists_framed h
    rw [fields_framed hpre has hpost, List.count_append, List.count_append, count_framed has,
      List.count_eq_zero.mpr hpre, List.count_eq_zero.mpr hpost]
    omega
  · rw [fields_of_not_mem h, List.count_eq_zero.mpr h]
    rfl

theorem fields_isPrefix (s t : List α) : fields q s <+: fields q (s ++ t) := by
  by_cases hs : q ∈ s
  · obtain ⟨pre, as, post, rfl, hpre, has, hpost⟩ := exists_framed hs
    rw [fields_framed hpre has hpost]
    by_cases ht : q ∈ t
    · obtain ⟨pre', bs, post', rfl, hpre', hbs, hpost'⟩ := exists_framed ht
      have hshape : pre ++ framed q as ++ post ++ (pre' ++ framed q bs ++ post') =
          pre ++ framed q (as ++ (post ++ pre') :: bs) ++ post' := by
        simp [framed]
      rw [hshape, fields_framed hpre _ hpost']
      · exact List.prefix_append _ _
      · intro a ha
        rcases List.mem_append.mp ha with ha | ha
        · exact has a ha
        · rcases List.mem_cons.mp ha with rfl | ha
          · simp [hpost, hpre']
          · exact hbs a ha
    · rw [List.append_assoc _ post t, fields_framed hpre has (by simp [hpost, ht])]
  · rw [fields_of_not_mem hs]
    exact List.nil_prefix

end Psp2Shell.CLib
