import Mathlib

/-! The lines of a text: how they follow from the text's parts, how long they are, and
what a cut does to them. -/

namespace Psp2Shell.CLib

variable {α : Type} [DecidableEq α] {q : α}

/-- Lines with a separator behind each, and a text. -/
theorem splitOn_flatMap {ls : List (List α)} (h : ∀ l ∈ ls, q ∉ l) (u : List α) :
    (ls.flatMap (fun l => l ++ [q]) ++ u).splitOn q = ls ++ u.splitOn q := by
  induction ls with
  | nil => rfl
  | cons l ls ih =>
    have hl : q ∉ l := h l List.mem_cons_self
    rw [List.flatMap_cons, List.append_assoc, List.append_assoc, List.singleton_append,
      List.splitOn_append_cons_self_of_not_mem hl, ih fun l' hl' =>
        h l' (List.mem_cons_of_mem l hl'),
      List.cons_append]

/-- A text is one line, or its first line and a shorter text. -/
theorem line_cases {motive : List α → Prop} (last : ∀ t, q ∉ t → motive t)
    (line : ∀ l t, q ∉ l → motive t → motive (l ++ q :: t)) (t : List α) : motive t := by
  induction hn : t.length using Nat.strong_induction_on generalizing t with
  | h n ih =>
    by_cases hq : q ∈ t
    · obtain ⟨l, rest, rfl, hl⟩ := List.eq_append_cons_of_mem hq
      refine line l rest hl (ih rest.length ?_ rest rfl)
      rw [← hn, List.length_append, List.length_cons]
      omega
    · exact last t hq

theorem not_mem_of_mem_splitOn {l t : List α} (h : l ∈ t.splitOn q) : q ∉ l := by
  induction t using line_cases (q := q) with
  | last t ht =>
    rw [List.splitOn_eq_singleton ht, List.mem_singleton] at h
    rwa [h]
  | line l' t hl' ih =>
    rw [List.splitOn_append_cons_self_of_not_mem hl'] at h
    rcases List.mem_cons.mp h with rfl | h
    · exact hl'
    · exact ih h

theorem length_splitOn (t : List α) : (t.splitOn q).length = 1 + t.count q := by
  induction t using line_cases (q := q) with
  | last t ht => rw [List.splitOn_eq_singleton ht, List.length_singleton, List.count_eq_zero.mpr ht]
  | line l t hl ih =>
    rw [List.splitOn_append_cons_self_of_not_mem hl, List.length_cons, ih, List.count_append,
      List.count_eq_zero.mpr hl, List.count_cons_self]
    omega

/-- The lines of a text, with a separator for each but one. -/
theorem sum_splitOn (t : List α) :
    ((t.splitOn q).map fun l => l.length + 1).sum = t.length + 1 := by
  induction t using line_cases (q := q) with
  | last t ht => simp [List.splitOn_eq_singleton ht]
  | line l t hl ih =>
    rw [List.splitOn_append_cons_self_of_not_mem hl, List.map_cons, List.sum_cons, ih,
      List.length_append, List.length_cons]
    omega

/-- Cutting a text adds no line of a kind that is told by the start of the line. -/
theorem countP_splitOn_le (p : List α → Bool) (hp : ∀ l l', p l = true → p (l ++ l') = true)
    (t u : List α) : (t.splitOn q).countP p ≤ ((t ++ u).splitOn q).countP p := by
  induction t using line_cases (q := q) with
  | last t ht =>
    rw [List.splitOn_eq_singleton ht]
    obtain ⟨v, rest, hv⟩ : ∃ v rest, (t ++ u).splitOn q = (t ++ v) :: rest := by
      by_cases hu : q ∈ u
      · obtain ⟨v, rest, rfl, hv⟩ := List.eq_append_cons_of_mem hu
        refine ⟨v, rest.splitOn q, ?_⟩
        rw [← List.append_assoc, List.splitOn_append_cons_self_of_not_mem (by simp [ht, hv])]
      · exact ⟨u, [], List.splitOn_eq_singleton (by simp [ht, hu])⟩
    rw [hv, List.countP_cons, List.countP_cons, List.countP_nil]
    cases hpt : p t with
    | false => simp
    | true => simp [hp t v hpt]
  | line l t hl ih =>
    rw [List.append_assoc, List.cons_append, List.splitOn_append_cons_self_of_not_mem hl,
      List.splitOn_append_cons_self_of_not_mem hl, List.countP_cons, List.countP_cons]
    exact Nat.add_le_add_right ih _

end Psp2Shell.CLib
