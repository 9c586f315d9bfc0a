import Mathlib

/-! Queues of bounded length, and a queue kept in a fixed array of slots without a head or a tail: a
new item takes the first free slot, and a scan empties the slots one after the other. -/

namespace Psp2Shell.CLib

variable {α : Type}

/-- A queue that holds at most `cap` items, with everything it has accepted and returned. -/
structure Fifo (α : Type) (cap : Nat) where
  accepted : List α
  returned : List α
  pending : List α
  order : returned ++ pending = accepted
  bounded : pending.length ≤ cap

namespace Fifo

variable {cap : Nat}

def empty : Fifo α cap := ⟨[], [], [], rfl, Nat.zero_le _⟩

/-- Accepts `x` when there is room for it. -/
def add (q : Fifo α cap) (x : α) : Fifo α cap :=
  if h : q.pending.length < cap then
    ⟨q.accepted ++ [x], q.returned, q.pending ++ [x], by rw [← List.append_assoc, q.order], by
      simpa using h⟩
  else q

/-- Returns all that is pending. -/
def drain (q : Fifo α cap) : Fifo α cap :=
  ⟨q.accepted, q.returned ++ q.pending, [], by rw [List.append_nil, q.order], Nat.zero_le _⟩

theorem add_of_lt {q : Fifo α cap} (h : q.pending.length < cap) (x : α) :
    (q.add x).accepted = q.accepted ++ [x] ∧ (q.add x).returned = q.returned ∧
      (q.add x).pending = q.pending ++ [x] := by
  rw [add, dif_pos h]
  exact ⟨rfl, rfl, rfl⟩

theorem add_of_full {q : Fifo α cap} (h : q.pending.length = cap) (x : α) : q.add x = q :=
  dif_neg (by omega)

end Fifo

/-! ### Slots -/

variable {used : α → Prop}

/-- The slots in use come before the others. -/
def Packed (used : α → Prop) (slots : List α) : Prop := slots.Pairwise fun a b => used b → used a

theorem packed_nil : Packed used [] := List.Pairwise.nil

theorem packed_cons {slot : α} {slots : List α} :
    Packed used (slot :: slots) ↔ (∀ b ∈ slots, used b → used slot) ∧ Packed used slots :=
  List.pairwise_cons

theorem Packed.tail {slot : α} {slots : List α} (h : Packed used (slot :: slots)) :
    Packed used slots :=
  (packed_cons.mp h).2

theorem Packed.concat {slots : List α} (h : Packed used slots) {slot : α} (hfree : ¬used slot) :
    Packed used (slots ++ [slot]) := by
  refine List.pairwise_append.mpr ⟨h, List.pairwise_singleton _ _, ?_⟩
  intro a _ b hb hused
  rw [List.mem_singleton.mp hb] at hused
  exact absurd hused hfree

theorem packed_of_free {slots : List α} (h : ∀ slot ∈ slots, ¬used slot) : Packed used slots :=
  List.pairwise_of_forall_mem_list fun _ _ b hb hused => absurd hused (h b hb)

/-- Behind a free slot, no slot is in use. -/
theorem Packed.free {front back : List α} {slot : α} (h : Packed used (front ++ slot :: back))
    (hfree : ¬used slot) : ∀ b ∈ back, ¬used b := by
  intro b hb hused
  exact hfree ((packed_cons.mp (List.pairwise_append.mp h).2.1).1 b hb hused)

theorem Packed.replace {front back : List α} {slot x : α} (h : Packed used (front ++ slot :: back))
    (hfront : ∀ f ∈ front, used f) (hfree : ¬used slot) : Packed used (front ++ x :: back) := by
  obtain ⟨hf, hb, -⟩ := List.pairwise_append.mp h
  refine List.pairwise_append.mpr ⟨hf, packed_cons.mpr ⟨fun b hmem hused => ?_, hb.tail⟩, ?_⟩
  · exact absurd hused (h.free hfree b hmem)
  · exact fun a ha _ _ _ => hfront a ha

variable [DecidablePred used]

/-- Stores `x` in the first slot that is not in use, and `none` when all are. -/
def place (used : α → Prop) [DecidablePred used] (x : α) : List α → Option (List α)
  | [] => none
  | slot :: slots =>
    if used slot then (place used x slots).map (slot :: ·) else some (x :: slots)

theorem place_eq_none {x : α} {slots : List α} :
    place used x slots = none ↔ ∀ slot ∈ slots, used slot := by
  induction slots with
  | nil => simp [place]
  | cons slot slots ih =>
    by_cases h : used slot
    · simp [place, h, ih]
    · simp [place, h]

theorem place_eq_some {x : α} {slots after : List α} (h : place used x slots = some after) :
    ∃ front slot back, slots = front ++ slot :: back ∧ (∀ f ∈ front, used f) ∧ ¬used slot ∧
      after = front ++ x :: back := by
  induction slots generalizing after with
  | nil => simp [place] at h
  | cons slot slots ih =>
    by_cases hu : used slot
    · simp only [place, hu, if_true, Option.map_eq_some_iff] at h
      obtain ⟨rest, hrest, rfl⟩ := h
      obtain ⟨front, free, back, rfl, hfront, hfree, rfl⟩ := ih hrest
      exact ⟨slot :: front, free, back, rfl, List.forall_mem_cons.mpr ⟨hu, hfront⟩, hfree, rfl⟩
    · simp only [place, hu, if_false, Option.some.injEq] at h
      exact ⟨[], slot, slots, rfl, by simp, hu, h.symm⟩

theorem place_length {x : α} {slots after : List α} (h : place used x slots = some after) :
    after.length = slots.length := by
  obtain ⟨front, slot, back, rfl, -, -, rfl⟩ := place_eq_some h
  simp

/-- The first free slot of two stretches of slots lies in the first stretch, or none of those is
free. -/
theorem place_append {x : α} {front back : List α} :
    place used x (front ++ back) =
      match place used x front with
      | some front' => some (front' ++ back)
      | none => (place used x back).map (front ++ ·) := by
  induction front with
  | nil => simp [place]
  | cons slot front ih =>
    by_cases h : used slot
    · simp only [List.cons_append, place, h, if_true, ih]
      cases place used x front with
      | none => simp [Function.comp_def]
      | some front' => simp
    · simp [place, h]

theorem Packed.place {x : α} {slots after : List α} (h : Packed used slots)
    (hplace : place used x slots = some after) : Packed used after := by
  obtain ⟨front, slot, back, rfl, hfront, hfree, rfl⟩ := place_eq_some hplace
  exact h.replace hfront hfree

/-- An item that is placed comes after all that is pending. -/
theorem Packed.filter_place {x : α} {slots after : List α} (h : Packed used slots)
    (hx : used x) (hplace : CLib.place used x slots = some after) :
    after.filter used = slots.filter used ++ [x] := by
  obtain ⟨front, slot, back, rfl, hfront, hfree, rfl⟩ := place_eq_some hplace
  have hback : back.filter used = [] := by
    rw [List.filter_eq_nil_iff]
    exact fun b hb hused => h.free hfree b hb (by simpa using hused)
  simp [hx, hfree, hback]

/-- What is placed without being in use leaves the pending items as they are. -/
theorem filter_place_of_free {x : α} {slots after : List α} (hx : ¬used x)
    (hplace : place used x slots = some after) : after.filter used = slots.filter used := by
  obtain ⟨front, slot, back, rfl, -, hfree, rfl⟩ := place_eq_some hplace
  simp [hx, hfree]

theorem filter_length_eq {slots : List α} :
    (slots.filter used).length = slots.length ↔ ∀ slot ∈ slots, used slot := by
  rw [List.length_filter_eq_length_iff]
  simp

end Psp2Shell.CLib
