import Mathlib.Data.Finmap

/-! Doubly linked lists: a memory of nodes, chains of nodes in it, and what storing a link does to a
chain. -/

namespace Psp2Shell.CLib

/-- A node at an address of type `ι`, where NULL is `none`. -/
structure LinkNode (ι α : Type) where
  next : Option ι
  previous : Option ι
  value : α
deriving DecidableEq

/-- The nodes that are allocated. -/
abbrev LinkMemory (ι α : Type) := Finmap fun _ : ι => LinkNode ι α

variable {ι α : Type} [DecidableEq ι]

/-- `p->next = q`, and `none` when there is no node at `p`. -/
def setNext (m : LinkMemory ι α) (p : ι) (q : Option ι) : Option (LinkMemory ι α) :=
  (m.lookup p).map fun node => m.insert p { node with next := q }

/-- `p->previous = q`. -/
def setPrevious (m : LinkMemory ι α) (p : ι) (q : Option ι) : Option (LinkMemory ι α) :=
  (m.lookup p).map fun node => m.insert p { node with previous := q }

/-- `p->next = q; q->previous = p`. -/
def link (m : LinkMemory ι α) (p q : ι) : Option (LinkMemory ι α) :=
  (setNext m p (some q)).bind (setPrevious · q (some p))

theorem setNext_of_lookup {m : LinkMemory ι α} {p : ι} {node : LinkNode ι α}
    (h : m.lookup p = some node) (q : Option ι) :
    setNext m p q = some (m.insert p { node with next := q }) := by
  rw [setNext, h, Option.map_some]

theorem setPrevious_of_lookup {m : LinkMemory ι α} {p : ι} {node : LinkNode ι α}
    (h : m.lookup p = some node) (q : Option ι) :
    setPrevious m p q = some (m.insert p { node with previous := q }) := by
  rw [setPrevious, h, Option.map_some]

/-! ### Chains -/

/-- The address of the first of the nodes, and `after` when there are none. -/
def first (nodes : List (ι × α)) (after : Option ι) : Option ι :=
  (nodes.head?.map Prod.fst).or after

/-- The address of the last of the nodes, and `before` when there are none. -/
def last (nodes : List (ι × α)) (before : Option ι) : Option ι :=
  (nodes.getLast?.map Prod.fst).or before

/-- From `start` on, `follow` visits the nodes in this order, with these
values, and then meets NULL. -/
def Visits (follow : LinkNode ι α → Option ι) (m : LinkMemory ι α) : Option ι → List (ι × α) → Prop
  | start, [] => start = none
  | start, (p, v) :: nodes =>
    start = some p ∧ ∃ node, m.lookup p = some node ∧ node.value = v ∧
      Visits follow m (follow node) nodes

/-- The nodes follow one another in the memory, after `before` and before `after`. -/
def Chain (m : LinkMemory ι α) : Option ι → List (ι × α) → Option ι → Prop
  | _, [], _ => True
  | before, (p, v) :: nodes, after =>
    m.lookup p = some ⟨first nodes after, before, v⟩ ∧ Chain m (some p) nodes after

variable {m : LinkMemory ι α} {before after : Option ι} {nodes xs ys : List (ι × α)}

omit [DecidableEq ι] in
@[simp] theorem first_nil : first ([] : List (ι × α)) after = after := rfl

omit [DecidableEq ι] in
@[simp] theorem first_cons (p : ι) (v : α) : first ((p, v) :: nodes) after = some p := rfl

omit [DecidableEq ι] in
@[simp] theorem last_nil : last ([] : List (ι × α)) before = before := rfl

omit [DecidableEq ι] in
@[simp] theorem last_concat (p : ι) (v : α) : last (nodes ++ [(p, v)]) before = some p := by
  simp [last]

omit [DecidableEq ι] in
theorem first_append : first (xs ++ ys) after = first xs (first ys after) := by
  cases xs with
  | nil => rfl
  | cons x xs => rfl

omit [DecidableEq ι] in
theorem last_cons (p : ι) (v : α) : last ((p, v) :: nodes) before = last nodes (some p) := by
  cases hlast : nodes.getLast? with
  | none => simp [last, List.getLast?_cons, hlast]
  | some x => simp [last, List.getLast?_cons, hlast]

theorem chain_append :
    Chain m before (xs ++ ys) after ↔
      Chain m before xs (first ys after) ∧ Chain m (last xs before) ys after := by
  induction xs generalizing before with
  | nil => simp [Chain]
  | cons x xs ih =>
    obtain ⟨p, v⟩ := x
    simp only [List.cons_append, Chain, first_append, last_cons, ih, and_assoc]

/-- A chain lies in its own nodes. -/
theorem Chain.congr {m' : LinkMemory ι α} (h : Chain m before nodes after)
    (hsame : ∀ p ∈ nodes.map Prod.fst, m'.lookup p = m.lookup p) : Chain m' before nodes after := by
  induction nodes generalizing before with
  | nil => trivial
  | cons x nodes ih =>
    obtain ⟨p, v⟩ := x
    obtain ⟨hp, htail⟩ := h
    refine ⟨(hsame p (by simp)).trans hp, ih htail fun q hq => hsame q ?_⟩
    exact List.mem_cons_of_mem _ hq

theorem Chain.mem {p : ι} (h : Chain m before nodes after) (hp : p ∈ nodes.map Prod.fst) :
    p ∈ m := by
  induction nodes generalizing before with
  | nil => simp at hp
  | cons x nodes ih =>
    obtain ⟨q, v⟩ := x
    obtain ⟨hq, htail⟩ := h
    rcases List.mem_cons.mp hp with rfl | hp
    · exact Finmap.mem_of_lookup_eq_some hq
    · exact ih htail hp

/-- There are no more distinct nodes in a chain than in the memory. -/
theorem Chain.length_le (h : Chain m before nodes after) (hnodup : (nodes.map Prod.fst).Nodup) :
    nodes.length ≤ m.keys.card := by
  rw [← List.length_map (f := Prod.fst), ← List.toFinset_card_of_nodup hnodup]
  refine Finset.card_le_card fun p hp => Finmap.mem_keys.mpr ?_
  exact h.mem (List.mem_toFinset.mp hp)

theorem Chain.visits_next (h : Chain m before nodes none) :
    Visits LinkNode.next m (first nodes none) nodes := by
  induction nodes generalizing before with
  | nil => rfl
  | cons x nodes ih =>
    obtain ⟨p, v⟩ := x
    exact ⟨rfl, _, h.1, rfl, ih h.2⟩

theorem Chain.visits_previous (h : Chain m none nodes after) :
    Visits LinkNode.previous m (last nodes none) nodes.reverse := by
  induction nodes using List.reverseRecOn generalizing after with
  | nil => rfl
  | append_singleton nodes x ih =>
    obtain ⟨p, v⟩ := x
    obtain ⟨hinit, hp, -⟩ := chain_append.mp h
    rw [List.reverse_concat, last_concat]
    exact ⟨rfl, _, hp, rfl, ih hinit⟩

/-! ### Storing a link -/

theorem Chain.setNext_last {p : ι} {v : α} (h : Chain m before (nodes ++ [(p, v)]) after)
    (hp : p ∉ nodes.map Prod.fst) (q : Option ι) :
    ∃ m', setNext m p q = some m' ∧ Chain m' before (nodes ++ [(p, v)]) q ∧
      ∀ r, r ≠ p → m'.lookup r = m.lookup r := by
  obtain ⟨hinit, hnode, -⟩ := chain_append.mp h
  refine ⟨_, setNext_of_lookup hnode q, ?_, fun r hr => Finmap.lookup_insert_of_ne m hr⟩
  refine chain_append.mpr ⟨hinit.congr fun r hr => ?_, Finmap.lookup_insert m, trivial⟩
  exact Finmap.lookup_insert_of_ne m (ne_of_mem_of_not_mem hr hp)

theorem Chain.setPrevious_first {p : ι} {v : α} (h : Chain m before ((p, v) :: nodes) after)
    (hp : p ∉ nodes.map Prod.fst) (q : Option ι) :
    ∃ m', setPrevious m p q = some m' ∧ Chain m' q ((p, v) :: nodes) after ∧
      ∀ r, r ≠ p → m'.lookup r = m.lookup r := by
  obtain ⟨hnode, htail⟩ := h
  refine ⟨_, setPrevious_of_lookup hnode q, ?_, fun r hr => Finmap.lookup_insert_of_ne m hr⟩
  refine ⟨Finmap.lookup_insert m, htail.congr fun r hr => ?_⟩
  exact Finmap.lookup_insert_of_ne m (ne_of_mem_of_not_mem hr hp)

/-- Linking the last node of one chain to the first node of another makes one chain of the two. -/
theorem Chain.link {p q : ι} {v w : α} {c d : Option ι} (hx : Chain m before (xs ++ [(p, v)]) c)
    (hy : Chain m d ((q, w) :: ys) after)
    (hnodup : ((xs ++ (p, v) :: (q, w) :: ys).map Prod.fst).Nodup) :
    ∃ m', link m p q = some m' ∧ Chain m' before (xs ++ (p, v) :: (q, w) :: ys) after ∧
      ∀ r, r ≠ p → r ≠ q → m'.lookup r = m.lookup r := by
  simp only [List.map_append, List.map_cons, List.nodup_append, List.nodup_cons, List.mem_cons,
    not_or] at hnodup
  obtain ⟨-, ⟨⟨hpq, hpys⟩, hqys, -⟩, hapart⟩ := hnodup
  have hpxs : p ∉ xs.map Prod.fst := fun hp => hapart p hp p (.inl rfl) rfl
  have hqxs : q ∉ (xs ++ [(p, v)]).map Prod.fst := by
    simp only [List.map_append, List.map_cons, List.map_nil, List.mem_append,
      List.mem_singleton, not_or]
    exact ⟨fun hq => hapart q hq q (.inr (.inl rfl)) rfl, fun hqp => hpq hqp.symm⟩
  obtain ⟨m₁, hset, hx₁, hsame₁⟩ := hx.setNext_last hpxs (some q)
  have hy₁ : Chain m₁ d ((q, w) :: ys) after := hy.congr fun r hr => hsame₁ r ?_
  · obtain ⟨m₂, hset₂, hy₂, hsame₂⟩ := hy₁.setPrevious_first hqys (some p)
    refine ⟨m₂, by rw [CLib.link, hset, Option.bind_some, hset₂], ?_, fun r hrp hrq => ?_⟩
    · have hx₂ : Chain m₂ before (xs ++ [(p, v)]) (some q) :=
        hx₁.congr fun r hr => hsame₂ r (ne_of_mem_of_not_mem hr hqxs)
      rw [List.append_cons]
      exact chain_append.mpr ⟨hx₂, by rwa [last_concat]⟩
    · rw [hsame₂ r hrq, hsame₁ r hrp]
  · rcases List.mem_cons.mp hr with rfl | hr
    · exact fun hrp => hpq hrp.symm
    · exact ne_of_mem_of_not_mem hr hpys

end Psp2Shell.CLib
