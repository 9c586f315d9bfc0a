import Psp2Shell.Listing.Model

/-! The list that the functions keep: its two chains, its ends and its length, over every run. -/

namespace Psp2Shell.Listing

open CLib

/-- The list is linked to these nodes, in this order. -/
structure Represents (m : Memory) (list : SFileList) (nodes : List (Addr × Entry)) : Prop where
  chain : Chain m none nodes none
  distinct : (nodes.map Prod.fst).Nodup
  head : list.head = first nodes none
  tail : nodes ≠ [] → list.tail = last nodes none

/-- The counts after an entry has been added: those of files and folders are left to the callers. -/
structure CountsOne (list list' : SFileList) : Prop where
  length : list'.length = list.length + 1
  files : list'.files = list.files
  folders : list'.folders = list.folders

/-- The nodes after `s_fileListAddEntry`: a sorted entry comes before the first that its scan stops
at. -/
def place (build : Build) (sort : FileSortFlags) (x : Addr × Entry) (nodes : List (Addr × Entry)) :
    List (Addr × Entry) :=
  if sort ≠ .sortNone then nodes.orderedInsert (fun x y => stopsAt build x.2 y.2)
    x else nodes ++ [x]

variable {build : Build} {m : Memory} {list : SFileList}
  {nodes xs ys : List (Addr × Entry)} {p : Addr} {e : Entry}

theorem place_perm (build : Build) (sort : FileSortFlags) (x : Addr × Entry)
    (nodes : List (Addr × Entry)) : (place build sort x nodes).Perm (nodes ++ [x]) := by
  unfold place
  split
  · exact (List.perm_orderedInsert _ x nodes).trans (List.perm_append_singleton x nodes).symm
  · exact .refl _

theorem scan_eq {bound : Nat} {before : Option Addr} (h : Chain m before nodes none)
    (hbound : nodes.length ≤ bound) :
    scan build m e bound before (first nodes none) =
      .ok (last (nodes.takeWhile fun x => ¬stopsAt build e x.2) before,
        first (nodes.dropWhile fun x => ¬stopsAt build e x.2) none) := by
  induction nodes generalizing bound before with
  | nil => cases bound <;> rfl
  | cons x nodes ih =>
    obtain ⟨q, v⟩ := x
    obtain ⟨hq, htail⟩ := h
    obtain ⟨bound, rfl⟩ := Nat.exists_eq_add_one.mpr (Nat.lt_of_lt_of_le (Nat.succ_pos _) hbound)
    have hstep : scan build m e (bound + 1) before (some q) =
        if stopsAt build e v then .ok (before, some q)
        else scan build m e bound (some q) (first nodes none) := by
      simp only [scan, hq, found, bind, Except.bind, pure, Except.pure]
    rw [first_cons, hstep]
    by_cases hstop : stopsAt build e v
    · simp [hstop]
    · rw [if_neg hstop, ih htail (Nat.le_of_succ_le_succ hbound)]
      simp [hstop, last_cons]

/-! ### Adding an entry -/

/-- The block of a new entry, as a chain of its own. -/
theorem chain_singleton (hp : m.lookup p = some ⟨none, none, e⟩) : Chain m none [(p, e)] none :=
  ⟨hp, trivial⟩

theorem link_first {q : Addr} {v : Entry} (hy : Chain m none ((q, v) :: ys) none)
    (hp : m.lookup p = some ⟨none, none, e⟩)
    (hnodup : (((p, e) :: (q, v) :: ys).map Prod.fst).Nodup) :
    ∃ m', link m p q = some m' ∧ Chain m' none ((p, e) :: (q, v) :: ys) none := by
  have hx : Chain m none ([] ++ [(p, e)]) none := chain_singleton hp
  obtain ⟨m', hlink, hchain, -⟩ := hx.link hy hnodup
  exact ⟨m', hlink, hchain⟩

theorem link_last {q : Addr} {v : Entry} (hx : Chain m none (xs ++ [(q, v)]) none)
    (hp : m.lookup p = some ⟨none, none, e⟩)
    (hnodup : ((xs ++ [(q, v), (p, e)]).map Prod.fst).Nodup) :
    ∃ m', link m q p = some m' ∧ Chain m' none (xs ++ [(q, v), (p, e)]) none := by
  obtain ⟨m', hlink, hchain, -⟩ := hx.link (chain_singleton hp) hnodup
  exact ⟨m', hlink, hchain⟩

theorem link_between {q r : Addr} {v w : Entry} {c d : Option Addr}
    (hx : Chain m none (xs ++ [(q, v)]) c) (hy : Chain m d ((r, w) :: ys) none)
    (hp : m.lookup p = some ⟨none, none, e⟩)
    (hnodup : ((xs ++ (q, v) :: (p, e) :: (r, w) :: ys).map Prod.fst).Nodup) :
    ∃ m₁ m₂, link m q p = some m₁ ∧ link m₁ p r = some m₂ ∧
      Chain m₂ none (xs ++ (q, v) :: (p, e) :: (r, w) :: ys) none := by
  have hsplit : xs ++ (q, v) :: (p, e) :: (r, w) :: ys =
      (xs ++ [(q, v), (p, e)]) ++ (r, w) :: ys := by simp
  have hleft : ((xs ++ [(q, v), (p, e)]).map Prod.fst).Nodup := by
    rw [hsplit, List.map_append] at hnodup
    exact hnodup.of_append_left
  have hright : ∀ s ∈ ((r, w) :: ys).map Prod.fst, s ≠ q ∧ s ≠ p := by
    rw [hsplit, List.map_append] at hnodup
    intro s hs
    have hapart := List.disjoint_of_nodup_append hnodup
    constructor
    · rintro rfl
      exact hapart (by simp) hs
    · rintro rfl
      exact hapart (by simp) hs
  obtain ⟨m₁, hlink₁, hx₁, hsame⟩ := hx.link (chain_singleton hp) hleft
  have hy₁ : Chain m₁ d ((r, w) :: ys) none :=
    hy.congr fun s hs => hsame s (hright s hs).1 (hright s hs).2
  rw [List.append_cons] at hx₁ hnodup ⊢
  obtain ⟨m₂, hlink₂, hchain, -⟩ := hx₁.link hy₁ hnodup
  exact ⟨m₁, m₂, hlink₁, hlink₂, hchain⟩

/-- Where the scan ends, the new entry goes between the nodes before and the nodes after. -/
theorem insertSorted_links {head : Addr} (hchain : Chain m none (xs ++ ys) none)
    (hne : xs ++ ys ≠ []) (hp : m.lookup p = some ⟨none, none, e⟩)
    (hnodup : ((xs ++ (p, e) :: ys).map Prod.fst).Nodup) (htail : list.tail = last (xs ++ ys) none)
    (hscan : scan build m e m.keys.card none (some head) = .ok (last xs none, first ys none)) :
    ∃ m', insertSorted build m list p head = .ok (m', { list with
        head := if xs = [] then some p else list.head
        tail := if ys = [] then some p else list.tail }) ∧
      Chain m' none (xs ++ (p, e) :: ys) none := by
  rcases List.eq_nil_or_concat xs with rfl | ⟨xs, ⟨q, v⟩, rfl⟩
  · obtain _ | ⟨⟨r, w⟩, ys⟩ := ys
    · exact (hne rfl).elim
    · obtain ⟨m', hlink, hchain'⟩ := link_first hchain hp hnodup
      refine ⟨m', ?_, hchain'⟩
      simp [insertSorted, hp, hscan, hlink, found, bind, Except.bind, pure, Except.pure]
  · simp only [List.concat_eq_append, List.append_assoc, List.singleton_append] at *
    obtain ⟨hxs, hq, hys⟩ := chain_append.mp hchain
    have hx : Chain m none (xs ++ [(q, v)]) (first ys none) :=
      chain_append.mpr ⟨hxs, hq, trivial⟩
    obtain _ | ⟨⟨r, w⟩, ys⟩ := ys
    · obtain ⟨m', hlink, hchain'⟩ := link_last hx hp hnodup
      refine ⟨m', ?_, hchain'⟩
      simp [insertSorted, hp, hscan, hq, htail, hlink, found, bind, Except.bind, pure, Except.pure]
    · obtain ⟨m₁, m₂, hlink₁, hlink₂, hchain'⟩ := link_between hx hys hp hnodup
      refine ⟨m₂, ?_, hchain'⟩
      simp [insertSorted, hp, hscan, hq, hlink₁, hlink₂, found, bind, Except.bind,
        pure, Except.pure]

/-- The two stores with which `s_fileListAddEntry` starts. -/
theorem unlinked {node : LinkNode Addr Entry} (hp : m.lookup p = some node) :
    ∃ m₀ m₁, setNext m p none = some m₀ ∧ setPrevious m₀ p none = some m₁ ∧
      m₁.lookup p = some ⟨none, none, node.value⟩ ∧ ∀ q, q ≠ p → m₁.lookup q = m.lookup q := by
  refine ⟨m.insert p { node with next := none }, (m.insert p { node with next := none }).insert p
    ⟨none, none, node.value⟩, setNext_of_lookup hp none, ?_, Finmap.lookup_insert _, fun q hq => ?_⟩
  · exact setPrevious_of_lookup (Finmap.lookup_insert m) none
  · rw [Finmap.lookup_insert_of_ne _ hq, Finmap.lookup_insert_of_ne _ hq]

theorem Represents.congr {m' : Memory} (h : Represents m list nodes)
    (hsame : ∀ q ∈ nodes.map Prod.fst, m'.lookup q = m.lookup q) : Represents m' list nodes :=
  { h with chain := h.chain.congr hsame }

theorem nodup_insert (hnodup : ((xs ++ ys).map Prod.fst).Nodup)
    (hnew : p ∉ (xs ++ ys).map Prod.fst) :
    ((xs ++ (p, e) :: ys).map Prod.fst).Nodup := by
  rw [List.map_append] at hnodup hnew
  rw [List.map_append, List.map_cons]
  exact List.nodup_middle.mpr (List.nodup_cons.mpr ⟨hnew, hnodup⟩)

/-- A list with one more node in its chain, an end of it when nothing lies on that side. -/
theorem Represents.insert {m' : Memory} (h : Represents m list (xs ++ ys))
    (hnew : p ∉ (xs ++ ys).map Prod.fst) (hchain : Chain m' none (xs ++ (p, e) :: ys) none) :
    Represents m' { list with
      head := if xs = [] then some p else list.head
      tail := if ys = [] then some p else list.tail
      length := list.length + 1 } (xs ++ (p, e) :: ys) where
  chain := hchain
  distinct := nodup_insert h.distinct hnew
  head := by
    cases xs with
    | nil => rfl
    | cons x xs => exact h.head
  tail _ := by
    rcases List.eq_nil_or_concat ys with rfl | ⟨ys, ⟨q, v⟩, rfl⟩
    · simp
    · have hlast : list.tail = some q := by
        rw [h.tail (by simp), List.concat_eq_append, ← List.append_assoc, last_concat]
      rw [List.concat_eq_append, ← List.cons_append, ← List.append_assoc, last_concat, ← hlast]
      exact if_neg (by simp)

theorem insertSorted_represents {head : Addr} (h : Represents m list nodes) (hne : nodes ≠ [])
    (hhead : list.head = some head) (hp : m.lookup p = some ⟨none, none, e⟩)
    (hnew : p ∉ nodes.map Prod.fst) (build : Build) :
    ∃ m' list', insertSorted build m list p head = .ok (m', list') ∧
      CountsOne list { list' with length := list'.length + 1 } ∧
      Represents m' { list' with length := list'.length + 1 }
        (place build .sortByNameAndFolder (p, e) nodes) := by
  let stop := fun x : Addr × Entry => decide ¬stopsAt build e x.2
  have hscan : scan build m e m.keys.card none (first nodes none) =
      .ok (last (nodes.takeWhile stop) none, first (nodes.dropWhile stop) none) :=
    scan_eq h.chain (h.chain.length_le h.distinct)
  rw [← h.head, hhead] at hscan
  have hsplit : nodes.takeWhile stop ++ nodes.dropWhile stop = nodes :=
    List.takeWhile_append_dropWhile
  have hplace : place build .sortByNameAndFolder (p, e) nodes =
      nodes.takeWhile stop ++ (p, e) :: nodes.dropWhile stop :=
    List.orderedInsert_eq_take_drop _ _ _
  rw [hplace]
  rw [← hsplit] at h hnew hne
  obtain ⟨m', hinsert, hchain⟩ := insertSorted_links h.chain hne hp (nodup_insert h.distinct hnew)
    (h.tail hne) hscan
  exact ⟨m', _, hinsert, ⟨rfl, rfl, rfl⟩, h.insert hnew hchain⟩

theorem insertLast_represents (h : Represents m list nodes) (hne : nodes ≠ [])
    (hp : m.lookup p = some ⟨none, none, e⟩) (hnew : p ∉ nodes.map Prod.fst) :
    ∃ m' list', insertLast m list p = .ok (m', list') ∧
      CountsOne list { list' with length := list'.length + 1 } ∧
      Represents m' { list' with length := list'.length + 1 } (nodes ++ [(p, e)]) := by
  obtain ⟨xs, ⟨q, v⟩, rfl⟩ := (List.eq_nil_or_concat nodes).resolve_left hne
  rw [List.concat_eq_append] at h hnew hne ⊢
  have hrest : Represents m list ((xs ++ [(q, v)]) ++ []) := by rwa [List.append_nil]
  have hnodup := nodup_insert (e := e) hrest.distinct (by rwa [List.append_nil])
  obtain ⟨m', hlink, hchain⟩ := link_last h.chain hp (by rwa [List.append_assoc] at hnodup)
  refine ⟨m', { list with tail := some p }, ?_, ⟨rfl, rfl, rfl⟩, ?_⟩
  · simp [insertLast, h.tail hne, found, hlink, bind, Except.bind, pure, Except.pure]
  · rw [List.append_cons] at hchain
    have hinsert := hrest.insert (by rwa [List.append_nil]) hchain
    rwa [if_neg (by simp)] at hinsert

/-- `s_fileListAddEntry` of a block that is not in the list. -/
theorem sFileListAddEntry_represents {node : LinkNode Addr Entry} (h : Represents m list nodes)
    (hp : m.lookup p = some node) (hnew : p ∉ nodes.map Prod.fst) (build : Build)
    (sort : FileSortFlags) :
    ∃ m' list', sFileListAddEntry build m list p sort = .ok (m', list') ∧ CountsOne list list' ∧
      Represents m' list' (place build sort (p, node.value) nodes) := by
  obtain ⟨m₀, m₁, hnext, hprevious, hp₁, hsame⟩ := unlinked hp
  have h₁ : Represents m₁ list nodes := h.congr fun q hq => hsame q (ne_of_mem_of_not_mem hq hnew)
  cases nodes with
  | nil =>
    have hhead : list.head = none := h.head
    have hplace : place build sort (p, node.value) [] = [(p, node.value)] := by cases sort <;> rfl
    refine ⟨m₁, { list with head := some p, tail := some p, length := list.length + 1 }, ?_,
      ⟨rfl, rfl, rfl⟩, ?_⟩
    · simp [sFileListAddEntry, hnext, hprevious, hhead, found, bind, Except.bind, pure, Except.pure]
    · rw [hplace]
      have hempty : Represents m₁ list ([] ++ []) := h₁
      exact hempty.insert hnew (chain_singleton hp₁)
  | cons x nodes =>
    have hhead : list.head = some x.1 := h.head
    cases sort with
    | sortNone =>
      obtain ⟨m', list', hinsert, hcounts, hrep⟩ := insertLast_represents h₁ (by simp) hp₁ hnew
      refine ⟨m', { list' with length := list'.length + 1 }, ?_, hcounts, hrep⟩
      simp [sFileListAddEntry, hnext, hprevious, hhead, hinsert, found, bind, Except.bind, pure,
        Except.pure]
    | sortByNameAndFolder =>
      obtain ⟨m', list', hinsert, hcounts, hrep⟩ :=
        insertSorted_represents h₁ (by simp) hhead hp₁ hnew build
      refine ⟨m', { list' with length := list'.length + 1 }, ?_, hcounts, hrep⟩
      simp [sFileListAddEntry, hnext, hprevious, hhead, hinsert, found, bind, Except.bind, pure,
        Except.pure]

/-! ### Emptying the list -/

theorem freeLoop_eq {bound : Nat} {before : Option Addr} (h : Chain m before nodes none)
    (hnodup : (nodes.map Prod.fst).Nodup) (hbound : nodes.length ≤ bound) :
    ∃ m', freeLoop bound m (first nodes none) = .ok (m', nodes.map Prod.fst) ∧
      ∀ q, m'.lookup q = if q ∈ nodes.map Prod.fst then none else m.lookup q := by
  induction nodes generalizing m bound before with
  | nil => exact ⟨m, by cases bound <;> rfl, by simp⟩
  | cons x nodes ih =>
    obtain ⟨p, v⟩ := x
    obtain ⟨hp, htail⟩ := h
    obtain ⟨hnew, hnodup⟩ := List.nodup_cons.mp hnodup
    obtain ⟨bound, rfl⟩ := Nat.exists_eq_add_one.mpr (Nat.lt_of_lt_of_le (Nat.succ_pos _) hbound)
    have hrest : Chain (m.erase p) (some p) nodes none :=
      htail.congr fun q hq => Finmap.lookup_erase_ne (ne_of_mem_of_not_mem hq hnew)
    obtain ⟨m', hfree, hlookup⟩ := ih hrest hnodup (Nat.le_of_succ_le_succ hbound)
    refine ⟨m', ?_, fun q => ?_⟩
    · simp [freeLoop, hp, found, hfree, bind, Except.bind, pure, Except.pure]
    · rw [hlookup q]
      by_cases hqp : q = p
      · subst hqp
        simp
      · have hmem : q ∈ nodes.map Prod.fst ↔ q ∈ ((p, v) :: nodes).map Prod.fst := by simp [hqp]
        rw [Finmap.lookup_erase_ne hqp]
        exact if_congr hmem rfl rfl

/-- `s_fileListEmpty` frees the nodes of the list, each once, and nothing else. -/
theorem Represents.sFileListEmpty_eq (h : Represents m list nodes) :
    ∃ m', sFileListEmpty m list = .ok (m', .cleared, nodes.map Prod.fst) ∧
      ∀ q, m'.lookup q = if q ∈ nodes.map Prod.fst then none else m.lookup q := by
  obtain ⟨m', hfree, hlookup⟩ := freeLoop_eq h.chain h.distinct (h.chain.length_le h.distinct)
  refine ⟨m', ?_, hlookup⟩
  rw [sFileListEmpty, h.head, hfree]
  rfl

/-- A list without a head is empty, whatever its other fields hold. -/
theorem represents_nil (h : list.head = none) (m : Memory) : Represents m list [] :=
  ⟨trivial, List.nodup_nil, h, fun hne => (hne rfl).elim⟩

/-! ### Runs -/

/-- The call returns with what is good, or the memory runs out, as `out` says it can. -/
def Safe (out : Prop) {β : Type} (good : β → Prop) : Except Fault β → Prop
  | .ok b => good b
  | .error fault => fault = .outOfMemory ∧ out

section
variable {out out' : Prop} {β γ : Type} {good good' : β → Prop}

theorem Safe.imp {r : Except Fault β} (h : Safe out good r) (himp : ∀ b, good b → good' b) :
    Safe out good' r := by
  cases r with
  | error fault => exact h
  | ok b => exact himp b h

theorem Safe.out_imp {r : Except Fault β} (h : Safe out good r) (himp : out → out') :
    Safe out' good r := by
  cases r with
  | error fault => exact ⟨h.1, himp h.2⟩
  | ok b => exact h

theorem Safe.bind {good' : γ → Prop} {r : Except Fault β} {f : β → Except Fault γ}
    (h : Safe out good r) (hf : ∀ b, good b → Safe out good' (f b)) : Safe out good' (r >>= f) := by
  cases r with
  | error fault => exact h
  | ok b => exact hf b h

/-- A loop keeps what holds of its state and of what it has come by. -/
theorem Safe.foldlM {δ : Type} {f : β → γ → Except Fault β} {next : δ → γ → δ} {good : β → δ → Prop}
    {cs : List γ} (hf : ∀ b d, ∀ c ∈ cs, good b d → Safe out (good · (next d c)) (f b c)) {b : β}
    {d : δ} (h : good b d) : Safe out (good · (cs.foldl next d)) (cs.foldlM f b) := by
  induction cs generalizing b d with
  | nil => exact h
  | cons c cs ih =>
    rw [List.foldlM_cons]
    refine (hf b d c List.mem_cons_self h).bind fun b' hb' => ?_
    exact ih (fun b d c hc => hf b d c (List.mem_cons_of_mem _ hc)) hb'

theorem Safe.foldlM_append {δ : Type} {f : β → γ → Except Fault β} {adds : γ → List δ}
    {good : β → List δ → Prop} {cs : List γ}
    (hf : ∀ b ds c, good b ds → Safe out (good · (ds ++ adds c)) (f b c)) {b : β} {ds : List δ}
    (h : good b ds) : Safe out (good · (ds ++ cs.flatMap adds)) (cs.foldlM f b) := by
  rw [List.flatMap_def, ← List.foldl_append_eq_append]
  exact Safe.foldlM (fun b ds c _ hb => hf b ds c hb) h

/-- With memory enough, the call returns. -/
theorem Safe.returns {r : Except Fault β} (h : Safe out good r) (hout : ¬out) :
    ∃ b, r = .ok b ∧ good b := by
  cases r with
  | error fault => exact (hout h.2).elim
  | ok b => exact ⟨b, rfl, h⟩

end

/-- What holds of a list whenever no call on it is running. -/
structure KeptBy (w : World) (nodes : List (Addr × Entry)) : Prop where
  represents : Represents w.memory w.list nodes
  added : nodes.Perm w.added
  length : w.list.length = nodes.length
  tail : nodes = [] → w.list.tail = none

/-- The list is kept, and these entries have been added to it. -/
def Kept (w : World) (es : List Entry) : Prop :=
  (∃ nodes, KeptBy w nodes) ∧ w.added.map Prod.snd = es

theorem kept_cleared (m : Memory) : Kept ⟨m, .cleared, []⟩ [] :=
  ⟨⟨[], represents_nil rfl m, .refl _, rfl, fun _ => rfl⟩, rfl⟩

/-- The counts play no part in what a list is linked to. -/
theorem Represents.counts (h : Represents m list nodes) {list' : SFileList}
    (hhead : list'.head = list.head) (htail : list'.tail = list.tail) : Represents m list' nodes :=
  ⟨h.chain, h.distinct, hhead.trans h.head, fun hne => htail.trans (h.tail hne)⟩

theorem Kept.countFolder {w : World} {es : List Entry} (h : Kept w es) : Kept w.countFolder es := by
  obtain ⟨⟨nodes, hkept⟩, hadded⟩ := h
  exact ⟨⟨nodes, hkept.represents.counts rfl rfl, hkept.added, hkept.length, hkept.tail⟩, hadded⟩

theorem Kept.countFile {w : World} {es : List Entry} (h : Kept w es) : Kept w.countFile es := by
  obtain ⟨⟨nodes, hkept⟩, hadded⟩ := h
  exact ⟨⟨nodes, hkept.represents.counts rfl rfl, hkept.added, hkept.length, hkept.tail⟩, hadded⟩

/-- A new entry is placed among the nodes. -/
theorem addNew_represents {w : World} (h : Represents w.memory w.list nodes) (build : Build)
    (allocator : Allocator) (sort : FileSortFlags) (e : Entry) :
    Safe allocator.Fails (fun w' => ∃ p,
      Represents w'.memory w'.list (place build sort (p, e) nodes) ∧
      CountsOne w.list w'.list ∧ w'.added = w.added ++ [(p, e)])
      (addNew build allocator sort w e) := by
  unfold addNew
  cases hblock : allocator.block w.memory with
  | none => exact ⟨rfl, w.memory, hblock⟩
  | some p =>
    have hfresh := allocator.fresh w.memory p hblock
    have hnew : p ∉ nodes.map Prod.fst := fun hp => hfresh (h.chain.mem hp)
    obtain ⟨m', list', hadd, hcounts, hrep⟩ := sFileListAddEntry_represents (m := w.memory.insert p
      ⟨(allocator.residue w.memory).1, (allocator.residue w.memory).2, e⟩) (h.congr fun q hq =>
        Finmap.lookup_insert_of_ne _ (ne_of_mem_of_not_mem hq hnew)) (Finmap.lookup_insert _) hnew
      build sort
    simp only [hadd]
    exact ⟨p, hrep, hcounts, rfl⟩

/-- The entries of a directory without `.` and `..`. -/
def keptDirents (dirents : List Dirent) : List Dirent := dirents.filter fun d => !d.isDot

def mountedEntries (disk : Disk) : List Entry :=
  (mountPoints.attach.filter fun name => disk.mounted name.1).map mountPointEntry

/-- The entries that a listing adds, in the order in which it finds them, and `none` when the
directory cannot be opened. -/
def entriesFound (build : Build) (disk : Disk) (path : List Byte) : Option (List Entry) :=
  if build.strcasecmpEq path Client.homePath then some (mountedEntries disk)
  else
    match disk.directory path with
    | .error _ => none
    | .ok dirents => some (dirUpEntry :: (keptDirents dirents).map Dirent.entry)

section

variable {w : World} {es : List Entry}

theorem Kept.addNew (h : Kept w es) (build : Build) (allocator : Allocator) (sort : FileSortFlags)
    (e : Entry) : Safe allocator.Fails (Kept · (es ++ [e])) (addNew build allocator sort w e) := by
  obtain ⟨⟨nodes, hkept⟩, rfl⟩ := h
  refine (addNew_represents hkept.represents build allocator sort e).imp fun w' hw' => ?_
  obtain ⟨p, hrep, hcounts, hadded⟩ := hw'
  have hperm := place_perm build sort (p, e) nodes
  refine ⟨⟨_, hrep, ?_, ?_, fun hnil => ?_⟩, ?_⟩
  · rw [hadded]
    exact hperm.trans (hkept.added.append_right _)
  · rw [hcounts.length, hkept.length, hperm.length_eq, List.length_append]
    rfl
  · rw [hnil] at hperm
    simp at hperm
  · rw [hadded, List.map_append, List.map_singleton]

theorem Kept.getMountPointEntries (h : Kept w es) (build : Build) (allocator : Allocator)
    (disk : Disk) : Safe allocator.Fails (fun r => Kept r.1 (es ++ mountedEntries disk))
      (sFileListGetMountPointEntries build allocator disk w) := by
  have hfold : Safe allocator.Fails
      (Kept · (es ++ (mountPoints.attach.filter fun name => disk.mounted name.1).flatMap
        fun name => [mountPointEntry name]))
      ((mountPoints.attach.filter fun name => disk.mounted name.1).foldlM
        (addMountPoint build allocator) w) :=
    Safe.foldlM_append
      (fun w es name hw => (hw.addNew build allocator _ _).bind fun w' hw' => hw'.countFolder) h
  rw [← List.map_eq_flatMap] at hfold
  exact hfold.bind fun w' hw' => hw'

/-- What an entry of a directory adds. -/
def Dirent.adds (d : Dirent) : List Entry := if d.isDot then [] else [d.entry]

theorem flatMap_adds (dirents : List Dirent) :
    dirents.flatMap Dirent.adds = (keptDirents dirents).map Dirent.entry := by
  induction dirents with
  | nil => rfl
  | cons d dirents ih =>
    rw [List.flatMap_cons, ih, Dirent.adds]
    cases hdot : d.isDot <;> simp [keptDirents, hdot]

theorem Kept.addDirent (h : Kept w es) (build : Build) (allocator : Allocator) (d : Dirent) :
    Safe allocator.Fails (Kept · (es ++ d.adds)) (addDirent build allocator w d) := by
  rw [Listing.addDirent, Dirent.adds]
  split
  · rwa [List.append_nil]
  · split
    · exact h.countFolder.addNew build allocator _ _
    · exact h.countFile.addNew build allocator _ _

theorem Kept.getDirectoryEntries (h : Kept w es) (build : Build)
    (allocator : Allocator) {disk : Disk} {path : List Byte} {dirents : List Dirent}
    (hopen : disk.directory path = .ok dirents) :
    Safe allocator.Fails
      (fun r => Kept r.1 (es ++ dirUpEntry :: (keptDirents dirents).map Dirent.entry))
      (sFileListGetDirectoryEntries build allocator disk w path) := by
  rw [sFileListGetDirectoryEntries, hopen]
  refine (h.addNew build allocator _ _).bind fun w₁ h₁ => ?_
  have hfold : Safe allocator.Fails
      (Kept · ((es ++ [dirUpEntry]) ++ dirents.flatMap Dirent.adds))
      (dirents.foldlM (Listing.addDirent build allocator) w₁) :=
    Safe.foldlM_append (fun w es d hw => hw.addDirent build allocator d) h₁
  refine hfold.bind fun w₂ h₂ => ?_
  rw [flatMap_adds, List.append_assoc] at h₂
  exact h₂

theorem Kept.getEntries (h : Kept w es) (build : Build) (allocator : Allocator) (disk : Disk)
    (path : List Byte) :
    Safe allocator.Fails (fun r => Kept r.1 (es ++ (entriesFound build disk path).getD []))
      (sFileListGetEntries build allocator disk w path) := by
  unfold sFileListGetEntries entriesFound
  split
  · exact h.getMountPointEntries build allocator disk
  · cases hopen : disk.directory path with
    | error dfd =>
      rw [sFileListGetDirectoryEntries, hopen]
      exact (List.append_nil es).symm ▸ h
    | ok dirents => exact h.getDirectoryEntries build allocator hopen

/-- A call that can find no memory left. -/
def Event.Fails : Event → Prop
  | .addEntry allocator _ _ => allocator.Fails
  | .getEntries allocator _ _ => allocator.Fails
  | .empty => False

/-- The entries added since the last `s_fileListEmpty`, after one more call. -/
def addedAfter (build : Build) (es : List Entry) : Event → List Entry
  | .addEntry _ entry _ => es ++ [entry]
  | .getEntries _ disk path => es ++ (entriesFound build disk path).getD []
  | .empty => []

theorem Kept.step (h : Kept w es) (build : Build) (event : Event) :
    Safe event.Fails (Kept · (addedAfter build es event)) (step build w event) := by
  cases event with
  | addEntry allocator entry sort => exact h.addNew build allocator sort entry
  | getEntries allocator disk path =>
    exact (h.getEntries build allocator disk path).bind fun r hr => hr
  | empty =>
    obtain ⟨⟨nodes, hkept⟩, -⟩ := h
    obtain ⟨m', hempty, -⟩ := hkept.represents.sFileListEmpty_eq
    rw [Listing.step, hempty]
    exact kept_cleared m'

end

/-- The list as it is linked: these nodes from `head` on by `next`, the same in reverse from `tail`
on by `previous`, each once, and those that have been added. -/
structure WellLinked (w : World) (nodes : List (Addr × Entry)) : Prop where
  forward : Visits LinkNode.next w.memory w.list.head nodes
  backward : Visits LinkNode.previous w.memory w.list.tail nodes.reverse
  head : w.list.head = nodes.head?.map Prod.fst
  tail : w.list.tail = nodes.getLast?.map Prod.fst
  distinct : (nodes.map Prod.fst).Nodup
  length : w.list.length = nodes.length
  added : nodes.Perm w.added

/-- `s_fileListEmpty` returns with an empty list, and frees these blocks and no other. -/
def FreesExactly (w : World) (blocks : List Addr) : Prop :=
  ∃ m freed, sFileListEmpty w.memory w.list = .ok (m, .cleared, freed) ∧ freed.Perm blocks ∧
    freed.Nodup ∧ ∀ p, m.lookup p = if p ∈ freed then none else w.memory.lookup p

theorem KeptBy.list_tail {w : World} (h : KeptBy w nodes) : w.list.tail = last nodes none := by
  cases nodes with
  | nil => exact h.tail rfl
  | cons x nodes => exact h.represents.tail (by simp)

theorem KeptBy.wellLinked {w : World} (h : KeptBy w nodes) : WellLinked w nodes where
  forward := h.represents.head ▸ h.represents.chain.visits_next
  backward := h.list_tail ▸ h.represents.chain.visits_previous
  head := h.represents.head.trans Option.or_none
  tail := h.list_tail.trans Option.or_none
  distinct := h.represents.distinct
  length := h.length
  added := h.added

theorem KeptBy.freesExactly {w : World} (h : KeptBy w nodes) :
    FreesExactly w (w.added.map Prod.fst) := by
  obtain ⟨m, hempty, hlookup⟩ := h.represents.sFileListEmpty_eq
  exact ⟨m, _, hempty, h.added.map _, h.represents.distinct, hlookup⟩

/-- Over every run, the list is linked both ways through the entries that have been added since it
was last emptied, and emptying it frees just these. -/
theorem list_well_linked (build : Build) (m : Memory) (events : List Event) :
    Safe (∃ event ∈ events, event.Fails)
      (fun w => (∃ nodes, WellLinked w nodes) ∧ FreesExactly w (w.added.map Prod.fst) ∧
        w.added.map Prod.snd = events.foldl (addedAfter build) [])
      (runFrom build m events) := by
  have hrun : Safe (∃ event ∈ events, event.Fails) (Kept · (events.foldl (addedAfter build) []))
      (runFrom build m events) :=
    Safe.foldlM (fun w es event hevent hw =>
      (hw.step build event).out_imp fun hfails => ⟨event, hevent, hfails⟩) (kept_cleared m)
  refine hrun.imp fun w hw => ?_
  obtain ⟨⟨nodes, hkept⟩, hadded⟩ := hw
  exact ⟨⟨nodes, hkept.wellLinked⟩, hkept.freesExactly, hadded⟩

end Psp2Shell.Listing
