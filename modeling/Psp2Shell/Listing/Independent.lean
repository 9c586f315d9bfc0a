import Psp2Shell.Client.Spec
import Psp2Shell.Listing.Ls

/-! `cmd_ls` from two contents of the stack memory where its list lies: what a
run still has of them. -/

namespace Psp2Shell.Listing

open CLib File Msg

/-- `cmd_ls` from the listing of `path` on, up to `s_fileListEmpty`: what that call gets, and the
message that has been printed. -/
def cmdLsRun (build : Build) (allocator : Allocator) (disk : Disk) (m : Memory) (frame : Frame)
    (path : List Byte) : Except Fault (World × P2sMsg) := do
  let (w, res) ← sFileListGetEntries build allocator disk ⟨m, frame.fileList, []⟩ path
  if res < 0 then
    return (w, psp2shellPrintColor .red
      (format (ascii "directory does not exist: %s\n") [.str path]))
  else
    let msg ← lsText w.memory w.list frame.room path
    return (w, psp2shellPrintColor .green (format (ascii "%s\n\n") [.str msg]))

theorem cmdLsFrom_eq (build : Build) (allocator : Allocator) (disk : Disk)
    (m : Memory) (frame : Frame) (path : List Byte) :
    cmdLsFrom build allocator disk m frame path =
      (cmdLsRun build allocator disk m frame path).map Prod.snd := by
  unfold cmdLsFrom cmdLsRun
  cases sFileListGetEntries build allocator disk ⟨m, frame.fileList, []⟩ path with
  | error fault => rfl
  | ok r =>
    simp only [bind, Except.bind]
    split
    · rfl
    · cases lsText r.1.memory r.1.list frame.room path <;> rfl

/-- The message of a run that gets to it. -/
def sent (run : Except Fault (World × P2sMsg)) : Option P2sMsg := run.toOption.map Prod.snd

/-- Where the run gets to `s_fileListEmpty`, that call returns and frees only
what the run has added. -/
def FreesOnlyAdded (run : Except Fault (World × P2sMsg)) : Prop :=
  ∀ w msg, run = .ok (w, msg) →
    ∃ m freed, sFileListEmpty w.memory w.list = .ok (m, .cleared, freed) ∧
    freed ⊆ w.added.map Prod.fst

/-- For every client, argument and file system, a run of `cmd_ls` from the contents `c` sends what
one from `c'` sends, and both free only what they have added. -/
def LsIndependent (c c' : SFileList) : Prop :=
  ∀ (env : Client.Environment) (fileList : Client.SFileList) (arg path : List Byte)
    (done : Client.Done), Client.cmdLs env fileList arg = some done → done.acts = [.list path] →
    ∀ (build : Build) (allocator : Allocator) (disk : Disk) (m : Memory) (room : Nat)
      (hroom : room ≤ cmdThreadStack),
      sent (cmdLsRun build allocator disk m ⟨c, room, hroom⟩ path) =
          sent (cmdLsRun build allocator disk m ⟨c', room, hroom⟩ path) ∧
        FreesOnlyAdded (cmdLsRun build allocator disk m ⟨c, room, hroom⟩ path) ∧
        FreesOnlyAdded (cmdLsRun build allocator disk m ⟨c', room, hroom⟩ path)

/-! ### Two runs side by side -/

/-- Two calls return related values, or do not return for the same reason. -/
def Alike {β γ : Type} (rel : β → γ → Prop) : Except Fault β → Except Fault γ → Prop
  | .ok b, .ok c => rel b c
  | .error fault, .error fault' => fault = fault'
  | _, _ => False

section
variable {α β γ δ : Type} {rel : α → β → Prop} {rel' : γ → δ → Prop}

theorem Alike.bind {x : Except Fault α} {y : Except Fault β} {f : α → Except Fault γ}
    {g : β → Except Fault δ} (h : Alike rel x y) (hf : ∀ a b, rel a b → Alike rel' (f a) (g b)) :
    Alike rel' (x >>= f) (y >>= g) := by
  cases x with
  | error fault =>
    cases y with
    | error fault' => exact h
    | ok b => exact h.elim
  | ok a =>
    cases y with
    | error fault' => exact h.elim
    | ok b => exact hf a b h

/-- The two calls do the same first. -/
theorem Alike.bind_same {x : Except Fault α} {f : α → Except Fault γ} {g : α → Except Fault δ}
    (hf : ∀ a, Alike rel' (f a) (g a)) : Alike rel' (x >>= f) (x >>= g) := by
  cases x with
  | error fault => exact rfl
  | ok a => exact hf a

theorem Alike.foldlM {f : α → γ → Except Fault α} {g : β → γ → Except Fault β}
    (hf : ∀ a b c, rel a b → Alike rel (f a c) (g b c)) (cs : List γ) {a : α}
    {b : β} (h : rel a b) :
    Alike rel (cs.foldlM f a) (cs.foldlM g b) := by
  induction cs generalizing a b with
  | nil => exact h
  | cons c cs ih =>
    rw [List.foldlM_cons, List.foldlM_cons]
    exact (hf a b c h).bind fun a' b' h' => ih h'

end

/-- Two lists with the same links, the first by `d` longer than the second as they are counted. -/
structure SameLinks (d : Int) (list list₀ : SFileList) : Prop where
  head : list.head = list₀.head
  tail : list₀.head ≠ none → list.tail = list₀.tail
  length : list.length = list₀.length + d

/-- Two worlds with one memory, whose lists have the same links. -/
structure Agree (d : Int) (w w₀ : World) : Prop where
  memory : w.memory = w₀.memory
  links : SameLinks d w.list w₀.list
  added : w.added = w₀.added

variable {d : Int} {w w₀ : World} {list list₀ : SFileList} {build : Build} {allocator : Allocator}

theorem insertSorted_alike (h : SameLinks d list list₀) (hhead : list₀.head ≠ none) (build : Build)
    (m : Memory) (entry head : Addr) :
    Alike (fun r r₀ => r.1 = r₀.1 ∧ SameLinks d r.2 r₀.2) (insertSorted build m list entry head)
      (insertSorted build m list₀ entry head) := by
  unfold insertSorted
  refine Alike.bind_same fun node => Alike.bind_same fun place => ?_
  obtain ⟨previous, p⟩ := place
  cases previous with
  | none =>
    refine Alike.bind_same fun p => Alike.bind_same fun m' => ?_
    exact ⟨rfl, rfl, fun _ => h.tail hhead, h.length⟩
  | some previous =>
    refine Alike.bind_same fun node => ?_
    split
    · rw [h.tail hhead]
      refine Alike.bind_same fun tail => Alike.bind_same fun m' => ?_
      exact ⟨rfl, h.head, fun _ => rfl, h.length⟩
    · refine Alike.bind_same fun m' => Alike.bind_same fun p => Alike.bind_same fun m'' => ?_
      exact ⟨rfl, h⟩

theorem insertLast_alike (h : SameLinks d list list₀) (hhead : list₀.head ≠ none) (m : Memory)
    (entry : Addr) :
    Alike (fun r r₀ => r.1 = r₀.1 ∧ SameLinks d r.2 r₀.2) (insertLast m list entry)
      (insertLast m list₀ entry) := by
  unfold insertLast
  rw [h.tail hhead]
  refine Alike.bind_same fun tail => Alike.bind_same fun m' => ?_
  exact ⟨rfl, h.head, fun _ => rfl, h.length⟩

theorem sFileListAddEntry_alike (h : SameLinks d list list₀) (build : Build)
    (m : Memory) (entry : Addr) (sort : FileSortFlags) :
    Alike (fun r r₀ => r.1 = r₀.1 ∧ SameLinks d r.2 r₀.2)
      (sFileListAddEntry build m list entry sort) (sFileListAddEntry build m list₀ entry sort) := by
  have hcount : ∀ r r₀ : Memory × SFileList, r.1 = r₀.1 ∧ SameLinks d r.2 r₀.2 →
      Alike (fun r r₀ => r.1 = r₀.1 ∧ SameLinks d r.2 r₀.2)
        (pure (r.1, { r.2 with length := r.2.length + 1 }) : Except Fault (Memory × SFileList))
        (pure (r₀.1, { r₀.2 with length := r₀.2.length + 1 }) : Except Fault
          (Memory × SFileList)) := by
    rintro r r₀ ⟨hmemory, hlinks⟩
    refine ⟨hmemory, hlinks.head, hlinks.tail, ?_⟩
    have := hlinks.length
    dsimp only
    omega
  unfold sFileListAddEntry
  refine Alike.bind_same fun m₁ => Alike.bind_same fun m₂ => ?_
  rw [h.head]
  cases hhead : list₀.head with
  | none =>
    exact hcount (m₂, { list with head := some entry, tail := some entry })
      (m₂, { list₀ with head := some entry, tail := some entry }) ⟨rfl, rfl, fun _ => rfl, h.length⟩
  | some head =>
    have hne : list₀.head ≠ none := by simp [hhead]
    by_cases hsort : sort ≠ .sortNone
    · simp only [if_pos hsort]
      exact (insertSorted_alike h hne build m₂ entry head).bind hcount
    · simp only [if_neg hsort]
      exact (insertLast_alike h hne m₂ entry).bind hcount

theorem Agree.countFolder (h : Agree d w w₀) : Agree d w.countFolder w₀.countFolder :=
  ⟨h.memory, ⟨h.links.head, h.links.tail, h.links.length⟩, h.added⟩

theorem Agree.countFile (h : Agree d w w₀) : Agree d w.countFile w₀.countFile :=
  ⟨h.memory, ⟨h.links.head, h.links.tail, h.links.length⟩, h.added⟩

theorem Agree.addNew (h : Agree d w w₀) (build : Build) (allocator : Allocator)
    (sort : FileSortFlags) (e : Entry) :
    Alike (Agree d) (addNew build allocator sort w e) (addNew build allocator sort w₀ e) := by
  unfold Listing.addNew
  rw [h.memory, h.added]
  cases allocator.block w₀.memory with
  | none => exact rfl
  | some p =>
    refine (sFileListAddEntry_alike h.links build _ p sort).bind fun r r₀ hr => ?_
    exact ⟨hr.1, hr.2, rfl⟩

theorem Agree.getEntries (h : Agree d w w₀) (build : Build) (allocator : Allocator) (disk : Disk)
    (path : List Byte) :
    Alike (fun r r₀ => Agree d r.1 r₀.1 ∧ r.2 = r₀.2)
      (sFileListGetEntries build allocator disk w path)
      (sFileListGetEntries build allocator disk w₀ path) := by
  unfold sFileListGetEntries
  split
  · unfold sFileListGetMountPointEntries
    refine (Alike.foldlM (fun w w₀ name hw => ?_) _ h).bind fun w w₀ hw => ⟨hw, rfl⟩
    exact (hw.addNew build allocator _ _).bind fun w w₀ hw => hw.countFolder
  · unfold sFileListGetDirectoryEntries
    split
    · exact ⟨h, rfl⟩
    · refine (h.addNew build allocator _ _).bind fun w w₀ hw => ?_
      refine (Alike.foldlM (fun w w₀ dirent hw => ?_) _ hw).bind fun w w₀ hw => ⟨hw, rfl⟩
      unfold addDirent
      split
      · exact hw
      · split
        · exact hw.countFolder.addNew build allocator _ _
        · exact hw.countFile.addNew build allocator _ _

theorem Agree.sFileListEmpty_eq (h : Agree d w w₀) :
    sFileListEmpty w.memory w.list = sFileListEmpty w₀.memory w₀.list := by
  rw [sFileListEmpty, sFileListEmpty, h.memory, h.links.head]

theorem Agree.represents {nodes : List (Addr × Entry)} (h : Agree d w w₀)
    (hrep : Represents w₀.memory w₀.list nodes) : Represents w.memory w.list nodes := by
  rw [h.memory]
  refine ⟨hrep.chain, hrep.distinct, h.links.head.trans hrep.head, fun hne => ?_⟩
  have hhead : w₀.list.head ≠ none := by
    obtain ⟨x, nodes, rfl⟩ := List.exists_cons_of_ne_nil hne
    rw [hrep.head]
    exact Option.some_ne_none x.1
  exact (h.links.tail hhead).trans (hrep.tail hne)

theorem Agree.lsText_eq (h : Agree 0 w w₀) (room : Nat) (path : List Byte) :
    lsText w.memory w.list room path = lsText w₀.memory w₀.list room path := by
  have hlength : w.list.length = w₀.list.length := by simpa using h.links.length
  unfold lsText
  rw [h.memory, h.links.head, hlength]

/-! ### Contents without a head -/

variable {c c' : SFileList} {disk : Disk} {m : Memory} {room : Nat} {path : List Byte} {res : Int}

theorem agree_start (hhead : c.head = none) (hhead' : c'.head = none) (m : Memory) :
    Agree (c.length - c'.length) ⟨m, c, []⟩ ⟨m, c', []⟩ :=
  ⟨rfl, ⟨hhead.trans hhead'.symm, fun h => (h hhead').elim, by dsimp only; omega⟩, rfl⟩

/-- What a listing leaves is linked as from an empty list, and counted from
the leftover length on. -/
theorem getEntries_headless (hhead : c.head = none)
    (h : sFileListGetEntries build allocator disk ⟨m, c, []⟩ path = .ok (w, res)) :
    ∃ w₀ nodes, Agree c.length w w₀ ∧ KeptBy w₀ nodes := by
  have hstart : Agree (c.length - SFileList.cleared.length) ⟨m, c, []⟩ ⟨m, .cleared, []⟩ :=
    agree_start hhead rfl m
  have hagree := hstart.getEntries build allocator disk path
  have hkept := (kept_cleared m).getEntries build allocator disk path
  rw [h] at hagree
  cases hcleared : sFileListGetEntries build allocator disk ⟨m, .cleared, []⟩ path with
  | error fault =>
    rw [hcleared] at hagree
    exact hagree.elim
  | ok r =>
    rw [hcleared] at hagree hkept
    obtain ⟨⟨nodes, hnodes⟩, -⟩ := hkept
    have hzero : c.length - SFileList.cleared.length = c.length := Int.sub_zero _
    exact ⟨r.1, nodes, hzero ▸ hagree.1, hnodes⟩

theorem entries_of_run {frame : Frame} {msg : P2sMsg}
    (h : cmdLsRun build allocator disk m frame path = .ok (w, msg)) :
    ∃ res, sFileListGetEntries build allocator disk ⟨m, frame.fileList, []⟩ path =
      .ok (w, res) := by
  unfold cmdLsRun at h
  cases hentries : sFileListGetEntries build allocator disk ⟨m, frame.fileList, []⟩ path with
  | error fault =>
    rw [hentries] at h
    cases h
  | ok r =>
    refine ⟨r.2, ?_⟩
    rw [hentries] at h
    simp only [bind, Except.bind] at h
    split at h
    · cases h
      rfl
    · split at h
      · cases h
      · cases h
        rfl

theorem headless_freesOnlyAdded (hhead : c.head = none) (hroom : room ≤ cmdThreadStack) :
    FreesOnlyAdded (cmdLsRun build allocator disk m ⟨c, room, hroom⟩ path) := by
  intro w msg hrun
  obtain ⟨res, hentries⟩ := entries_of_run hrun
  obtain ⟨w₀, nodes, hagree, hkept⟩ := getEntries_headless hhead hentries
  obtain ⟨m', freed, hempty, hperm, -⟩ := hkept.freesExactly
  refine ⟨m', freed, hagree.sFileListEmpty_eq.trans hempty, ?_⟩
  rw [hagree.added]
  exact hperm.subset

/-- A leftover length above 0 makes the loop go past the last entry. -/
theorem lsText_leftover (hhead : c.head = none) (hlength : 0 < c.length)
    (h : sFileListGetEntries build allocator disk ⟨m, c, []⟩ path = .ok (w, res)) (room : Nat) :
    ∃ fault, lsText w.memory w.list room path = .error fault := by
  obtain ⟨w₀, nodes, hagree, hkept⟩ := getEntries_headless hhead h
  refine lsText_past (hagree.represents hkept.represents) ?_ room path
  have := hagree.links.length
  have := hkept.length
  omega

theorem sent_eq_of_headless (hhead : c.head = none) (hhead' : c'.head = none)
    (hlength : c.length = c'.length ∨ 0 < c.length ∧ 0 < c'.length)
    (hroom : room ≤ cmdThreadStack) :
    sent (cmdLsRun build allocator disk m ⟨c, room, hroom⟩ path) =
      sent (cmdLsRun build allocator disk m ⟨c', room, hroom⟩ path) := by
  have hagree := (agree_start hhead hhead' m).getEntries build allocator disk path
  unfold cmdLsRun
  cases hentries : sFileListGetEntries build allocator disk ⟨m, c, []⟩ path with
  | error fault =>
    rw [hentries] at hagree
    cases hentries' : sFileListGetEntries build allocator disk ⟨m, c', []⟩ path with
    | error fault' => rfl
    | ok r' =>
      rw [hentries'] at hagree
      exact hagree.elim
  | ok r =>
    rw [hentries] at hagree
    cases hentries' : sFileListGetEntries build allocator disk ⟨m, c', []⟩ path with
    | error fault' =>
      rw [hentries'] at hagree
      exact hagree.elim
    | ok r' =>
      rw [hentries'] at hagree
      obtain ⟨hworlds, hres⟩ := hagree
      simp only [bind, Except.bind, hres]
      split
      · rfl
      · rcases hlength with heq | ⟨hpos, hpos'⟩
        · rw [heq, Int.sub_self] at hworlds
          rw [hworlds.lsText_eq room path]
          cases lsText r'.1.memory r'.1.list room path <;> rfl
        · obtain ⟨fault, hfault⟩ := lsText_leftover hhead hpos hentries room
          obtain ⟨fault', hfault'⟩ := lsText_leftover hhead' hpos' hentries' room
          rw [hfault, hfault']
          rfl

/-! ### What a leftover changes -/

theorem head_freed {m' : Memory} {list' : SFileList} {freed : List Addr} {q : Addr}
    (hhead : list.head = some q) (h : sFileListEmpty m list = .ok (m', list', freed)) :
    q ∈ freed := by
  unfold sFileListEmpty at h
  rw [hhead] at h
  cases hbound : m.keys.card with
  | zero =>
    rw [hbound] at h
    cases h
  | succ bound =>
    rw [hbound] at h
    simp only [freeLoop, bind, Except.bind] at h
    cases hnode : found (m.lookup q) with
    | error fault =>
      rw [hnode] at h
      cases h
    | ok node =>
      rw [hnode] at h
      simp only at h
      cases hrest : freeLoop bound (m.erase q) node.next with
      | error fault =>
        rw [hrest] at h
        cases h
      | ok r =>
        rw [hrest] at h
        cases h
        exact List.mem_cons_self

/-- In front of a directory that cannot be opened, whatever lies in the list is freed. -/
theorem not_freesOnlyAdded {q : Addr} {dfd : Int} (hhead : c.head = some q)
    (hhome : build.strcasecmpEq path Client.homePath = false)
    (hopen : disk.directory path = .error dfd) (hdfd : dfd < 0) (hroom : room ≤ cmdThreadStack) :
    ¬FreesOnlyAdded (cmdLsRun build allocator disk m ⟨c, room, hroom⟩ path) := by
  have hentries : sFileListGetEntries build allocator disk ⟨m, c, []⟩ path =
      .ok (⟨m, c, []⟩, dfd) := by
    rw [sFileListGetEntries, if_neg (by simp [hhome]), sFileListGetDirectoryEntries, hopen]
  have hrun : cmdLsRun build allocator disk m ⟨c, room, hroom⟩ path = .ok (⟨m, c, []⟩,
      psp2shellPrintColor .red (format (ascii "directory does not exist: %s\n") [.str path])) := by
    simp only [cmdLsRun, hentries, bind, Except.bind, if_pos hdfd]
    rfl
  intro hfrees
  obtain ⟨m', freed, hempty, hsub⟩ := hfrees _ _ hrun
  exact absurd (hsub (head_freed hhead hempty)) (by simp)

theorem sent_eq (build : Build) (allocator : Allocator) (disk : Disk) (m : Memory) (frame : Frame)
    (path : List Byte) :
    sent (cmdLsRun build allocator disk m frame path) =
      (cmdLsFrom build allocator disk m frame path).toOption := by
  rw [cmdLsFrom_eq]
  unfold sent
  cases cmdLsRun build allocator disk m frame path <;> rfl

/-- The names that are shown: those that the loop visits, from the leftover length on. -/
def shown (c : SFileList) (es : List Entry) : List (List Byte) :=
  (es.take (c.length + es.length).toNat).map Entry.name

/-- The message of a listing that gets to it. -/
theorem sent_shown {es : List Entry} {sent' : P2sMsg} (hhead : c.head = none)
    (hlisting : listing build disk path = .ok es) (hmemory : ¬allocator.Fails) (hpath : 0 ∉ path)
    (hroom : room ≤ cmdThreadStack)
    (h : sent (cmdLsRun build allocator disk m ⟨c, room, hroom⟩ path) = some sent') :
    c.length ≤ 0 ∧ ∀ old, clientText old sent' =
      some (snprintf p2sKmsgSize (composed path (shown c es) ++ [newline, newline])) := by
  obtain ⟨w, nodes, hrep, hnodes, hlength, hmessage⟩ :=
    @cmdLsFrom_headless path build allocator disk ⟨c, room, hroom⟩ es hhead hlisting hmemory m
  rw [sent_eq, hmessage] at h
  cases htext : lsText w.memory w.list room path with
  | error fault =>
    rw [htext] at h
    cases h
  | ok text =>
    rw [htext] at h
    obtain ⟨hvisited, -, -, hcomposed⟩ := text_of_lsText hrep hpath htext
    have hcount : nodes.length = es.length := by rw [← hnodes, List.length_map]
    rw [List.map_take, map_names hnodes, hlength, ← List.map_take] at hcomposed
    dsimp only at hlength
    refine ⟨by omega, fun old => ?_⟩
    rw [← Option.some.inj h, clientText_ls htext, hcomposed]
    rfl

/-- With a leftover length that leaves one line, the listing gets to its message. -/
theorem sent_one {e : Entry} {es : List Entry} (hhead : c.head = none)
    (hlisting : listing build disk path = .ok (e :: es)) (hmemory : ¬allocator.Fails)
    (hpath : 0 ∉ path)
    (hshort : path.length < 160) (hone : c.length + es.length = 0) (m : Memory) :
    ∃ msg, sent (cmdLsRun build allocator disk m ⟨c, cmdThreadStack, le_rfl⟩ path) = some msg := by
  obtain ⟨w, nodes, hrep, hnodes, hlength, hmessage⟩ :=
    @cmdLsFrom_headless path build allocator disk ⟨c, cmdThreadStack, le_rfl⟩ (e :: es) hhead
      hlisting hmemory m
  have hlist : w.list.length = 1 := by
    dsimp only [List.length_cons] at hlength
    omega
  have hvisited : w.list.length.toNat ≤ nodes.length := by
    rw [hlist, ← List.length_map (f := Prod.snd), hnodes]
    exact Nat.succ_le_succ (Nat.zero_le _)
  have hmsg : msgSize 1 = 768 := by decide
  have hname := e.short
  have hfits : (composed path (((e :: es).map Entry.name).take 1)).length < msgSize 1 := by
    simp only [maxNameLength] at hname
    simp [composed_length, hmsg]
    omega
  have htext : lsText w.memory w.list cmdThreadStack path =
      .ok (composed path (((e :: es).map Entry.name).take 1)) := by
    rw [lsText_eq hrep hpath _ hvisited, hlist, List.map_take, map_names hnodes]
    exact if_pos ⟨by decide, hfits⟩
  rw [sent_eq, hmessage, htext]
  exact ⟨_, rfl⟩

theorem nonempty_a : ascii "a" ≠ [] := by decide

theorem plain_a : 0 ∉ ascii "a" := by decide

theorem short_a : (ascii "a").length < maxNameLength := by decide

def fileA : Dirent := ⟨ascii "a", false, nonempty_a, plain_a, short_a⟩

/-- A directory with `k` files named `a`. -/
def filesNamedA (k : Nat) : Disk := ⟨fun _ => false, fun _ => .ok (List.replicate k fileA)⟩

theorem listing_filesNamedA (k : Nat) :
    ∃ e es, listing .module (filesNamedA k) (ascii "ux0:") = .ok (e :: es) ∧ es.length = k := by
  have hkept : keptDirents (List.replicate k fileA) = List.replicate k fileA := by
    have hdot : fileA.isDot = false := by decide
    simp [keptDirents, hdot]
  have hlisting : listing .module (filesNamedA k) (ascii "ux0:") = .ok (insertEach .module []
      (dirUpEntry :: (keptDirents (List.replicate k fileA)).map Dirent.entry)) :=
    if_neg (by decide)
  have hlength := (insertEach_perm .module []
    (dirUpEntry :: (keptDirents (List.replicate k fileA)).map Dirent.entry)).length_eq
  rw [hlisting]
  cases hes : insertEach .module []
      (dirUpEntry :: (keptDirents (List.replicate k fileA)).map Dirent.entry) with
  | nil => simp [hes] at hlength
  | cons e es =>
    refine ⟨e, es, rfl, ?_⟩
    rw [hes, hkept] at hlength
    simpa using hlength

/-- Two leftover lengths, of which one is not above 0, show different numbers of entries of some
directory. -/
theorem sent_ne (hhead : c.head = none) (hhead' : c'.head = none) (hle : c.length ≤ 0)
    (hlt : c.length < c'.length) :
    sent (cmdLsRun .module .behind (filesNamedA (-c.length).toNat) ∅ ⟨c, cmdThreadStack, le_rfl⟩
        (ascii "ux0:")) ≠
      sent (cmdLsRun .module .behind (filesNamedA (-c.length).toNat) ∅ ⟨c', cmdThreadStack, le_rfl⟩
        (ascii "ux0:")) := by
  have hpath : 0 ∉ ascii "ux0:" := by decide
  obtain ⟨e, es, hlisting, hcount⟩ := listing_filesNamedA (-c.length).toNat
  obtain ⟨msg, hsent⟩ := sent_one hhead hlisting behind_not_fails hpath (by decide) (by omega) ∅
  intro heq
  obtain ⟨-, hreceived⟩ := sent_shown hhead hlisting behind_not_fails hpath le_rfl hsent
  rw [hsent] at heq
  obtain ⟨hle', hreceived'⟩ := sent_shown hhead' hlisting behind_not_fails hpath le_rfl heq.symm
  have hone : shown c (e :: es) = [e.name] := by
    have hcut : (c.length + (e :: es).length).toNat = 1 := by
      rw [List.length_cons]
      omega
    rw [shown, hcut]
    rfl
  obtain ⟨name, names, hmore⟩ : ∃ name names, shown c' (e :: es) = e.name :: name :: names := by
    cases es with
    | nil =>
      rw [List.length_nil] at hcount
      omega
    | cons e' es =>
      rw [List.length_cons] at hcount
      obtain ⟨k, hk⟩ : ∃ k, (c'.length + (e :: e' :: es).length).toNat = k + 2 := by
        refine ⟨(c'.length + (e :: e' :: es).length).toNat - 2, ?_⟩
        simp only [List.length_cons]
        omega
      rw [shown, hk]
      exact ⟨_, _, rfl⟩
  have hsame := Option.some.inj ((hreceived msg).symm.trans (hreceived' msg))
  have hlength := congrArg List.length hsame
  have hname := e.short
  have hsize : (ascii "ux0:").length = 4 := by decide
  rw [hone, hmore] at hlength
  simp only [maxNameLength] at hname
  simp only [snprintf, List.length_take, List.length_append, composed_length,
    List.map_cons, List.map_nil, List.sum_cons, List.sum_nil, List.length_cons, List.length_nil,
    p2sKmsgSize, hsize] at hlength
  omega

/-! ### The contents that do not matter -/

/-- What `ls ux0:` does at `HOME_PATH`. -/
theorem LsIndependent.at_home (h : LsIndependent c c') (build : Build)
    (allocator : Allocator) (disk : Disk) (m : Memory) (hroom : room ≤ cmdThreadStack) :
    sent (cmdLsRun build allocator disk m ⟨c, room, hroom⟩ (ascii "ux0:")) =
        sent (cmdLsRun build allocator disk m ⟨c', room, hroom⟩ (ascii "ux0:")) ∧
      FreesOnlyAdded (cmdLsRun build allocator disk m ⟨c, room, hroom⟩ (ascii "ux0:")) ∧
      FreesOnlyAdded (cmdLsRun build allocator disk m ⟨c', room, hroom⟩ (ascii "ux0:")) := by
  have hhome : (Client.fileListAt Client.homePath).path.str = some Client.homePath := by
    decide +kernel
  have hcmd := Client.cmdLs_eq Client.bareEnvironment hhome (by decide : 0 ∉ ascii "ux0:")
  rw [if_pos (Or.inr (by decide))] at hcmd
  exact h _ _ _ _ _ hcmd rfl build allocator disk m room hroom

theorem LsIndependent.head (h : LsIndependent c c') : c.head = none ∧ c'.head = none := by
  obtain ⟨-, hfrees, hfrees'⟩ := h.at_home .module .behind ⟨fun _ => false, fun _ => .error (-1)⟩ ∅
    (Nat.zero_le _)
  constructor
  · by_contra hne
    obtain ⟨q, hq⟩ := Option.ne_none_iff_exists'.mp hne
    exact not_freesOnlyAdded hq (by decide) rfl (by decide) _ hfrees
  · by_contra hne
    obtain ⟨q, hq⟩ := Option.ne_none_iff_exists'.mp hne
    exact not_freesOnlyAdded hq (by decide) rfl (by decide) _ hfrees'

theorem LsIndependent.symm (h : LsIndependent c c') : LsIndependent c' c := by
  intro env fileList arg path done hcmd hacts build allocator disk m room hroom
  obtain ⟨hsent, hfrees, hfrees'⟩ :=
    h env fileList arg path done hcmd hacts build allocator disk m room hroom
  exact ⟨hsent.symm, hfrees', hfrees⟩

theorem LsIndependent.length_le (h : LsIndependent c c') (hle : c.length ≤ 0) :
    c'.length ≤ c.length := by
  by_contra hlt
  obtain ⟨hhead, hhead'⟩ := h.head
  exact sent_ne hhead hhead' hle (Int.not_le.mp hlt) (h.at_home _ _ _ _ _).1

/-- `ls` is independent of what its stack holds when this is a list without a head and of one
length, or of any lengths above 0, with which no listing is ever sent; and only then. -/
theorem ls_independent_iff (c c' : SFileList) :
    LsIndependent c c' ↔
      c.head = none ∧ c'.head = none ∧ (c.length = c'.length ∨ 0 < c.length ∧ 0 < c'.length) := by
  constructor
  · intro h
    refine ⟨h.head.1, h.head.2, ?_⟩
    by_cases hle : c.length ≤ 0
    · have hle' := h.length_le hle
      exact Or.inl (Int.le_antisymm (h.symm.length_le (hle'.trans hle)) hle')
    · by_cases hle' : c'.length ≤ 0
      · exact absurd ((h.symm.length_le hle').trans hle') hle
      · exact Or.inr ⟨Int.not_le.mp hle, Int.not_le.mp hle'⟩
  · rintro ⟨hhead, hhead', hlength⟩ env fileList arg path done - - build allocator disk m room hroom
    exact ⟨sent_eq_of_headless hhead hhead' hlength hroom, headless_freesOnlyAdded hhead hroom,
      headless_freesOnlyAdded hhead' hroom⟩

/-- An entry at the address 7. -/
def memoryAt7 : Memory := (∅ : Memory).insert 7 ⟨none, none, dirUpEntry⟩

/-- A leftover head is freed when the directory cannot be opened, and a leftover length of 1 stops
the listing of an empty directory. -/
theorem ls_leftover :
    (∃ w msg m, cmdLsRun .module .behind ⟨fun _ => false, fun _ => .error (-1)⟩ memoryAt7
        ⟨{ SFileList.cleared with head := some 7 }, 0, by decide⟩ (ascii "ux0:") = .ok (w, msg) ∧
      w.added = [] ∧ sFileListEmpty w.memory w.list = .ok (m, .cleared, [7])) ∧
    sent (cmdLsRun .module .behind ⟨fun _ => false, fun _ => .ok []⟩ ∅ (frameOf 0) (ascii "ux0:")) ≠
      sent (cmdLsRun .module .behind ⟨fun _ => false,
        fun _ => .ok []⟩ ∅ (frameOf 1) (ascii "ux0:")) ∧
    ¬LsIndependent .cleared { SFileList.cleared with head := some 7 } ∧
    ¬LsIndependent .cleared { SFileList.cleared with length := 1 } := by
  refine ⟨⟨_, _, _, rfl, rfl, rfl⟩, ?_, fun h => ?_, fun h => ?_⟩
  · exact @sent_ne .cleared { SFileList.cleared with length := 1 } rfl rfl le_rfl (by decide)
  · exact absurd h.head.2 (by decide)
  · exact absurd (h.length_le le_rfl) (by decide)

end Psp2Shell.Listing
