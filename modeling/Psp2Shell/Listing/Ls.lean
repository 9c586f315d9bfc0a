import Psp2Shell.CLib.Lines
import Psp2Shell.CLib.Strings
import Psp2Shell.Listing.Entries
import Psp2Shell.Msg.RoundTrip

/-! `cmd_ls` from its listing on: the text that it composes, on the way to the
client's `msg_thread`. -/

namespace Psp2Shell.Listing

open CLib File Msg

def newline : Byte := 10

def tab : Byte := 9

/-- The size of the stack of `cmd_thread`. -/
def cmdThreadStack : Nat := 0x5000

/-- What `cmd_ls` finds: what its stack holds where `fileList` lies, which it does not initialise,
and how much of the stack is left for `msg`. -/
structure Frame where
  fileList : SFileList
  room : Nat
  room_le : room ≤ cmdThreadStack

/-- `(size_t) (fileList.length * 256) + 512`. -/
def msgSize (length : Int) : Nat := ((length * 256 + 512) % 2 ^ 32).toNat

def dashes (path : List Byte) : List (List Byte) := List.replicate path.length (ascii "-")

/-- What the `strcat`s and the `sprintf` before the entries append. -/
def headerPieces (path : List Byte) : List (List Byte) :=
  [[newline, newline]] ++ dashes path ++ [[newline] ++ path ++ [newline]] ++
    dashes path ++ [[newline]]

/-- What the loop over `fileList.length` entries appends. -/
def entryPieces (m : Memory) : Nat → Option Addr → Except Fault (List (List Byte))
  | 0, _ => .ok []
  | i + 1, p => do
    let p ← found p
    let node ← found (m.lookup p)
    let pieces ← entryPieces m i node.next
    return [[tab].take 256, node.value.name.take 256, [newline].take 256] ++ pieces

/-- `strcat`s one after the other. -/
def strcatAll {n : Nat} (b : Buffer n) (pieces : List (List Byte)) : Option (Buffer n) :=
  pieces.foldlM Buffer.strcat b

/-- The text in `msg`. -/
def lsText (m : Memory) (list : SFileList) (room : Nat) (path : List Byte) :
    Except Fault (List Byte) := do
  let size := msgSize list.length
  if room < size then .error .overrun
  else
    let pieces ← entryPieces m list.length.toNat list.head
    match (strcatAll (Buffer.zero size) (headerPieces path ++ pieces)).bind Buffer.str with
    | some text => .ok text
    | none => .error .overrun

/-- `cmd_ls` from the listing of `path` on, up to the message that it prints. -/
def cmdLsFrom (build : Build) (allocator : Allocator) (disk : Disk) (m : Memory) (frame : Frame)
    (path : List Byte) : Except Fault P2sMsg := do
  let (w, res) ← sFileListGetEntries build allocator disk ⟨m, frame.fileList, []⟩ path
  if res < 0 then
    return psp2shellPrintColor .red (format (ascii "directory does not exist: %s\n") [.str path])
  else
    let msg ← lsText w.memory w.list frame.room path
    return psp2shellPrintColor .green (format (ascii "%s\n\n") [.str msg])

/-- Each name on a line of its own, behind a tab, and in this order. -/
def ShowsEach (names : List (List Byte)) (text : List Byte) : Prop :=
  (names.map fun name => tab :: name).Sublist (text.splitOn newline)

/-! ### The composed text -/

/-- The lines before those of the entries. -/
def header (path : List Byte) : List (List Byte) :=
  [[], [], List.replicate path.length 45, path, List.replicate path.length 45]

/-- A newline behind each line. -/
def ended (lines : List (List Byte)) : List Byte := lines.flatMap fun line => line ++ [newline]

def entryLines (names : List (List Byte)) : List (List Byte) := names.map fun name => tab :: name

/-- What `msg` holds for a list with these names. -/
def composed (path : List Byte) (names : List (List Byte)) : List Byte :=
  ended (header path) ++ ended (entryLines names)

theorem ended_length (lines : List (List Byte)) :
    (ended lines).length = (lines.map fun line => line.length + 1).sum := by
  simp [ended, List.length_flatMap]

theorem header_length (path : List Byte) : (ended (header path)).length = 5 + 3 * path.length := by
  simp only [ended_length, header, List.map_cons, List.map_nil, List.sum_cons, List.sum_nil,
    List.length_nil, List.length_replicate]
  omega

theorem entryLines_length (names : List (List Byte)) :
    (ended (entryLines names)).length = (names.map fun name => name.length + 2).sum := by
  rw [ended_length, entryLines, List.map_map]
  rfl

theorem composed_length (path : List Byte) (names : List (List Byte)) :
    (composed path names).length =
      5 + 3 * path.length + (names.map fun name => name.length + 2).sum := by
  rw [composed, List.length_append, header_length, entryLines_length]

theorem headerPieces_flatten (path : List Byte) :
    (headerPieces path).flatten = ended (header path) := by
  have hdash : ascii "-" = [45] := rfl
  have hdashes : (dashes path).flatten = List.replicate path.length 45 := by
    rw [dashes, hdash]
    induction path.length with
    | zero => rfl
    | succ n ih => simp [List.replicate_succ, ih]
  simp [headerPieces, hdashes, ended, header]

theorem nul_not_mem_headerPieces {path piece : List Byte} (hpath : 0 ∉ path)
    (h : piece ∈ headerPieces path) : 0 ∉ piece := by
  have hnewline : (0 : Byte) ≠ newline := by decide
  have hdash : 0 ∉ ascii "-" := by decide
  simp only [headerPieces, dashes, List.mem_append, List.mem_singleton, List.mem_replicate] at h
  rcases h with (((rfl | ⟨-, rfl⟩) | rfl) | ⟨-, rfl⟩) | rfl
  · simp [hnewline]
  · exact hdash
  · simp [hpath, hnewline]
  · exact hdash
  · simp [hnewline]

theorem strcatAll_str {n : Nat} {b : Buffer n} {s : List Byte} (h : b.str = some s)
    {pieces : List (List Byte)} (hpieces : ∀ piece ∈ pieces, 0 ∉ piece) :
    (strcatAll b pieces).bind Buffer.str =
      if (s ++ pieces.flatten).length < n then some (s ++ pieces.flatten) else none := by
  induction pieces generalizing b s with
  | nil =>
    have hlen := (Buffer.str_eq_some h).2.1
    simp [strcatAll, h, hlen]
  | cons piece pieces ih =>
    have hpiece := hpieces piece List.mem_cons_self
    have hstep : strcatAll b (piece :: pieces) = (b.strcat piece).bind (strcatAll · pieces) := rfl
    rw [hstep]
    cases hcat : b.strcat piece with
    | none =>
      have hroom : ¬s.length + piece.length < n := by
        rw [← Buffer.strcat_isSome h, hcat]
        simp
      rw [if_neg (by simp; omega)]
      rfl
    | some c =>
      have hc := Buffer.str_strcat h hpiece hcat
      rw [Option.bind_some, ih hc fun p hp => hpieces p (List.mem_cons_of_mem piece hp)]
      simp [List.append_assoc]

/-- `strcat`s to an empty object. -/
theorem strcatAll_zero (n : Nat) {pieces : List (List Byte)} (hne : pieces ≠ [])
    (hpieces : ∀ piece ∈ pieces, 0 ∉ piece) :
    (strcatAll (Buffer.zero n) pieces).bind Buffer.str =
      if pieces.flatten.length < n then some pieces.flatten else none := by
  cases n with
  | zero =>
    obtain ⟨piece, pieces, rfl⟩ := List.exists_cons_of_ne_nil hne
    rfl
  | succ n =>
    have hempty : (Buffer.zero (n + 1)).str = some [] :=
      Buffer.str_of_bytes (List.replicate n 0) (by simp) rfl
    exact strcatAll_str hempty hpieces

variable {m : Memory} {nodes : List (Addr × Entry)} {before : Option Addr}

theorem entryPieces_ok (h : Chain m before nodes none) {i : Nat} (hi : i ≤ nodes.length) :
    ∃ pieces, entryPieces m i (first nodes none) = .ok pieces ∧
      pieces.flatten = ended (entryLines ((nodes.take i).map fun x => x.2.name)) ∧
      ∀ piece ∈ pieces, 0 ∉ piece := by
  induction nodes generalizing i before with
  | nil =>
    rw [List.length_nil, Nat.le_zero] at hi
    subst hi
    exact ⟨[], rfl, rfl, by simp⟩
  | cons x nodes ih =>
    obtain ⟨p, e⟩ := x
    obtain ⟨hp, htail⟩ := h
    cases i with
    | zero => exact ⟨[], rfl, rfl, by simp⟩
    | succ i =>
      obtain ⟨pieces, hpieces, hflatten, hnul⟩ := ih htail (Nat.le_of_succ_le_succ hi)
      have hname : e.name.take 256 = e.name := List.take_of_length_le e.short.le
      refine ⟨[[tab], e.name, [newline]] ++ pieces, ?_, ?_, ?_⟩
      · simp [entryPieces, hp, found, hpieces, hname, bind, Except.bind, pure, Except.pure]
      · simp [hflatten, ended, entryLines]
      · intro piece hpiece
        simp only [List.cons_append, List.nil_append, List.mem_cons] at hpiece
        rcases hpiece with rfl | rfl | rfl | hpiece
        · decide
        · exact e.plain
        · decide
        · exact hnul piece hpiece

/-- A loop that is longer than the list follows NULL. -/
theorem entryPieces_dangling (h : Chain m before nodes none) {i : Nat} (hi : nodes.length < i) :
    entryPieces m i (first nodes none) = .error .dangling := by
  induction nodes generalizing i before with
  | nil =>
    obtain ⟨i, rfl⟩ := Nat.exists_eq_add_one.mpr hi
    rfl
  | cons x nodes ih =>
    obtain ⟨p, e⟩ := x
    obtain ⟨hp, htail⟩ := h
    obtain ⟨i, rfl⟩ := Nat.exists_eq_add_one.mpr (Nat.lt_of_le_of_lt (Nat.zero_le _) hi)
    have hrest := ih htail (Nat.lt_of_succ_lt_succ hi)
    simp [entryPieces, hp, found, hrest, bind, Except.bind]

/-- What the loop over a list hands to `strcat`, with the head of the message: the message as a
whole, where `msg` has room for it. -/
theorem strcatAll_composed {list : SFileList} (h : Represents m list nodes) {path : List Byte}
    (hpath : 0 ∉ path) {i : Nat} (hi : i ≤ nodes.length) (size : Nat) :
    ∃ pieces, entryPieces m i list.head = .ok pieces ∧
      (strcatAll (Buffer.zero size) (headerPieces path ++ pieces)).bind Buffer.str =
        if (composed path ((nodes.take i).map fun x => x.2.name)).length < size then
          some (composed path ((nodes.take i).map fun x => x.2.name))
        else none := by
  obtain ⟨pieces, hpieces, hflatten, hnul⟩ := entryPieces_ok h.chain hi
  have hall : ∀ piece ∈ headerPieces path ++ pieces, 0 ∉ piece := by
    intro piece hpiece
    rcases List.mem_append.mp hpiece with hpiece | hpiece
    · exact nul_not_mem_headerPieces hpath hpiece
    · exact hnul piece hpiece
  have hstr := strcatAll_zero size (by simp [headerPieces]) hall
  rw [List.flatten_append, headerPieces_flatten, hflatten, ← composed] at hstr
  exact ⟨pieces, by rw [h.head, hpieces], hstr⟩

theorem lsText_eq {list : SFileList} (h : Represents m list nodes) {path : List Byte}
    (hpath : 0 ∉ path) (room : Nat) (hlength : list.length.toNat ≤ nodes.length) :
    lsText m list room path =
      if msgSize list.length ≤ room ∧
          (composed path ((nodes.take list.length.toNat).map fun x => x.2.name)).length <
            msgSize list.length then
        .ok (composed path ((nodes.take list.length.toNat).map fun x => x.2.name))
      else .error .overrun := by
  obtain ⟨pieces, hpieces, hstr⟩ := strcatAll_composed h hpath hlength (msgSize list.length)
  unfold lsText
  by_cases hroom : room < msgSize list.length
  · rw [if_pos hroom, if_neg (by omega)]
  · rw [if_neg hroom, hpieces]
    simp only [bind, Except.bind, hstr, Nat.not_lt.mp hroom, true_and]
    split_ifs <;> rfl

theorem nul_not_mem_lsText {list : SFileList} {room : Nat} {path text : List Byte}
    (h : lsText m list room path = .ok text) : 0 ∉ text := by
  by_cases hroom : room < msgSize list.length
  · rw [lsText, if_pos hroom] at h
    cases h
  · rw [lsText, if_neg hroom] at h
    cases hpieces : entryPieces m list.length.toNat list.head with
    | error fault =>
      rw [hpieces] at h
      cases h
    | ok pieces =>
      rw [hpieces] at h
      simp only [bind, Except.bind] at h
      split at h
      · next text' htext =>
        cases h
        obtain ⟨b, -, hstr⟩ := Option.bind_eq_some_iff.mp htext
        exact (Buffer.str_eq_some hstr).1
      · cases h

/-! ### What is shown -/

variable {path : List Byte} {names printed : List (List Byte)}

def startsWithTab (line : List Byte) : Bool := line.head? = some tab

theorem newline_not_mem_header (hpath : newline ∉ path) {line : List Byte}
    (hline : line ∈ header path) :
    newline ∉ line := by
  have hdash : (45 : Byte) ≠ newline := by decide
  simp only [header, List.mem_cons, List.not_mem_nil, or_false] at hline
  rcases hline with rfl | rfl | rfl | rfl | rfl
  · simp
  · simp
  · simp [hdash.symm]
  · exact hpath
  · simp [hdash.symm]

theorem filter_header (htab : path.head? ≠ some tab) :
    (header path).filter startsWithTab = [] := by
  have hdashes : startsWithTab (List.replicate path.length 45) = false := by
    cases path with
    | nil => rfl
    | cons b path => rfl
  have hpath : startsWithTab path = false := by simp [startsWithTab, htab]
  have hempty : startsWithTab [] = false := rfl
  simp only [header, List.filter_cons, hempty, hdashes, hpath, Bool.false_eq_true, if_false,
    List.filter_nil]

theorem filter_entryLines (names : List (List Byte)) :
    (entryLines names).filter startsWithTab = entryLines names := by
  rw [List.filter_eq_self]
  intro line hline
  obtain ⟨name, -, rfl⟩ := List.mem_map.mp hline
  simp [startsWithTab]

theorem newline_not_mem_entryLines (hnames : ∀ name ∈ names, newline ∉ name) {line : List Byte}
    (hline : line ∈ entryLines names) : newline ∉ line := by
  obtain ⟨name, hname, rfl⟩ := List.mem_map.mp hline
  have htab : newline ≠ tab := by decide
  simp [htab, hnames name hname]

/-- The lines of the entries are found behind the header. -/
theorem shows_behind_header (hpath : newline ∉ path) (htab : path.head? ≠ some tab)
    (rest : List Byte) :
    ShowsEach names (ended (header path) ++ rest) ↔ ShowsEach names rest := by
  unfold ShowsEach
  rw [ended, splitOn_flatMap (fun line hline => newline_not_mem_header hpath hline)]
  constructor
  · intro h
    have hfilter := h.filter startsWithTab
    rw [List.filter_append, filter_header htab, List.nil_append] at hfilter
    have hlines := filter_entryLines names
    rw [entryLines] at hlines
    rw [hlines] at hfilter
    exact hfilter.trans List.filter_sublist
  · exact fun h => h.trans (List.sublist_append_right _ _)

/-- Shown names have no newline. -/
theorem ShowsEach.plain {text : List Byte} (h : ShowsEach names text) {name : List Byte}
    (hname : name ∈ names) : newline ∉ name := by
  have hline := h.subset (List.mem_map_of_mem hname)
  exact fun hmem => not_mem_of_mem_splitOn hline (List.mem_cons_of_mem tab hmem)

/-- A text that shows names has room for their lines. -/
theorem ShowsEach.sum_le {text : List Byte} (h : ShowsEach names text) :
    (names.map fun name => name.length + 2).sum ≤ text.length + 1 := by
  have hsum := (h.map fun line => line.length + 1).sum_le_sum fun _ _ => Nat.zero_le _
  rw [List.map_map, sum_splitOn] at hsum
  exact hsum

/-- The first bytes of some entries' lines do not show more names than there are lines. -/
theorem ShowsEach.length_le {count : Nat} (hprinted : ∀ name ∈ printed, newline ∉ name)
    (h : ShowsEach names ((ended (entryLines printed) ++ [newline, newline]).take count)) :
    names.length ≤ printed.length := by
  have hlines : ∀ line ∈ entryLines printed, newline ∉ line := fun _ hline =>
    newline_not_mem_entryLines hprinted hline
  have htab : ∀ l l', startsWithTab l = true → startsWithTab (l ++ l') = true := by
    intro l l' hl
    cases l with
    | nil => cases hl
    | cons b l => exact hl
  have hcount : names.length ≤
    (((ended (entryLines printed) ++ [newline, newline]).take count).splitOn
      newline).countP startsWithTab := by
    rw [List.countP_eq_length_filter, ← List.length_map (f := fun name => tab :: name)]
    have hfilter := (h.filter startsWithTab).length_le
    rwa [← entryLines, filter_entryLines] at hfilter
  refine hcount.trans ((countP_splitOn_le startsWithTab htab _
    ((ended (entryLines printed) ++ [newline, newline]).drop count)).trans ?_)
  rw [List.take_append_drop, ended, splitOn_flatMap hlines, List.countP_append,
    List.countP_eq_length_filter, filter_entryLines, entryLines, List.length_map]
  exact Nat.le_of_eq rfl

/-- What of the composed text passes `vsnprintf` and shows all names. -/
theorem fits_of_shows (hpath : newline ∉ path) (htab : path.head? ≠ some tab)
    (hlen : path.length < maxPathLength) (hstart : printed <+: names)
    (h : ShowsEach names (snprintf p2sKmsgSize (composed path printed ++ [newline, newline]))) :
    names.length ≤ printed.length ∧ (composed path names).length ≤ p2sKmsgSize := by
  have hheader := header_length path
  have hroom : (ended (header path)).length ≤ p2sKmsgSize - 1 := by
    simp only [p2sKmsgSize, maxPathLength] at *
    omega
  rw [snprintf, composed, List.append_assoc, List.take_append, List.take_of_length_le hroom,
    shows_behind_header hpath htab] at h
  refine ⟨h.length_le fun name hname => h.plain (hstart.subset hname), ?_⟩
  have hsum := h.sum_le
  have htake := List.length_take_le (p2sKmsgSize - 1 - (ended (header path)).length)
    (ended (entryLines printed) ++ [newline, newline])
  rw [composed_length]
  simp only [p2sKmsgSize] at *
  omega

/-- A line is shown, whether its newline is or not. -/
theorem last_line_shown {line : List Byte} (hline : newline ∉ line) (count : Nat)
    (rest : List Byte) :
    [line].Sublist ((line ++ (newline :: rest).take count).splitOn newline) := by
  cases count with
  | zero => simp [List.splitOn_eq_singleton hline]
  | succ count =>
    rw [List.take_succ_cons, List.splitOn_append_cons_self_of_not_mem hline]
    exact List.singleton_sublist.mpr List.mem_cons_self

/-- When all but the last newline pass `vsnprintf`, every name is shown. -/
theorem shows_of_fits (hpath : newline ∉ path) (hnames : ∀ name ∈ names, newline ∉ name)
    (hfit : (composed path names).length ≤ p2sKmsgSize) :
    ShowsEach names (snprintf p2sKmsgSize (composed path names ++ [newline, newline])) := by
  rcases List.eq_nil_or_concat names with rfl | ⟨init, name, rfl⟩
  · exact List.nil_sublist _
  · rw [List.concat_eq_append] at *
    have hentry : ∀ line ∈ entryLines (init ++ [name]), newline ∉ line := fun _ hline =>
      newline_not_mem_entryLines hnames hline
    rw [entryLines, List.map_append, List.forall_mem_append] at hentry
    have hlines : ∀ line ∈ header path ++ entryLines init, newline ∉ line := by
      intro line hline
      rcases List.mem_append.mp hline with hline | hline
      · exact newline_not_mem_header hpath hline
      · exact hentry.1 line hline
    have hline : newline ∉ tab :: name := hentry.2 _ List.mem_cons_self
    have hsplit : composed path (init ++ [name]) ++ [newline, newline] =
        ended (header path ++ entryLines init) ++
          ((tab :: name) ++ [newline, newline, newline]) := by
      simp [composed, ended, entryLines]
    have hcut : (ended (header path ++ entryLines init)).length + (tab :: name).length ≤
        p2sKmsgSize - 1 := by
      have hlength := congrArg List.length hsplit
      simp only [List.length_append, List.length_cons, List.length_nil] at hlength hfit ⊢
      omega
    rw [hsplit, snprintf, List.take_append, List.take_of_length_le (by omega), List.take_append,
      List.take_of_length_le (by omega), ShowsEach, ended, splitOn_flatMap hlines, List.map_append]
    exact (List.sublist_append_right _ _).append (last_line_shown hline _ _)

/-! ### The command -/

variable {build : Build} {allocator : Allocator} {disk : Disk} {frame : Frame} {es : List Entry}

/-- The message of a listing starts from an empty list when `fileList` happens to have no head. -/
theorem cmdLsFrom_headless (hhead : frame.fileList.head = none)
    (hlisting : listing build disk path = .ok es) (hmemory : ¬allocator.Fails) (m : Memory) :
    ∃ (w : World) (nodes : List (Addr × Entry)), Represents w.memory w.list nodes ∧
      nodes.map Prod.snd = es ∧
      w.list.length = frame.fileList.length + es.length ∧
      cmdLsFrom build allocator disk m frame path = (lsText w.memory w.list frame.room path).map
        fun msg => psp2shellPrintColor .green (msg ++ [newline, newline]) := by
  obtain ⟨⟨w, res⟩, hentries, hres, files, folders, hholds⟩ :=
    (getEntries_holds hhead m allocator hlisting).returns hmemory
  obtain ⟨⟨nodes, hrep, hnodes, -⟩, hlength, -, -⟩ := hholds
  refine ⟨w, nodes, hrep, hnodes, hlength, ?_⟩
  have hformat : ∀ msg, format (ascii "%s\n\n") [.str msg] = msg ++ [newline, newline] := by
    intro msg
    simp [format, ascii, newline]
  simp only at hres
  subst hres
  simp only [cmdLsFrom, hentries, bind, Except.bind, hformat]
  cases lsText w.memory w.list frame.room path <;> rfl

/-- A head that points to no entry is followed when the first entry is added. -/
theorem addNew_stray {w : World} {q : Addr} (hhead : w.list.head = some q) (hlive : q ∉ w.memory)
    (hfresh : ∀ m, allocator.block m ≠ some q) (hmemory : ¬allocator.Fails)
    (build : Build) (e : Entry) :
    addNew build allocator .sortByNameAndFolder w e = .error .dangling := by
  cases hblock : allocator.block w.memory with
  | none => exact (hmemory ⟨w.memory, hblock⟩).elim
  | some p =>
    have hne : q ≠ p := fun heq => hfresh w.memory (heq ▸ hblock)
    obtain ⟨m₀, m₁, hnext, hprevious, hp, hsame⟩ := unlinked (m := w.memory.insert p
      ⟨(allocator.residue w.memory).1, (allocator.residue w.memory).2, e⟩) (Finmap.lookup_insert _)
    have hq : m₁.lookup q = none := by
      rw [hsame q hne, Finmap.lookup_insert_of_ne _ hne, Finmap.lookup_eq_none]
      exact hlive
    have hscan : scan build m₁ e m₁.keys.card none (some q) = .error .dangling := by
      obtain ⟨bound, hbound⟩ := Nat.exists_eq_add_one.mpr
        (Finset.card_pos.mpr ⟨p, Finmap.mem_keys.mpr (Finmap.mem_of_lookup_eq_some hp)⟩)
      rw [hbound]
      simp only [scan, hq, found, bind, Except.bind]
    simp [addNew, hblock, sFileListAddEntry, hnext, hprevious, hhead, insertSorted, hp,
      hscan, found, bind, Except.bind]

theorem cmdLsFrom_stray {q : Addr} (hhead : frame.fileList.head = some q) (hlive : q ∉ m)
    (hfresh : ∀ m, allocator.block m ≠ some q) (hmemory : ¬allocator.Fails)
    (hlisting : listing build disk path = .ok es) (hne : es ≠ []) :
    cmdLsFrom build allocator disk m frame path = .error .dangling := by
  have hadd : ∀ e, addNew build allocator .sortByNameAndFolder ⟨m, frame.fileList, []⟩ e =
      .error .dangling := addNew_stray hhead hlive hfresh hmemory build
  have hentries : sFileListGetEntries build allocator disk ⟨m, frame.fileList, []⟩ path =
      .error .dangling := by
    unfold listing at hlisting
    unfold sFileListGetEntries
    split at hlisting
    · next hhome =>
      rw [if_pos hhome, sFileListGetMountPointEntries]
      cases hnames : mountPoints.attach.filter fun name => disk.mounted name.1 with
      | nil =>
        rw [mountedEntries, hnames] at hlisting
        exact (hne (Except.ok.inj hlisting).symm).elim
      | cons name names =>
        rw [List.foldlM_cons, addMountPoint, hadd]
        rfl
    · next hhome =>
      rw [if_neg hhome, sFileListGetDirectoryEntries]
      cases hopen : disk.directory path with
      | error dfd =>
        rw [hopen] at hlisting
        cases hlisting
      | ok dirents =>
        simp only [hadd]
        rfl
  simp only [cmdLsFrom, hentries]
  rfl

/-- The client's `msg_thread` has a text with every name, whatever its message variable held. -/
def LsShows (build : Build) (allocator : Allocator) (disk : Disk) (m : Memory) (frame : Frame)
    (path : List Byte) (names : List (List Byte)) : Prop :=
  ∃ sent, cmdLsFrom build allocator disk m frame path = .ok sent ∧
    ∀ old, ∃ text, clientText old sent = some text ∧ ShowsEach names text

/-- The bytes of the composed text. -/
def lsSize (path : List Byte) (names : List (List Byte)) : Nat :=
  5 + 3 * path.length + (names.map fun name => name.length + 2).sum

/-- The stack holds an empty list, no name has a newline, and the text fits in `msg`, `msg` on the
stack, and the text in a message but for its last newline. -/
structure LsFits (frame : Frame) (path : List Byte) (names : List (List Byte)) : Prop where
  head : frame.fileList.head = none
  length : frame.fileList.length = 0
  plain : ∀ name ∈ names, newline ∉ name
  stack : msgSize names.length ≤ frame.room
  msg : lsSize path names < msgSize names.length
  message : lsSize path names ≤ p2sKmsgSize

/-- A loop that is longer than the list composes no text. -/
theorem lsText_past {list : SFileList} (h : Represents m list nodes)
    (hlength : nodes.length < list.length.toNat) (room : Nat) (path : List Byte) :
    ∃ fault, lsText m list room path = .error fault := by
  have hdangling := entryPieces_dangling h.chain hlength
  rw [← h.head] at hdangling
  unfold lsText
  simp only [hdangling]
  split
  · exact ⟨.overrun, rfl⟩
  · exact ⟨.dangling, rfl⟩

/-- A text that has been composed is that of the entries that the loop has visited. -/
theorem text_of_lsText {list : SFileList} (h : Represents m list nodes)
    (hpath : 0 ∉ path) {room : Nat} {text : List Byte}
    (htext : lsText m list room path = .ok text) :
    list.length.toNat ≤ nodes.length ∧ msgSize list.length ≤ room ∧
      text.length < msgSize list.length ∧
      text = composed path ((nodes.take list.length.toNat).map fun x => x.2.name) := by
  by_cases hlength : list.length.toNat ≤ nodes.length
  · rw [lsText_eq h hpath room hlength] at htext
    split_ifs at htext with hfits
    have heq := Except.ok.inj htext
    exact ⟨hlength, hfits.1, heq ▸ hfits.2, heq.symm⟩
  · obtain ⟨fault, hfault⟩ := lsText_past h (Nat.lt_of_not_le hlength) room path
    rw [hfault] at htext
    cases htext

theorem map_names (hnodes : nodes.map Prod.snd = es) :
    nodes.map (fun x => x.2.name) = es.map Entry.name := by
  rw [← hnodes, List.map_map]
  rfl

/-- What arrives of a composed text. -/
theorem clientText_ls {list : SFileList} {room : Nat} {text : List Byte}
    (htext : lsText m list room path = .ok text) (old : P2sMsg) :
    clientText old (psp2shellPrintColor .green (text ++ [newline, newline])) =
      some (snprintf p2sKmsgSize (text ++ [newline, newline])) := by
  refine clientText_print old .green (by simp) fun h => ?_
  rcases List.mem_append.mp h with h | h
  · exact nul_not_mem_lsText htext h
  · exact absurd h (by decide)

theorem fits_of_lsShows (hpath : 0 ∉ path) (hlen : path.length < maxPathLength)
    (hline : newline ∉ path) (htab : path.head? ≠ some tab)
    (hlisting : listing build disk path = .ok es) (hne : es ≠ []) (hmemory : ¬allocator.Fails)
    (hstray : ∀ q, frame.fileList.head = some q → q ∉ m ∧ ∀ m, allocator.block m ≠ some q)
    (h : LsShows build allocator disk m frame path (es.map Entry.name)) :
    LsFits frame path (es.map Entry.name) := by
  obtain ⟨sent, hsent, hshows⟩ := h
  cases hhead : frame.fileList.head with
  | some q =>
    obtain ⟨hlive, hfresh⟩ := hstray q hhead
    rw [cmdLsFrom_stray hhead hlive hfresh hmemory hlisting hne] at hsent
    cases hsent
  | none =>
    obtain ⟨w, nodes, hrep, hnodes, hlength, hmessage⟩ :=
      cmdLsFrom_headless hhead hlisting hmemory m
    rw [hmessage] at hsent
    cases htext : lsText w.memory w.list frame.room path with
    | error fault =>
      rw [htext] at hsent
      cases hsent
    | ok text =>
      rw [htext] at hsent
      obtain ⟨received, hreceived, hshown⟩ := hshows (psp2shellPrintColor .green [])
      rw [← Except.ok.inj hsent, clientText_ls htext] at hreceived
      rw [← Option.some.inj hreceived] at hshown
      obtain ⟨hvisited, hstack, hfits, rfl⟩ := text_of_lsText hrep hpath htext
      have hnames := map_names hnodes
      have hcount : nodes.length = es.length := by rw [← hnodes, List.length_map]
      rw [List.map_take, hnames] at hshown hfits
      obtain ⟨hall, hsize⟩ := fits_of_shows hline htab hlen (List.take_prefix _ _) hshown
      rw [List.length_take, List.length_map] at hall
      have hpos := List.length_pos_iff.mpr hne
      have hwhole : frame.fileList.length = 0 := by omega
      have htake : w.list.length.toNat = (es.map Entry.name).length := by
        rw [List.length_map]
        omega
      have hlist : w.list.length = (es.map Entry.name).length := by
        rw [List.length_map]
        omega
      rw [htake, List.take_length, composed_length, hlist] at hfits
      rw [hlist] at hstack
      rw [composed_length] at hsize
      exact ⟨hhead, hwhole, fun name hname => hshown.plain hname, hstack, hfits, hsize⟩

theorem lsShows_of_fits (hpath : 0 ∉ path) (hline : newline ∉ path)
    (hlisting : listing build disk path = .ok es) (hmemory : ¬allocator.Fails)
    (h : LsFits frame path (es.map Entry.name)) :
    LsShows build allocator disk m frame path (es.map Entry.name) := by
  obtain ⟨w, nodes, hrep, hnodes, hlength, hmessage⟩ := cmdLsFrom_headless h.head hlisting hmemory m
  have hnames := map_names hnodes
  have hcount : nodes.length = es.length := by rw [← hnodes, List.length_map]
  have hlist : w.list.length = (es.map Entry.name).length := by
    rw [hlength, h.length, List.length_map]
    omega
  have htext : lsText w.memory w.list frame.room path =
      .ok (composed path (es.map Entry.name)) := by
    have htoNat : w.list.length.toNat = nodes.length := by
      rw [hlist, List.length_map]
      omega
    rw [lsText_eq hrep hpath frame.room htoNat.le, htoNat, List.take_length, hnames,
      composed_length, hlist]
    exact if_pos ⟨h.stack, h.msg⟩
  rw [htext] at hmessage
  refine ⟨_, hmessage, fun old => ⟨_, clientText_ls htext old, ?_⟩⟩
  exact shows_of_fits hline h.plain (by rw [composed_length]; exact h.message)

/-- A listing that is not empty is shown when its text fits, and only then. -/
theorem ls_shows_iff (hpath : 0 ∉ path) (hlen : path.length < maxPathLength)
    (hline : newline ∉ path) (htab : path.head? ≠ some tab)
    (hlisting : listing build disk path = .ok es) (hne : es ≠ [])
    (hmemory : ¬allocator.Fails)
    (hstray : ∀ q, frame.fileList.head = some q → q ∉ m ∧ ∀ m, allocator.block m ≠ some q) :
    LsShows build allocator disk m frame path (es.map Entry.name) ↔
      LsFits frame path (es.map Entry.name) :=
  ⟨fits_of_lsShows hpath hlen hline htab hlisting hne hmemory hstray,
    lsShows_of_fits hpath hline hlisting hmemory⟩

theorem behind_not_fails : ¬Allocator.behind.Fails := by
  rintro ⟨m, hm⟩
  cases hm

/-- A frame whose stack happens to hold an empty list, of this length. -/
def frameOf (length : Int) : Frame :=
  ⟨{ SFileList.cleared with length := length }, cmdThreadStack, le_rfl⟩

theorem frameOf_headless (length : Int) (m : Memory) (allocator : Allocator) (q : Addr)
    (h : (frameOf length).fileList.head = some q) : q ∉ m ∧ ∀ m, allocator.block m ≠ some q := by
  cases h

/-- A directory with the file `a`. -/
theorem ls_shows_one :
    LsShows .module .behind ⟨fun _ => false, fun _ =>
        .ok [⟨ascii "a", false, by decide, by decide, by decide⟩]⟩ ∅ (frameOf 0) (ascii "ux0:")
      [ascii "..", ascii "a"] :=
  have hlisting : listing .module ⟨fun _ => false, fun _ =>
      .ok [⟨ascii "a", false, by decide, by decide, by decide⟩]⟩ (ascii "ux0:") =
      .ok [dirUpEntry, ⟨ascii "a", 0, by decide, by decide, by decide⟩] := rfl
  (ls_shows_iff (by decide) (by decide) (by decide) (by decide) hlisting (by simp) behind_not_fails
    (frameOf_headless _ _ _)).mpr ⟨rfl, rfl, by decide, by decide, by decide, by decide⟩

/-- A name of 205 bytes. -/
def longName (i : Fin 20) : Dirent where
  name := UInt8.ofNat (97 + i.val) :: List.replicate 204 97
  isDir := false
  nonempty := by simp
  plain := by
    have hfirst : ∀ i : Fin 20, 0 ≠ UInt8.ofNat (97 + i.val) := by decide
    rw [List.mem_cons, List.mem_replicate, not_or]
    exact ⟨hfirst i, fun h => absurd h.2 (by decide)⟩
  short := by
    rw [List.length_cons, List.length_replicate]
    decide

def longNames : Disk := ⟨fun _ => false, fun _ => .ok ((List.finRange 20).map longName)⟩

/-- Twenty long names do not fit, and a leftover length makes the loop go past the last entry. -/
theorem ls_incomplete :
    (∃ es, listing .module longNames (ascii "ux0:") = .ok es ∧
      ¬LsShows .module .behind longNames ∅ (frameOf 0) (ascii "ux0:") (es.map Entry.name)) ∧
    ∃ es, listing .module ⟨fun _ => false, fun _ => .ok []⟩ (ascii "ux0:") = .ok es ∧
      ¬LsShows .module .behind ⟨fun _ => false, fun _ => .ok []⟩ ∅ (frameOf 1) (ascii "ux0:")
        (es.map Entry.name) := by
  constructor
  · refine ⟨_, rfl, fun h => ?_⟩
    have hne := listing_ne_nil .module longNames (ascii "ux0:") rfl rfl rfl
    have hfits := fits_of_lsShows (by decide) (by decide) (by decide) (by decide) rfl hne
      behind_not_fails (frameOf_headless _ _ _) h
    exact absurd hfits.message (by decide +kernel)
  · refine ⟨_, rfl, fun h => ?_⟩
    have hne := listing_ne_nil .module ⟨fun _ => false, fun _ => .ok []⟩ (ascii "ux0:") rfl rfl rfl
    have hfits := fits_of_lsShows (by decide) (by decide) (by decide) (by decide) rfl hne
      behind_not_fails (frameOf_headless _ _ _) h
    exact absurd hfits.length (by decide)

end Psp2Shell.Listing
