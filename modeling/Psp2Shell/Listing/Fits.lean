import Psp2Shell.Listing.Ls

/-! Which listings' texts fit in the `msg` of `cmd_ls`. -/

namespace Psp2Shell.Listing

open CLib File

/-- The loop over the entries follows no stray pointer, and no `strcat`, `strncat` or `sprintf`
stores past `msg`, which then holds a text with its NUL. -/
def StaysInMsg (w : World) (path : List Byte) : Prop :=
  ∃ pieces b text, entryPieces w.memory w.list.length.toNat w.list.head = .ok pieces ∧
    strcatAll (Buffer.zero (msgSize w.list.length)) (headerPieces path ++ pieces) = some b ∧
    b.str = some text ∧ text.length + 1 ≤ msgSize w.list.length

/-- Three copies of the path, and each name with its tab and newline, behind five newlines. -/
def MsgHolds (path : List Byte) (es : List Entry) : Prop :=
  3 * path.length + (es.map fun e => e.name.length + 2).sum + 5 < (256 * es.length + 512) % 2 ^ 32

instance (path : List Byte) (es : List Entry) : Decidable (MsgHolds path es) :=
  inferInstanceAs (Decidable (_ < _))

theorem sum_names (es : List Entry) :
    (es.map fun e => e.name.length + 2).sum =
      (es.map fun e => e.name.length).sum + 2 * es.length := by
  induction es with
  | nil => rfl
  | cons e es ih =>
    simp only [List.map_cons, List.sum_cons, List.length_cons, ih]
    omega

/-- As long as `msg_size` does not wrap, an entry has 254 bytes for its name,
and the rest shares 506. -/
theorem msgHolds_iff {es : List Entry} (path : List Byte) (hwrap : es.length < 2 ^ 24 - 2) :
    MsgHolds path es ↔ 3 * path.length + (es.map fun e => e.name.length).sum ≤
      254 * es.length + 506 := by
  unfold MsgHolds
  rw [sum_names, Nat.mod_eq_of_lt (by omega)]
  omega

theorem msgSize_natCast (n : Nat) : msgSize n = (256 * n + 512) % 2 ^ 32 := by
  unfold msgSize
  omega

theorem listing_perm {build : Build} {disk : Disk} {path : List Byte} {es : List Entry}
    (h : entriesFound build disk path = some es) :
    ∃ es', listing build disk path = .ok es' ∧ es'.Perm es := by
  unfold entriesFound at h
  unfold listing
  split at h
  · next hhome =>
    rw [if_pos hhome, ← Option.some.inj h]
    exact ⟨_, rfl, insertEach_perm build [] _⟩
  · next hhome =>
    rw [if_neg hhome]
    cases hopen : disk.directory path with
    | error dfd =>
      rw [hopen] at h
      cases h
    | ok dirents =>
      rw [hopen] at h
      rw [← Option.some.inj h]
      exact ⟨_, rfl, insertEach_perm build [] _⟩

variable {build : Build} {allocator : Allocator} {disk : Disk} {m : Memory}
  {path : List Byte} {w : World} {nodes : List (Addr × Entry)} {es : List Entry} {res : Int}

theorem staysInMsg_iff (h : Represents w.memory w.list nodes)
    (hlength : w.list.length = nodes.length) (hpath : 0 ∉ path) :
    StaysInMsg w path ↔
      (composed path (nodes.map fun x => x.2.name)).length < msgSize w.list.length := by
  have htoNat : w.list.length.toNat = nodes.length := by omega
  obtain ⟨pieces, hpieces, hstr⟩ := strcatAll_composed h hpath le_rfl (msgSize w.list.length)
  rw [List.take_length] at hstr
  unfold StaysInMsg
  rw [htoNat, hpieces]
  constructor
  · rintro ⟨pieces', b, text, heq, hcat, htext, hsize⟩
    cases heq
    rw [hcat, Option.bind_some, htext] at hstr
    by_contra hlt
    rw [if_neg hlt] at hstr
    cases hstr
  · intro hlt
    rw [if_pos hlt] at hstr
    obtain ⟨b, hcat, htext⟩ := Option.bind_eq_some_iff.mp hstr
    exact ⟨pieces, b, _, rfl, hcat, htext, hlt⟩

/-- What a listing of an initialised list holds are the entries that it has found. -/
theorem getEntries_found (hfound : entriesFound build disk path = some es)
    (hlisted : sFileListGetEntries build allocator disk ⟨m, .cleared, []⟩ path = .ok (w, res)) :
    ∃ nodes, Represents w.memory w.list nodes ∧ w.list.length = nodes.length ∧
      (nodes.map Prod.snd).Perm es := by
  obtain ⟨es', hlisting, hperm⟩ := listing_perm hfound
  have hholds : Safe _ _ (sFileListGetEntries build allocator disk ⟨m, .cleared, []⟩ path) :=
    getEntries_holds rfl m allocator hlisting
  rw [hlisted] at hholds
  obtain ⟨-, files, folders, ⟨nodes, hrep, hnodes, -⟩, hlength, -, -⟩ := hholds
  refine ⟨nodes, hrep, ?_, hnodes ▸ hperm⟩
  rw [hlength, ← hnodes, List.length_map]
  exact Int.zero_add _

theorem listed_staysInMsg_iff (hpath : 0 ∉ path) (hfound : entriesFound build disk path = some es)
    (hlisted : sFileListGetEntries build allocator disk ⟨m, .cleared, []⟩ path = .ok (w, res)) :
    StaysInMsg w path ↔ MsgHolds path es := by
  obtain ⟨nodes, hrep, hlength, hperm⟩ := getEntries_found hfound hlisted
  have hsum := (hperm.map fun e => e.name.length + 2).sum_eq
  have hcount := hperm.length_eq
  rw [List.length_map] at hcount
  rw [staysInMsg_iff hrep hlength hpath, hlength, msgSize_natCast, composed_length,
    MsgHolds, ← hsum, hcount, List.map_map, List.map_map]
  have hcomm : ∀ sum : Nat, 5 + 3 * path.length + sum = 3 * path.length + sum + 5 :=
    fun sum => by omega
  rw [hcomm]
  rfl

/-- The text of a listing stays in `msg` exactly when the names leave room for three copies of the
path; with entries that no `size_t` wraps, that is 254 bytes for each name, and 506 more for all. -/
theorem ls_text_fits_iff (hpath : 0 ∉ path)
    (hfound : entriesFound build disk path = some es)
    (hlisted : sFileListGetEntries build allocator disk ⟨m, .cleared, []⟩ path = .ok (w, res)) :
    (StaysInMsg w path ↔ MsgHolds path es) ∧
    (es.length < 2 ^ 24 - 2 → (StaysInMsg w path ↔
      3 * path.length + (es.map fun e => e.name.length).sum ≤ 254 * es.length + 506)) := by
  have hfits := listed_staysInMsg_iff hpath hfound hlisted
  exact ⟨hfits, fun hwrap => hfits.trans (msgHolds_iff path hwrap)⟩

theorem empty_found (path : List Byte) (hhome : path ≠ Client.homePath) :
    entriesFound .module ⟨fun _ => false, fun _ => .ok []⟩ path = some [dirUpEntry] :=
  if_neg (by simp [Build.module, hhome])

theorem empty_listed (path : List Byte) :
    ∃ r, sFileListGetEntries .module .behind ⟨fun _ => false, fun _ => .ok []⟩
      ⟨∅, .cleared, []⟩ path = .ok r := by
  have hkept := (kept_cleared ∅).getEntries .module .behind ⟨fun _ => false, fun _ => .ok []⟩ path
  obtain ⟨r, hlisted, -⟩ := hkept.returns behind_not_fails
  exact ⟨r, hlisted⟩

/-- The listing of an empty directory. -/
theorem ls_text_fits_empty :
    ∃ w res, sFileListGetEntries .module .behind ⟨fun _ => false, fun _ => .ok []⟩ ⟨∅, .cleared, []⟩
        (ascii "ux0:") = .ok (w, res) ∧ StaysInMsg w (ascii "ux0:") := by
  have hpath : 0 ∉ ascii "ux0:" := by decide
  obtain ⟨⟨w, res⟩, hlisted⟩ := empty_listed (ascii "ux0:")
  have hfound := empty_found (ascii "ux0:") (by decide)
  exact ⟨w, res, hlisted, (ls_text_fits_iff hpath hfound hlisted).1.mpr (by decide)⟩

/-- A path of 255 bytes. -/
def longPath : List Byte := ascii "ux0:/" ++ List.replicate 250 97

/-- Three copies of a path of 255 bytes do not fit beside the only entry of an empty directory. -/
theorem ls_text_overruns : longPath.length = 255 ∧
    ∃ w res, sFileListGetEntries .module .behind ⟨fun _ => false, fun _ => .ok []⟩ ⟨∅, .cleared, []⟩
        longPath = .ok (w, res) ∧ ¬StaysInMsg w longPath := by
  have hpath : 0 ∉ longPath := by decide +kernel
  obtain ⟨⟨w, res⟩, hlisted⟩ := empty_listed longPath
  have hfound := empty_found longPath (by decide +kernel)
  refine ⟨by decide +kernel, w, res, hlisted, fun h => ?_⟩
  exact absurd ((listed_staysInMsg_iff hpath hfound hlisted).mp h) (by decide +kernel)

end Psp2Shell.Listing
