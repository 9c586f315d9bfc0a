import Psp2Shell.Memory.Hex
import Psp2Shell.Memory.Read

/-! When `cmd_memw` stores what has been typed: its search finds a segment by its first address
only, and each word is read from an array of eight characters that no NUL ends. -/

namespace Psp2Shell.Memory

open CLib Kernel

/-! ### The search -/

/-- An address of a segment. -/
def Within (address : BitVec 32) (seg : SegmentInfo) : Prop :=
  seg.vaddr.toNat ≤ address.toNat ∧ address.toNat < seg.vaddr.toNat + seg.memsz.toNat

/-- A module that `cmd_memw` gets to see. -/
def Modules.Listed (sys : Modules) (m : LoadedModule) : Prop :=
  ∃ ids id, sys.list = some ids ∧ id ∈ ids ∧ sys.info id = some m

/-- No two segments of the listed modules have an address in common. -/
def Modules.Disjoint (sys : Modules) : Prop :=
  ∀ m m', sys.Listed m → sys.Listed m' → ∀ j j' address,
    Within address (m.segments j) → Within address (m'.segments j') → m = m' ∧ j = j'

/-- A segment is found by the addresses in it, unless it ends at the top of all addresses. -/
theorem holds_iff {address : BitVec 32} {seg : SegmentInfo} :
    holds address seg = true ↔ Within address seg ∧ seg.vaddr.toNat + seg.memsz.toNat < 2 ^ 32 := by
  have haddress := address.isLt
  have hmemsz := seg.memsz.isLt
  have hzero : (0 : BitVec 32).toNat = 0 := rfl
  simp only [holds, Within, Bool.and_eq_true, decide_eq_true_eq, BitVec.le_def, BitVec.lt_def,
    BitVec.toNat_add, ne_eq, ← BitVec.toNat_inj, hzero]
  by_cases hend : seg.vaddr.toNat + seg.memsz.toNat < 2 ^ 32
  · rw [Nat.mod_eq_of_lt hend]
    omega
  · omega

/-- The result of a search that ends in a segment. -/
def foundIn (address : BitVec 32) (m : LoadedModule) (j : Fin 4) : Found :=
  ⟨m.modid, j, address - (m.segments j).vaddr⟩

variable {sys : Modules} {address : BitVec 32} {m m' : LoadedModule} {j : Fin 4}

theorem searchModule_found (hdisjoint : sys.Disjoint) (hm : sys.Listed m)
    (hj : holds address (m.segments j) = true) (found : Found) :
    searchModule address found (some m) = foundIn address m j := by
  have hunique : ∀ j', holds address (m.segments j') = true → j' = j := fun j' hj' =>
    (hdisjoint m m hm hm j' j address (holds_iff.mp hj').1 (holds_iff.mp hj).1).2
  cases hfind : (List.finRange 4).find? fun j => holds address (m.segments j) with
  | none => exact absurd hj (List.find?_eq_none.mp hfind j (List.mem_finRange j))
  | some j' =>
    obtain rfl := hunique j' (List.find?_some (p := fun j => holds address (m.segments j)) hfind)
    simp only [searchModule, hfind, foundIn]

/-- A module without a segment that is found leaves the search as it is. -/
theorem searchModule_keep (h : ∀ j, holds address (m.segments j) = false) (found : Found) :
    searchModule address found (some m) = found := by
  have hfind : ((List.finRange 4).find? fun j => holds address (m.segments j)) = none :=
    List.find?_eq_none.mpr fun j _ => by simp [h j]
  simp only [searchModule, hfind]

/-- A step of the search finds the segment, or it keeps what has been found. -/
theorem searchModule_cases (hdisjoint : sys.Disjoint) (hm : sys.Listed m)
    (hj : holds address (m.segments j) = true) (found : Found) {info : Option LoadedModule}
    (hinfo : ∀ m', info = some m' → sys.Listed m') :
    searchModule address found info = found ∨ searchModule address found info =
      foundIn address m j := by
  cases info with
  | none => exact Or.inl rfl
  | some m' =>
    by_cases hother : ∃ j', holds address (m'.segments j') = true
    · obtain ⟨j', hj'⟩ := hother
      have hm' := hinfo m' rfl
      obtain ⟨rfl, rfl⟩ :=
        hdisjoint m m' hm hm' j j' address (holds_iff.mp hj).1 (holds_iff.mp hj').1
      exact Or.inr (searchModule_found hdisjoint hm hj found)
    · exact Or.inl (searchModule_keep (by simpa using hother) found)

/-- The search ends in the segment that holds the address. -/
theorem search_found (hdisjoint : sys.Disjoint) {ids : List (BitVec 32)}
    (hids : sys.list = some ids) {id : BitVec 32} (hid : id ∈ ids) (hinfo : sys.info id = some m)
    (hj : holds address (m.segments j) = true) : search sys ids address = foundIn address m j := by
  have hm : sys.Listed m := ⟨ids, id, hids, hid, hinfo⟩
  have hlisted : ∀ id' ∈ ids, ∀ m', sys.info id' = some m' → sys.Listed m' :=
    fun id' hid' m' hinfo' =>
    ⟨ids, id', hids, hid', hinfo'⟩
  clear hids
  unfold search
  induction ids using List.reverseRecOn with
  | nil => cases hid
  | append_singleton ids last ih =>
    rw [List.foldl_append, List.foldl_cons, List.foldl_nil]
    rcases List.mem_append.mp hid with hid | hid
    · have hbefore := ih hid fun id' hid' => hlisted id' (List.mem_append_left _ hid')
      rw [hbefore]
      exact (searchModule_cases hdisjoint hm hj _ (hlisted last (by simp))).elim (fun h => h)
        fun h => h
    · rw [← List.mem_singleton.mp hid, hinfo]
      exact searchModule_found hdisjoint hm hj _

/-- When no segment is found, the search ends as it began. -/
theorem search_lost {ids : List (BitVec 32)}
    (h : ∀ id ∈ ids, ∀ m, sys.info id = some m → ∀ j, holds address (m.segments j) = false) :
    search sys ids address = ⟨0, -1, 0⟩ := by
  unfold search
  induction ids using List.reverseRecOn with
  | nil => rfl
  | append_singleton ids last ih =>
    rw [List.foldl_append, List.foldl_cons, List.foldl_nil,
      ih fun id hid => h id (List.mem_append_left _ hid)]
    cases hinfo : sys.info last with
    | none => rfl
    | some m => exact searchModule_keep (h last (by simp) m hinfo) _

/-! ### The injections -/

theorem memwLoop_eq (found : Found) (dataStr : List Byte) (behind : Nat → List Byte) (n i : Nat)
    (offset : BitVec 32) : memwLoop found dataStr behind n i offset = (List.range n).map fun k =>
      ⟨found.uid, found.segment, offset + BitVec.ofNat 32 (4 * k),
        tmpData dataStr behind (i + k)⟩ := by
  induction n generalizing i offset with
  | zero => rfl
  | succ n ih =>
    have hshift : ∀ k, offset + BitVec.ofNat 32 (4 * (k + 1)) =
      offset + 4 + BitVec.ofNat 32 (4 * k) :=
      add_ofNat_succ offset 4
    rw [memwLoop, ih, List.range_succ_eq_map, List.map_cons, List.map_map]
    simp [Function.comp_def, hshift, Nat.add_comm, Nat.add_left_comm]

/-- The digits of word `i`. -/
def chunk (dataStr : List Byte) (i : Nat) : List Byte := (dataStr.drop (i * 8)).take 8

/-- Eight digits are read as they are: no further digit comes behind them, or it makes no difference
to a number that is the largest already, or zero. -/
def ReadsChunk (chunk behind : List Byte) : Prop :=
  behind.takeWhile isxdigit = [] ∨ (∀ b ∈ chunk, xdigit b = 15) ∨
    ∀ b ∈ chunk ++ behind.takeWhile isxdigit, b = 48

instance (chunk behind : List Byte) : Decidable (ReadsChunk chunk behind) :=
  inferInstanceAs (Decidable (_ ∨ _ ∨ _))

theorem strtoul_chunk {s : List Byte} (hlen : s.length = 8) (hs : ∀ b ∈ s, isxdigit b = true)
    (behind : List Byte) : strtoul 32 16 (s ++ behind) = numeral 16 s ↔ ReadsChunk s behind := by
  have hread : strtoul 32 16 (s ++ behind) = min (2 ^ 32 - 1) (numeral 16 (s ++ behind)) := by
    match s, hlen, hs with
    | a :: b :: s, _, hs => exact strtoul_xdigits 32 (hs a (by simp)) (hs b (by simp)) (s ++ behind)
  have hrun : ∀ b ∈ behind.takeWhile isxdigit, isxdigit b = true :=
    fun b hb => List.mem_takeWhile_imp hb
  have htail : numeral 16 behind = numeral 16 (behind.takeWhile isxdigit) := by
    rw [numeral_of_xdigits hrun]
    exact numeral_eq 16 behind
  have hlt := numeral_lt hs
  have hmax := numeral_eq_max hs
  have hzero := numeral_eq_zero hs
  have hrunZero := numeral_eq_zero hrun
  have hrunLt := numeral_lt hrun
  rw [hlen] at hlt hmax
  rw [hread, numeral_append hs, htail, ReadsChunk, List.forall_mem_append, ← hmax,
    ← hzero, ← hrunZero]
  by_cases hempty : behind.takeWhile isxdigit = []
  · have hnil : numeral 16 [] = 0 := rfl
    rw [hempty, hnil, List.length_nil, pow_zero, Nat.mul_one, Nat.add_zero]
    exact iff_of_true (by omega) (Or.inl rfl)
  · have hpow : 16 ≤ 16 ^ (behind.takeWhile isxdigit).length :=
      Nat.le_self_pow (by simpa using hempty) 16
    have hmul : 16 * numeral 16 s ≤ numeral 16 s * 16 ^ (behind.takeWhile isxdigit).length := by
      rw [Nat.mul_comm]
      exact Nat.mul_le_mul_left _ hpow
    rw [or_iff_right hempty]
    rcases Nat.eq_zero_or_pos (numeral 16 s) with hs0 | hs0
    · rw [hs0, Nat.zero_mul, Nat.zero_add]
      omega
    · omega

theorem chunk_length {dataStr : List Byte} {i : Nat} (hi : i < dataStr.length / 8) :
    (chunk dataStr i).length = 8 := by
  rw [chunk, List.length_take, List.length_drop]
  omega

theorem chunk_xdigits {dataStr : List Byte} (hdigits : ∀ b ∈ dataStr, isxdigit b = true) (i : Nat) :
    ∀ b ∈ chunk dataStr i, isxdigit b = true := fun b hb =>
  hdigits b (List.mem_of_mem_drop (List.mem_of_mem_take hb))

/-- The words that have been typed. -/
def typedWord (dataStr : List Byte) (i : Nat) : BitVec 32 :=
  BitVec.ofNat 32 (numeral 16 (chunk dataStr i))

theorem tmpData_typed {dataStr : List Byte} (hdigits : ∀ b ∈ dataStr, isxdigit b = true)
    (behind : Nat → List Byte) {i : Nat} (hi : i < dataStr.length / 8) :
    tmpData dataStr behind i = typedWord dataStr i ↔ ReadsChunk (chunk dataStr i) (behind i) := by
  have hlen := chunk_length hi
  have hchunk := chunk_xdigits hdigits i
  have htmp : strncpy (dataStr.drop (i * 8)) 8 = chunk dataStr i := by
    rw [strncpy_of_le, chunk]
    rw [List.length_drop]
    omega
  have hlt : numeral 16 (chunk dataStr i) < 16 ^ 8 := hlen ▸ numeral_lt hchunk
  have hread : strtoul 32 16 (chunk dataStr i ++ behind i) < 2 ^ 32 := strtoul_lt 32 16 _
  rw [← strtoul_chunk hlen hchunk, tmpData, parseHex, typedWord, htmp, ← BitVec.toNat_inj,
    BitVec.toNat_ofNat, BitVec.toNat_ofNat, Nat.mod_eq_of_lt hread,
    Nat.mod_eq_of_lt (b := 2 ^ 32) hlt]

section Listed

variable {behind : Nat → List Byte} {addressStr dataStr : List Byte}

/-- In a segment that is found, word follows word from the address on. -/
theorem cmdMemw_found (hdisjoint : sys.Disjoint) (hm : sys.Listed m)
    (hj : holds (parseHex addressStr) (m.segments j) = true) :
    cmdMemw sys behind addressStr dataStr = (List.range (dataStr.length / 8)).map fun k =>
      ⟨m.modid, j, parseHex addressStr - (m.segments j).vaddr + BitVec.ofNat 32 (4 * k),
        tmpData dataStr behind k⟩ := by
  obtain ⟨ids, id, hids, hid, hinfo⟩ := hm
  have hsearch := search_found hdisjoint hids hid hinfo hj
  simp only [cmdMemw, hids, hsearch, foundIn, if_neg m.modid_ne, memwLoop_eq, Nat.zero_add]

/-- Nothing is injected into a segment that ends at the top of the addresses. -/
theorem cmdMemw_lost (hdisjoint : sys.Disjoint) (hm : sys.Listed m)
    (haddress : Within (parseHex addressStr) (m.segments j))
    (hj : holds (parseHex addressStr) (m.segments j) = false) :
    cmdMemw sys behind addressStr dataStr = [] := by
  obtain ⟨ids, id, hids, hid, hinfo⟩ := id hm
  have hlost : search sys ids (parseHex addressStr) = ⟨0, -1, 0⟩ := by
    refine search_lost fun id' hid' m' hinfo' j' => ?_
    by_contra hholds
    rw [Bool.not_eq_false] at hholds
    have hm' : sys.Listed m' := ⟨ids, id', hids, hid', hinfo'⟩
    obtain ⟨rfl, rfl⟩ := hdisjoint m m' hm hm' j j' _ haddress (holds_iff.mp hholds).1
    rw [hholds] at hj
    cases hj
  simp only [cmdMemw, hids, hlost, if_true]

end Listed

/-! ### The memory -/

/-- `taiInjectData` on the process, where no earlier injection is in its way: it stores the data at
the offset in the segment. -/
structure Tai (sys : Modules) where
  inject : ByteMemory → Injection → ByteMemory
  stores : ∀ m, sys.Listed m → ∀ (j : Fin 4) (memory : ByteMemory) (offset data : BitVec 32),
    offset.toNat + 4 ≤ (m.segments j).memsz.toNat →
      inject memory ⟨m.modid, j, offset, data⟩ =
        storeWord memory ((m.segments j).vaddr + offset) data

/-- An injection of a word at an address, inside the segment. -/
structure Injection.Writes (inj : Injection) (m : LoadedModule) (j : Fin 4) (address : Nat)
    (word : BitVec 32) : Prop where
  uid : inj.uid = m.modid
  segment : inj.segment = j
  target : (m.segments j).vaddr.toNat + inj.offset.toNat = address
  inside : inj.offset.toNat + 4 ≤ (m.segments j).memsz.toNat
  data : inj.data = word

/-- Injections that write word behind word leave these in the memory. -/
theorem Tai.foldl_inject (tai : Tai sys) (hm : sys.Listed m) {injections : List Injection}
    {word : Nat → BitVec 32} (start : Nat) (memory : ByteMemory)
    (h : ∀ i (inj : Injection), injections[i]? = some inj →
      inj.Writes m j (address.toNat + 4 * (start + i)) (word (start + i))) :
    injections.foldl tai.inject memory =
      storeWords memory (address + BitVec.ofNat 32 (4 * start))
        (injections.map Injection.data) := by
  induction injections generalizing start memory with
  | nil => rfl
  | cons inj rest ih =>
    have hfirst := h 0 inj rfl
    have htarget : (m.segments j).vaddr + inj.offset = address + BitVec.ofNat 32 (4 * start) := by
      apply BitVec.eq_of_toNat_eq
      rw [BitVec.toNat_add, hfirst.target, BitVec.toNat_add, BitVec.toNat_ofNat, Nat.add_zero]
      omega
    have hstore : tai.inject memory inj =
        storeWord memory (address + BitVec.ofNat 32 (4 * start)) inj.data := by
      have hinject := tai.stores m hm j memory inj.offset inj.data hfirst.inside
      rwa [← hfirst.uid, ← hfirst.segment, htarget] at hinject
    have hnext : address + BitVec.ofNat 32 (4 * (start + 1)) =
        address + BitVec.ofNat 32 (4 * start) + 4 := by
      rw [Nat.mul_succ, BitVec.ofNat_add, ← BitVec.add_assoc]
      rfl
    have hrest := ih (start + 1) (storeWord memory (address + BitVec.ofNat 32 (4 * start)) inj.data)
      fun i inj' hinj' => by
        rw [Nat.add_assoc, Nat.add_comm 1 i]
        exact h (i + 1) inj' hinj'
    rw [List.foldl_cons, List.map_cons, storeWords, hstore, hrest, hnext]

/-! ### Reading back -/

/-- The digits of a line. -/
def HexLine.digits (l : HexLine) : List Byte := (List.finRange 4).flatMap fun i => hex8 (l.words i)

theorem flatMap_four (f : Nat → List Byte) (n : Nat) : (List.range (4 * n)).flatMap f =
    (List.range n).flatMap fun k => (List.finRange 4).flatMap fun i :
    Fin 4 => f (4 * k + i.val) := by
  induction n with
  | zero => rfl
  | succ n ih =>
    rw [Nat.mul_succ, List.range_add, List.flatMap_append, ih, List.range_succ (n := n),
      List.flatMap_append]
    simp [List.range_succ, List.finRange_succ]

theorem flatMap_chunk (dataStr : List Byte) (n : Nat) :
    (List.range n).flatMap (chunk dataStr) = dataStr.take (n * 8) := by
  induction n with
  | zero => simp
  | succ n ih =>
    rw [List.range_succ, List.flatMap_append, ih, Nat.succ_mul, List.take_add,
      List.flatMap_singleton, chunk]

/-- A line in words that have been stored. -/
theorem hexLine_stored (memory : ByteMemory) (address : BitVec 32)
    (word : Nat → BitVec 32) {n k : Nat} (hn : 4 * n < 2 ^ 32) (hk : 4 * k + 4 ≤ n) (i : Fin 4) :
    (hexLine (storeWords memory address ((List.range n).map word))
      (address + BitVec.ofNat 32 (16 * k))).words i = word (4 * k + i.val) := by
  have hi : 4 * k + i.val < n := by omega
  have hlength : 4 * ((List.range n).map word).length ≤ 2 ^ 32 := by
    rw [List.length_map, List.length_range]
    omega
  have hget : ((List.range n).map word)[4 * k + i.val]? = some (word (4 * k + i.val)) := by
    rw [List.getElem?_map, List.getElem?_range hi, Option.map_some]
  have haddr : address + BitVec.ofNat 32 (16 * k) + BitVec.ofNat 32 (4 * i.val) =
      address + BitVec.ofNat 32 (4 * (4 * k + i.val)) := by
    rw [BitVec.add_assoc, ← BitVec.ofNat_add, Nat.mul_add, ← Nat.mul_assoc]
  show loadWord _ _ = _
  rw [haddr]
  exact loadWord_storeWords hlength hget

/-- Words that have been stored, and fill lines, are shown by these. -/
theorem memr_stored (memory : ByteMemory) (word : Nat → BitVec 32) (n : Nat)
    {addressStr sizeStr : List Byte} (hsize : (parseHex sizeStr).toNat = 4 * n)
    (hwhole : 16 ∣ (parseHex sizeStr).toNat)
    (hend : (parseHex addressStr).toNat + 4 * n < 2 ^ 32) :
    ∃ fuel lines, cmdMemr fuel
        (fun _ => storeWords memory (parseHex addressStr) ((List.range n).map word))
        addressStr sizeStr =
      some lines ∧ lines.flatMap HexLine.digits = (List.range n).flatMap fun k =>
        hex8 (word k) := by
  have hcount : n = 4 * lineCount (parseHex sizeStr) := by
    rw [lineCount]
    omega
  have hbelow : BelowTop (parseHex addressStr) (parseHex sizeStr) := Or.inr (by omega)
  refine ⟨_, _, cmdMemr_belowTop hbelow _, ?_⟩
  have hline : ∀ k ∈ List.range (lineCount (parseHex sizeStr)),
      (hexLine (storeWords memory (parseHex addressStr) ((List.range n).map word))
        (parseHex addressStr + BitVec.ofNat 32 (16 * k))).digits =
      (List.finRange 4).flatMap fun i : Fin 4 => hex8 (word (4 * k + i.val)) := by
    intro k hk
    have hk' := List.mem_range.mp hk
    exact List.flatMap_congr fun i _ => by rw [hexLine_stored _ _ _ (by omega) (by omega)]
  have hflat := flatMap_four (fun k => hex8 (word k)) (lineCount (parseHex sizeStr))
  rw [← hcount] at hflat
  rw [List.flatMap_map, hflat]
  exact List.flatMap_congr hline

/-! ### One module -/

theorem eboot_modid_ne : (0x40010003 : BitVec 32) ≠ 0 := by decide

/-- One segment, and three that are empty. -/
def ebootSegments (j : Fin 4) : SegmentInfo :=
  if j.val = 0 then ⟨24, 0x81000000, 0x1000⟩ else ⟨24, 0, 0⟩

def eboot : LoadedModule := ⟨0x40010003, eboot_modid_ne, ebootSegments⟩

/-- A process of this module alone. -/
def ebootOnly : Modules := ⟨some [0x40010005], fun _ => some eboot⟩

theorem eboot_listed : ebootOnly.Listed eboot :=
  ⟨[0x40010005], 0x40010005, rfl, List.mem_singleton_self _, rfl⟩

theorem eq_eboot (h : ebootOnly.Listed m) : m = eboot := by
  obtain ⟨ids, id, -, -, hinfo⟩ := h
  exact (Option.some.inj hinfo).symm

theorem ebootSegments_nonempty (hj : 0 < (ebootSegments j).memsz.toNat) : j.val = 0 := by
  by_contra hne
  rw [ebootSegments, if_neg hne] at hj
  exact absurd hj (by decide)

theorem ebootOnly_disjoint : ebootOnly.Disjoint := by
  have hfirst : ∀ {j address}, Within address (ebootSegments j) → j.val = 0 := fun ⟨hlow, hhigh⟩ =>
    ebootSegments_nonempty (by omega)
  intro m m' hm hm' j j' address h h'
  obtain rfl := eq_eboot hm
  obtain rfl := eq_eboot hm'
  exact ⟨rfl, Fin.ext ((hfirst h).trans (hfirst h').symm)⟩

def ebootTai : Tai ebootOnly where
  inject memory inj := storeWord memory (0x81000000 + inj.offset) inj.data
  stores m hm j memory offset data hoffset := by
    obtain rfl := eq_eboot hm
    have hpos : 0 < (ebootSegments j).memsz.toNat := Nat.lt_of_lt_of_le (by omega) hoffset
    have hvaddr : (ebootSegments j).vaddr = 0x81000000 := by
      rw [ebootSegments, if_pos (ebootSegments_nonempty hpos)]
    rw [← hvaddr]
    rfl

/-! ### What is stored -/

/-- Each word that is typed is stored at its place behind the address, in the segment, and a
`cmd_memr` of whole lines of them shows the digits in upper case. -/
structure StoresTyped (tai : Tai sys) (behind : Nat → List Byte) (addressStr dataStr : List Byte)
    (m : LoadedModule) (j : Fin 4) : Prop where
  count : (cmdMemw sys behind addressStr dataStr).length = dataStr.length / 8
  writes : ∀ i (inj : Injection), (cmdMemw sys behind addressStr dataStr)[i]? = some inj →
    inj.Writes m j ((parseHex addressStr).toNat + 4 * i) (typedWord dataStr i)
  readsBack : ∀ (memory : ByteMemory) (startStr sizeStr : List Byte),
    parseHex startStr = parseHex addressStr → (parseHex sizeStr).toNat = 4 * (dataStr.length / 8) →
    16 ∣ (parseHex sizeStr).toNat →
      ∃ fuel lines, cmdMemr fuel
        (fun _ => (cmdMemw sys behind addressStr dataStr).foldl tai.inject memory)
        startStr sizeStr = some lines ∧ lines.flatMap HexLine.digits = dataStr.map toupper

/-- The words end in the segment, which does not end at the top of the addresses, and each is read
from its eight digits. -/
structure FitsTyped (behind : Nat → List Byte) (address : BitVec 32) (dataStr : List Byte)
    (seg : SegmentInfo) : Prop where
  below : seg.vaddr.toNat + seg.memsz.toNat < 2 ^ 32
  inside : address.toNat + 4 * (dataStr.length / 8) ≤ seg.vaddr.toNat + seg.memsz.toNat
  reads : ∀ i < dataStr.length / 8, ReadsChunk (chunk dataStr i) (behind i)

section Stores

variable {tai : Tai sys} {behind : Nat → List Byte} {addressStr dataStr : List Byte}

/-- The words that fit are injected one behind the other. -/
theorem cmdMemw_fits (hdisjoint : sys.Disjoint) (hm : sys.Listed m)
    (haddress : Within (parseHex addressStr) (m.segments j))
    (hdigits : ∀ b ∈ dataStr, isxdigit b = true)
    (hfits : FitsTyped behind (parseHex addressStr) dataStr (m.segments j)) :
    cmdMemw sys behind addressStr dataStr = (List.range (dataStr.length / 8)).map fun k =>
      ⟨m.modid, j, parseHex addressStr - (m.segments j).vaddr + BitVec.ofNat 32 (4 * k),
        typedWord dataStr k⟩ := by
  rw [cmdMemw_found hdisjoint hm (holds_iff.mpr ⟨haddress, hfits.below⟩)]
  refine List.map_congr_left fun k hk => ?_
  have hk' := List.mem_range.mp hk
  rw [(tmpData_typed hdigits behind hk').mpr (hfits.reads k hk')]

/-- The offsets do not wrap: the last word, too, ends in the segment. -/
theorem writes_of_fits (hdisjoint : sys.Disjoint) (hm : sys.Listed m)
    (haddress : Within (parseHex addressStr) (m.segments j))
    (hdigits : ∀ b ∈ dataStr, isxdigit b = true)
    (hfits : FitsTyped behind (parseHex addressStr) dataStr (m.segments j)) {i : Nat}
    {inj : Injection}
    (hinj : (cmdMemw sys behind addressStr dataStr)[i]? = some inj) :
    inj.Writes m j ((parseHex addressStr).toNat + 4 * i) (typedWord dataStr i) := by
  obtain ⟨hbelow, hinside, -⟩ := id hfits
  obtain ⟨hstart, hend⟩ := id haddress
  rw [cmdMemw_fits hdisjoint hm haddress hdigits hfits, List.getElem?_map,
    Option.map_eq_some_iff] at hinj
  obtain ⟨k, hk, rfl⟩ := hinj
  obtain ⟨hi, rfl⟩ := List.getElem?_eq_some_iff.mp hk
  rw [List.length_range] at hi
  rw [List.getElem_range]
  have hfirst : (parseHex addressStr - (m.segments j).vaddr).toNat =
      (parseHex addressStr).toNat - (m.segments j).vaddr.toNat :=
    BitVec.toNat_sub_of_le (BitVec.le_def.mpr hstart)
  have hoffset : (parseHex addressStr - (m.segments j).vaddr + BitVec.ofNat 32 (4 * i)).toNat =
      (parseHex addressStr).toNat - (m.segments j).vaddr.toNat + 4 * i := by
    rw [toNat_add_ofNat (by omega), hfirst]
  refine ⟨rfl, rfl, ?_, ?_, rfl⟩
  · dsimp only
    omega
  · dsimp only
    omega

/-- The memory afterwards holds the words that have been typed. -/
theorem injected_typed (tai : Tai sys) (hdisjoint : sys.Disjoint) (hm : sys.Listed m)
    (haddress : Within (parseHex addressStr) (m.segments j))
    (hdigits : ∀ b ∈ dataStr, isxdigit b = true)
    (hfits : FitsTyped behind (parseHex addressStr) dataStr (m.segments j)) (memory : ByteMemory) :
    (cmdMemw sys behind addressStr dataStr).foldl tai.inject memory =
      storeWords memory (parseHex addressStr)
        ((List.range (dataStr.length / 8)).map (typedWord dataStr)) := by
  have hdata : (cmdMemw sys behind addressStr dataStr).map Injection.data =
      (List.range (dataStr.length / 8)).map (typedWord dataStr) := by
    rw [cmdMemw_fits hdisjoint hm haddress hdigits hfits, List.map_map]
    rfl
  have hstored := tai.foldl_inject hm 0 memory fun i inj hinj => by
    rw [Nat.zero_add]
    exact writes_of_fits hdisjoint hm haddress hdigits hfits hinj
  rwa [hdata, Nat.mul_zero, BitVec.add_zero] at hstored

theorem digits_typed (hdigits : ∀ b ∈ dataStr, isxdigit b = true) (hlen : 8 ∣ dataStr.length) :
    ((List.range (dataStr.length / 8)).flatMap fun k => hex8 (typedWord dataStr k)) =
      dataStr.map toupper := by
  have hword : ∀ k ∈ List.range (dataStr.length / 8),
      hex8 (typedWord dataStr k) = (chunk dataStr k).map toupper := fun k hk =>
    hex8_numeral (chunk_length (List.mem_range.mp hk)) (chunk_xdigits hdigits k)
  rw [List.flatMap_congr hword, ← List.map_flatMap, flatMap_chunk, Nat.div_mul_cancel hlen,
    List.take_length]

theorem stores_of_fits (hdisjoint : sys.Disjoint) (hm : sys.Listed m)
    (haddress : Within (parseHex addressStr) (m.segments j))
    (hdigits : ∀ b ∈ dataStr, isxdigit b = true)
    (hlen : 8 ∣ dataStr.length)
    (hfits : FitsTyped behind (parseHex addressStr) dataStr (m.segments j)) :
    StoresTyped tai behind addressStr dataStr m j := by
  refine ⟨?_, fun i inj => writes_of_fits hdisjoint hm haddress hdigits hfits, ?_⟩
  · rw [cmdMemw_fits hdisjoint hm haddress hdigits hfits, List.length_map, List.length_range]
  · intro memory startStr sizeStr hstart hsize hwhole
    have hend : (parseHex startStr).toNat + 4 * (dataStr.length / 8) < 2 ^ 32 := by
      rw [hstart]
      exact lt_of_le_of_lt hfits.inside hfits.below
    rw [injected_typed tai hdisjoint hm haddress hdigits hfits,
      ← digits_typed hdigits hlen, ← hstart]
    exact memr_stored memory (typedWord dataStr) _ hsize hwhole hend

theorem fits_of_stores (hdisjoint : sys.Disjoint) (hm : sys.Listed m)
    (haddress : Within (parseHex addressStr) (m.segments j))
    (hdigits : ∀ b ∈ dataStr, isxdigit b = true)
    (hpos : 0 < dataStr.length / 8) (h : StoresTyped tai behind addressStr dataStr m j) :
    FitsTyped behind (parseHex addressStr) dataStr (m.segments j) := by
  have hcount := h.count
  have hholds : holds (parseHex addressStr) (m.segments j) = true := by
    by_contra hlost
    rw [cmdMemw_lost hdisjoint hm haddress (by simpa using hlost), List.length_nil] at hcount
    omega
  have hget : ∀ i < dataStr.length / 8, ∃ inj,
    (cmdMemw sys behind addressStr dataStr)[i]? = some inj ∧
      inj.data = tmpData dataStr behind i := by
    intro i hi
    refine ⟨⟨m.modid, j, parseHex addressStr - (m.segments j).vaddr + BitVec.ofNat 32 (4 * i),
      tmpData dataStr behind i⟩, ?_, rfl⟩
    rw [cmdMemw_found hdisjoint hm hholds, List.getElem?_map, List.getElem?_range hi,
      Option.map_some]
  refine ⟨(holds_iff.mp hholds).2, ?_, fun i hi => ?_⟩
  · obtain ⟨last, hlast, -⟩ := hget (dataStr.length / 8 - 1) (by omega)
    obtain ⟨-, -, htarget, hinside, -⟩ := h.writes _ last hlast
    omega
  · obtain ⟨inj, hinj, hdata⟩ := hget i hi
    exact (tmpData_typed hdigits behind hi).mp (hdata.symm.trans (h.writes i inj hinj).data)

/-- What is typed is stored where it is typed exactly when it fits: neither the search nor the loop
asks for the end of the segment, and nothing ends the eight characters of a word. -/
theorem memw_stores_iff (tai : Tai sys) (behind : Nat → List Byte) (hdisjoint : sys.Disjoint)
    (hm : sys.Listed m) (haddress : Within (parseHex addressStr) (m.segments j))
    (hdigits : ∀ b ∈ dataStr, isxdigit b = true) (hlen : 8 ∣ dataStr.length) (hne : dataStr ≠ []) :
    StoresTyped tai behind addressStr dataStr m j ↔
      FitsTyped behind (parseHex addressStr) dataStr (m.segments j) := by
  have hpos : 0 < dataStr.length / 8 :=
    Nat.div_pos (Nat.le_of_dvd (List.length_pos_iff.mpr hne) hlen) (by decide)
  exact ⟨fits_of_stores hdisjoint hm haddress hdigits hpos,
    stores_of_fits hdisjoint hm haddress hdigits hlen⟩

end Stores

theorem memw_stores_line : StoresTyped ebootTai (fun _ => []) (ascii "81000010")
    (ascii "00000001deadBEEF0000000300000004") eboot 0 := by
  have haddress : Within (parseHex (ascii "81000010")) (eboot.segments 0) :=
    ⟨by decide +kernel, by decide +kernel⟩
  refine (memw_stores_iff ebootTai (fun _ => []) ebootOnly_disjoint eboot_listed haddress
    (by decide +kernel) (by decide) (by decide)).mpr ⟨by decide, by
    decide +kernel, fun i hi => Or.inl rfl⟩

/-- Two words four bytes before the end of the segment: the second is injected behind it. A single
word with a digit behind the temporary: another number is injected. -/
theorem memw_stores_elsewhere :
    (¬StoresTyped ebootTai (fun _ => []) (ascii "81000FFC") (ascii "0000000100000002") eboot 0 ∧
      cmdMemw ebootOnly (fun _ => []) (ascii "81000FFC") (ascii "0000000100000002") =
        [⟨0x40010003, 0, 0xFFC, 1⟩, ⟨0x40010003, 0, 0x1000, 2⟩]) ∧
    ¬StoresTyped ebootTai (fun _ => ascii "7") (ascii "81000000") (ascii "00000001") eboot 0 ∧
      cmdMemw ebootOnly (fun _ => ascii "7") (ascii "81000000") (ascii "00000001") =
        [⟨0x40010003, 0, 0, 0x17⟩] := by
  have hend : cmdMemw ebootOnly (fun _ => []) (ascii "81000FFC") (ascii "0000000100000002") =
      [⟨0x40010003, 0, 0xFFC, 1⟩, ⟨0x40010003, 0, 0x1000, 2⟩] := by decide +kernel
  have hbehind : cmdMemw ebootOnly (fun _ => ascii "7") (ascii "81000000") (ascii "00000001") =
      [⟨0x40010003, 0, 0, 0x17⟩] := by decide +kernel
  refine ⟨⟨fun h => ?_, hend⟩, fun h => ?_, hbehind⟩
  · have hlast := (h.writes 1 ⟨0x40010003, 0, 0x1000, 2⟩ (by rw [hend]; rfl)).inside
    exact absurd hlast (by decide)
  · have hdata := (h.writes 0 ⟨0x40010003, 0, 0, 0x17⟩ (by rw [hbehind]; rfl)).data
    exact absurd hdata (by decide +kernel)

end Psp2Shell.Memory
