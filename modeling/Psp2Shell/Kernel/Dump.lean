import Psp2Shell.CLib.Strings
import Psp2Shell.CLib.Runs
import Psp2Shell.Kernel.Hooks
import Psp2Shell.Msg.Model

/-! The module dump: `kpsp2shell_dump` and `kpsp2shell_dump_module` of `psp2shell_k/main.c`, and
`p2s_moduleDumpForPid` of `psp2shell_m/source/module.c`, which reports the result. -/

namespace Psp2Shell.Kernel

open CLib

/-- `CHUNK_SIZE`. -/
def chunkSize : Nat := 2048

/-- What the calls of one `kpsp2shell_dump` do: the file that `ksceIoOpen` returns, what
`chunk` holds after the copy from an address, and how many bytes the `ksceIoWrite` at a
counter adds to the file. -/
structure DumpCalls where
  fd : Int
  copied : BitVec 32 → Buffer chunkSize
  written : BitVec 32 → Nat

/-- The counter and `bufsize` in an iteration of the loop of `kpsp2shell_dump`. -/
@[ext] structure Chunk where
  i : BitVec 32
  bufsize : BitVec 32

/-- `bufsize` at a counter. -/
def bufsizeAt (size i : BitVec 32) : BitVec 32 :=
  if size - i > BitVec.ofNat 32 chunkSize then BitVec.ofNat 32 chunkSize else size - i

theorem bufsizeAt_toNat {size i : BitVec 32} (h : i < size) :
    (bufsizeAt size i).toNat = min chunkSize (size.toNat - i.toNat) := by
  rw [bufsizeAt, chunkSize]
  by_cases hmore : size - i > 2048#32
  · rw [if_pos hmore]
    bv_omega
  · rw [if_neg hmore]
    bv_omega

theorem counter_next {size i : BitVec 32} (h : i < size) :
    (i + bufsizeAt size i).toNat = i.toNat + (bufsizeAt size i).toNat := by
  have hbuf := bufsizeAt_toNat h
  bv_omega

/-- The iterations of the loop from a counter on. -/
def dumpLoop (size i : BitVec 32) : List Chunk :=
  if i < size then ⟨i, bufsizeAt size i⟩ :: dumpLoop size (i + bufsizeAt size i) else []
termination_by size.toNat - i.toNat
decreasing_by
  rw [counter_next ‹_›, bufsizeAt_toNat ‹_›, chunkSize]
  bv_omega

/-- What an iteration adds to the file of the dump from `addr`. -/
def DumpCalls.adds (o : DumpCalls) (addr : BitVec 32) (c : Chunk) : List Byte :=
  ((o.copied (addr + c.i)).bytes.take c.bufsize.toNat).take (o.written c.i)

/-- The names passed to `ksceIoOpen`, and the files that it has created, with their content. -/
structure Files where
  opened : List (List Byte)
  created : List Byte → Option (List Byte)

/-- `kpsp2shell_dump`: its result and the files afterwards. -/
def kpsp2shellDump (o : DumpCalls) (filename : List Byte) (addr size : BitVec 32) (files : Files) :
    Int × Files :=
  let opened := files.opened ++ [filename]
  if o.fd ≤ 0 then (o.fd, { files with opened })
  else
    let bytes := (dumpLoop size 0).flatMap (o.adds addr)
    (0, ⟨opened, Function.update files.created filename (some bytes)⟩)

/-- `SceKernelSegmentInfo`, as far as the dump reads it. -/
structure SegmentInfo where
  size : BitVec 32
  vaddr : BitVec 32
  memsz : BitVec 32
deriving DecidableEq

/-- `SceKernelModuleInfo`, as far as the dump reads it. -/
structure ModuleInfo where
  moduleName : List Byte
  plain : 0 ∉ moduleName
  segments : Fin 4 → SegmentInfo

/-- What the dump asks of the system. -/
structure DumpSystem where
  sizeofSegmentInfo : BitVec 32
  kernelUidForUserUid : Int → Int → Int
  getModuleInfo : Int → Int → Int × ModuleInfo
  strncpy : UserStrncpy
  dump : Fin 4 → DumpCalls

/-- The info call of `kpsp2shell_dump_module`. -/
def DumpSystem.info (sys : DumpSystem) (pid uid : Int) : Int × ModuleInfo :=
  let kid := sys.kernelUidForUserUid pid uid
  sys.getModuleInfo pid (if kid < 0 then uid else kid)

def DumpSystem.infoRet (sys : DumpSystem) (pid uid : Int) : Int := (sys.info pid uid).1

/-- `kinfo` after the info call. -/
def DumpSystem.kinfo (sys : DumpSystem) (pid uid : Int) : ModuleInfo := (sys.info pid uid).2

/-- The segments that the loop of `kpsp2shell_dump_module` passes over. -/
def DumpSystem.Skips (sys : DumpSystem) (seg : SegmentInfo) : Prop :=
  seg.memsz = 0 ∨ seg.vaddr = 0 ∨ seg.size ≠ sys.sizeofSegmentInfo

instance (sys : DumpSystem) : DecidablePred sys.Skips :=
  fun _ => inferInstanceAs (Decidable (_ ∨ _))

def hexDigit (d : Nat) : Byte := UInt8.ofNat (if d < 10 then 48 + d else 55 + d)

/-- The text of `%08X`. -/
def hex8 (n : BitVec 32) : List Byte :=
  (List.range 8).map fun k => hexDigit (n.toNat / 16 ^ (7 - k) % 16)

theorem hexDigit_ne_zero {d : Nat} (h : d < 16) : hexDigit d ≠ 0 := by
  interval_cases d <;> decide

theorem hex8_length (n : BitVec 32) : (hex8 n).length = 8 := by
  rw [hex8, List.length_map, List.length_range]

theorem nul_hex8 (n : BitVec 32) : 0 ∉ hex8 n := by
  intro h
  obtain ⟨k, -, hk⟩ := List.mem_map.mp h
  exact hexDigit_ne_zero (Nat.mod_lt _ (by decide)) hk

/-- The text of `"/%s_0x%08X_seg%d.bin"`. -/
def segmentText (name : List Byte) (vaddr : BitVec 32) (i : Fin 4) : List Byte :=
  ascii "/" ++ name ++ ascii "_0x" ++ hex8 vaddr ++ ascii "_seg" ++ decimal i ++ ascii ".bin"

/-- The string that the copy of `dst` and `snprintf` leave in `path`; `none` when `strlen` finds no
NUL, or when `snprintf` stores past the end. -/
def segmentPath (c : UserStrncpy) (dst name : List Byte) (vaddr : BitVec 32) (i : Fin 4) :
    Option (List Byte) :=
  let path := c.copy 128 dst
  path.str.bind fun s =>
    (path.strcpy s.length (snprintf 128 (segmentText name vaddr i))).bind Buffer.str

/-- The locals of `kpsp2shell_dump_module` that its loop changes, and what it changes outside. -/
structure DumpState where
  ret : Int
  files : Files
  hooks : Hooks

/-- The state after the info call, in which the loop starts. -/
def DumpState.start (ret : Int) (hooks : Hooks) : DumpState := ⟨ret, ⟨[], fun _ => none⟩, hooks⟩

/-- The arguments of `ksceDebugPrintf_hook("dumping: %s\n", path)`. -/
def dumping (path : List Byte) : Print :=
  let text := ascii "dumping: " ++ path ++ [10]
  ⟨text, text.length⟩

/-- An iteration of the loop of `kpsp2shell_dump_module`. -/
def dumpSegment (sys : DumpSystem) (dst : List Byte) (info : ModuleInfo)
    (s : DumpState) (i : Fin 4) :
    Option DumpState :=
  let seg := info.segments i
  if sys.Skips seg then some s
  else
    (segmentPath sys.strncpy dst info.moduleName seg.vaddr i).bind fun path =>
      (ksceDebugPrintfHook s.hooks (dumping path)).map fun hooks =>
        let (ret, files) := kpsp2shellDump (sys.dump i) path seg.vaddr seg.memsz s.files
        ⟨ret, files, hooks⟩

/-- `kpsp2shell_dump_module`. -/
def kpsp2shellDumpModule (sys : DumpSystem) (pid uid : Int) (dst : List Byte) (hooks : Hooks) :
    Option DumpState :=
  let ret := sys.infoRet pid uid
  let s := DumpState.start ret hooks
  if ret ≥ 0 then run (dumpSegment sys dst (sys.kinfo pid uid)) s (List.finRange 4) else some s

/-- `p2s_moduleDumpForPid`, from the result of `kpsp2shell_dump_module` on: the color and
the text that it prints. -/
def p2sModuleDumpForPid (res : Int) : Msg.Color × List Byte :=
  if res ≠ 0 then
    (.red, ascii "\nmodule dump failed: 0x" ++ hex8 (BitVec.ofInt 32 res) ++ ascii "\n\n")
  else (.green, ascii "\nmodule dump success\n\n")

/-- The bytes of a process from an address on. -/
def region (memory : BitVec 32 → Byte) (addr : BitVec 32) (n : Nat) : List Byte :=
  (List.range n).map fun k => memory (addr + BitVec.ofNat 32 k)

/-! ### The loop over the chunks -/

/-- The loop takes whole chunks, at multiples of their size, and then what is left. -/
theorem mem_dumpLoop {size i : BitVec 32} {c : Chunk} :
    c ∈ dumpLoop size i ↔ ∃ j, i.toNat + j * chunkSize < size.toNat ∧
      c.i.toNat = i.toNat + j * chunkSize ∧
      c.bufsize.toNat = min chunkSize (size.toNat - c.i.toNat) := by
  fun_induction dumpLoop size i with
  | case1 i hlt ih =>
    have hbuf := bufsizeAt_toNat hlt
    have hnext := counter_next hlt
    have hlt' := BitVec.lt_def.mp hlt
    rw [List.mem_cons, ih]
    constructor
    · rintro (rfl | ⟨j, hj, hi, hsize⟩)
      · exact ⟨0, by omega, by simp, hbuf⟩
      · refine ⟨j + 1, ?_, ?_, hsize⟩ <;> rw [Nat.succ_mul] <;> omega
    · rintro ⟨j, hj, hi, hsize⟩
      cases j with
      | zero =>
        have hi' : c.i = i := BitVec.eq_of_toNat_eq (by simpa using hi)
        have hbuf' : c.bufsize = bufsizeAt size i :=
          BitVec.eq_of_toNat_eq (by rw [hsize, hi', hbuf])
        exact Or.inl (Chunk.ext hi' hbuf')
      | succ j =>
        rw [Nat.succ_mul] at hj hi
        exact Or.inr ⟨j, by omega, by omega, hsize⟩
  | case2 i hge =>
    have hge' := BitVec.lt_def.not.mp hge
    refine iff_of_false List.not_mem_nil ?_
    rintro ⟨j, hj, -, -⟩
    omega

@[simp] theorem region_length (memory : BitVec 32 → Byte) (addr : BitVec 32) (n : Nat) :
    (region memory addr n).length = n := by
  rw [region, List.length_map, List.length_range]

theorem region_add (memory : BitVec 32 → Byte) (addr : BitVec 32) (m n : Nat) :
    region memory addr (m + n) =
      region memory addr m ++ region memory (addr + BitVec.ofNat 32 m) n := by
  rw [region, region, region, List.range_add, List.map_append, List.map_map]
  congr 1
  refine List.map_congr_left fun k _ => ?_
  rw [Function.comp_apply, BitVec.ofNat_add, BitVec.add_assoc]

/-- An iteration copies its bytes of the process, and writes them all. -/
def DumpCalls.Whole (o : DumpCalls) (memory : BitVec 32 → Byte) (addr : BitVec 32) (c : Chunk) :
    Prop :=
  (o.copied (addr + c.i)).bytes.take c.bufsize.toNat = region memory (addr + c.i) c.bufsize.toNat ∧
    c.bufsize.toNat ≤ o.written c.i

theorem adds_length_le (o : DumpCalls) (addr : BitVec 32) (c : Chunk) :
    (o.adds addr c).length ≤ c.bufsize.toNat := by
  rw [DumpCalls.adds, List.length_take, List.length_take]
  omega

theorem adds_eq_iff (o : DumpCalls) (memory : BitVec 32 → Byte) (addr : BitVec 32) (c : Chunk) :
    o.adds addr c = region memory (addr + c.i) c.bufsize.toNat ↔ o.Whole memory addr c := by
  constructor
  · intro h
    have hlen := congrArg List.length h
    rw [DumpCalls.adds, List.length_take, List.length_take, region_length] at hlen
    have hwritten : c.bufsize.toNat ≤ o.written c.i := by omega
    refine ⟨?_, hwritten⟩
    rw [← h, DumpCalls.adds]
    exact (List.take_of_length_le ((List.length_take_le _ _).trans hwritten)).symm
  · rintro ⟨hcopied, hwritten⟩
    rw [DumpCalls.adds, hcopied, List.take_of_length_le]
    rwa [region_length]

theorem dumpLoop_length_le (o : DumpCalls) (addr size i : BitVec 32) :
    ((dumpLoop size i).flatMap (o.adds addr)).length ≤ size.toNat - i.toNat := by
  fun_induction dumpLoop size i with
  | case1 i hlt ih =>
    have hbuf := bufsizeAt_toNat hlt
    have hnext := counter_next hlt
    have hfirst : _ ≤ (bufsizeAt size i).toNat := adds_length_le o addr ⟨i, bufsizeAt size i⟩
    rw [List.flatMap_cons, List.length_append]
    omega
  | case2 i hge => exact Nat.zero_le _

/-- A file holds the region when each iteration adds its part of it: one that adds too few bytes
leaves the file short, and later ones cannot make up for it. -/
theorem dumpLoop_content_iff (o : DumpCalls) (memory : BitVec 32 → Byte) (addr size i : BitVec 32) :
    (dumpLoop size i).flatMap (o.adds addr) = region memory (addr + i) (size.toNat - i.toNat) ↔
      ∀ c ∈ dumpLoop size i, o.Whole memory addr c := by
  fun_induction dumpLoop size i with
  | case1 i hlt ih =>
    have hbuf := bufsizeAt_toNat hlt
    have hnext := counter_next hlt
    have hfirst : _ ≤ (bufsizeAt size i).toNat := adds_length_le o addr ⟨i, bufsizeAt size i⟩
    have hrest := dumpLoop_length_le o addr size (i + bufsizeAt size i)
    have hsplit : size.toNat - i.toNat =
        (bufsizeAt size i).toNat + (size.toNat - (i + bufsizeAt size i).toNat) := by omega
    rw [hsplit, region_add, BitVec.ofNat_toNat, BitVec.setWidth_eq, BitVec.add_assoc,
      List.flatMap_cons, List.forall_mem_cons, ← ih, ← adds_eq_iff]
    constructor
    · intro h
      have hlen := congrArg List.length h
      rw [List.length_append, List.length_append, region_length, region_length] at hlen
      refine List.append_inj h ?_
      rw [region_length]
      show _ = (bufsizeAt size i).toNat
      omega
    · rintro ⟨hchunk, htail⟩
      rw [hchunk, htail]
  | case2 i hge =>
    have hge' := BitVec.lt_def.not.mp hge
    refine iff_of_true ?_ (by simp)
    rw [Nat.sub_eq_zero_of_le (by omega)]
    rfl

/-- Every copy and write of the dump does all of its work: at each multiple of
`CHUNK_SIZE` below the size. -/
def DumpCalls.Complete (o : DumpCalls) (memory : BitVec 32 → Byte) (addr size : BitVec 32) : Prop :=
  ∀ j, j * chunkSize < size.toNat →
    o.Whole memory addr ⟨BitVec.ofNat 32 (j * chunkSize),
      BitVec.ofNat 32 (min chunkSize (size.toNat - j * chunkSize))⟩

/-- The file of a dump holds the region exactly when the calls have done their work. -/
theorem dump_content_iff (o : DumpCalls) (memory : BitVec 32 → Byte) (addr size : BitVec 32) :
    (dumpLoop size 0).flatMap (o.adds addr) = region memory addr size.toNat ↔
      o.Complete memory addr size := by
  have hcontent := dumpLoop_content_iff o memory addr size 0
  have hzero : (0 : BitVec 32).toNat = 0 := rfl
  rw [show addr + (0 : BitVec 32) = addr from BitVec.add_zero addr, hzero, Nat.sub_zero] at hcontent
  rw [hcontent]
  have hsize := size.isLt
  constructor
  · intro h j hj
    refine h _ (mem_dumpLoop.mpr ⟨j, by simpa using hj, ?_, ?_⟩)
    · dsimp only
      rw [BitVec.toNat_ofNat, Nat.mod_eq_of_lt (by omega), hzero, Nat.zero_add]
    · dsimp only
      rw [BitVec.toNat_ofNat, BitVec.toNat_ofNat, Nat.mod_eq_of_lt (by omega),
        Nat.mod_eq_of_lt (by omega)]
  · rintro h ⟨i, bufsize⟩ hc
    obtain ⟨j, hj, hi, hbuf⟩ := mem_dumpLoop.mp hc
    dsimp only at hi hbuf
    rw [hzero, Nat.zero_add] at hj hi
    have hchunk := h j hj
    rwa [← hi, ← hbuf, BitVec.ofNat_toNat, BitVec.ofNat_toNat, BitVec.setWidth_eq,
      BitVec.setWidth_eq] at hchunk

end Psp2Shell.Kernel
