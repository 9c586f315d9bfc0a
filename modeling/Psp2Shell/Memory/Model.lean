import Psp2Shell.CLib.Words
import Psp2Shell.Kernel.Dump

/-! The memory commands of `psp2shell_m/source/cmd.c`: `cmd_memr`, which prints words, and
`cmd_memw`, which injects words into the segment of a module. -/

namespace Psp2Shell.Memory

open CLib Kernel

/-- `(unsigned int) strtoul(s, NULL, 16)` on the console, where `unsigned long` has 32 bits. -/
def parseHex (s : List Byte) : BitVec 32 := BitVec.ofNat 32 (strtoul 32 16 s)

/-! ### Reading -/

/-- What `cmd_memr` passes to a call of `psp2shell_print_color`: `addr` and
`addr[0]` to `addr[3]`. -/
@[ext] structure HexLine where
  addr : BitVec 32
  words : Fin 4 → BitVec 32

/-- The text of `"0x%08X: %08X %08X %08X %08X\n"`. -/
def HexLine.text (l : HexLine) : List Byte :=
  ascii "0x" ++ hex8 l.addr ++ ascii ":" ++
    (List.finRange 4).flatMap (fun i => ascii " " ++ hex8 (l.words i)) ++ ascii "\n"

example : HexLine.text ⟨0x81000010, fun i => BitVec.ofNat 32 (0xDEADBEE0 + i)⟩ =
    ascii "0x81000010: DEADBEE0 DEADBEE1 DEADBEE2 DEADBEE3\n" := by decide

/-- The line of the 16 bytes at `addr`. -/
def hexLine (memory : ByteMemory) (addr : BitVec 32) : HexLine :=
  ⟨addr, fun i => loadWord memory (addr + BitVec.ofNat 32 (4 * i))⟩

/-- The loop of `cmd_memr` for at most `fuel - 1` lines, and `none` when it takes more; `memory k`
is what the memory holds when line `k` is read. -/
def memrLoop (max : BitVec 32) : Nat → (Nat → ByteMemory) → BitVec 32 → Option (List HexLine)
  | 0, _, _ => none
  | fuel + 1, memory, addr =>
    if addr < max then
      (memrLoop max fuel (fun k => memory (k + 1)) (addr + 16)).map (hexLine (memory 0) addr :: ·)
    else some []

/-- `cmd_memr`: the lines that it prints. -/
def cmdMemr (fuel : Nat) (memory : Nat → ByteMemory) (addressStr sizeStr : List Byte) :
    Option (List HexLine) :=
  let address := parseHex addressStr
  let size := parseHex sizeStr
  let max := address + size
  memrLoop max fuel memory address

/-! ### Writing -/

/-- `SceKernelModuleInfo` of a module that is loaded, as far as `cmd_memw` reads it. -/
structure LoadedModule where
  modid : BitVec 32
  modid_ne : modid ≠ 0
  segments : Fin 4 → SegmentInfo

/-- What the kernel says of the modules of the process: the ids that `sceKernelGetModuleList`
stores, and what `sceKernelGetModuleInfo` gives for one; `none` when the call fails. -/
structure Modules where
  list : Option (List (BitVec 32))
  info : BitVec 32 → Option LoadedModule

/-- `uid`, `segment` and `offset` of `cmd_memw`. -/
structure Found where
  uid : BitVec 32
  segment : Int
  offset : BitVec 32

/-- The test of a segment in the search of `cmd_memw`. -/
def holds (address : BitVec 32) (seg : SegmentInfo) : Bool :=
  seg.memsz ≠ 0 && seg.vaddr ≤ address && address < seg.vaddr + seg.memsz

/-- What a module that is listed makes of the search: it goes on behind a segment that holds the
address, too, with the next module. -/
def searchModule (address : BitVec 32) (found : Found) (info : Option LoadedModule) : Found :=
  match info with
  | none => found
  | some m =>
    match (List.finRange 4).find? fun j => holds address (m.segments j) with
    | none => found
    | some j => ⟨m.modid, j, address - (m.segments j).vaddr⟩

/-- The search of `cmd_memw`. -/
def search (sys : Modules) (ids : List (BitVec 32)) (address : BitVec 32) : Found :=
  ids.foldl (fun found id => searchModule address found (sys.info id)) ⟨0, -1, 0⟩

/-- The arguments of `taiInjectData(uid, segment, offset, &data, 4)`. -/
structure Injection where
  uid : BitVec 32
  segment : Int
  offset : BitVec 32
  data : BitVec 32
deriving DecidableEq

/-- `data` of an iteration: `strtoul` reads `tmp`, which `strncpy` fills with the digits, and goes
on with what lies behind it. -/
def tmpData (dataStr : List Byte) (behind : Nat → List Byte) (i : Nat) : BitVec 32 :=
  parseHex (strncpy (dataStr.drop (i * 8)) 8 ++ behind i)

/-- The loop of `cmd_memw` from iteration `i` on, with `n` to come. -/
def memwLoop (found : Found) (dataStr : List Byte) (behind : Nat → List Byte) :
    Nat → Nat → BitVec 32 → List Injection
  | 0, _, _ => []
  | n + 1, i, offset =>
    ⟨found.uid, found.segment, offset, tmpData dataStr behind i⟩ ::
      memwLoop found dataStr behind n (i + 1) (offset + 4)

/-- `cmd_memw`: the injections that it makes. `behind i` are the bytes that lie behind `tmp` in
iteration `i`, up to a NUL. -/
def cmdMemw (sys : Modules) (behind : Nat → List Byte) (addressStr dataStr : List Byte) :
    List Injection :=
  let address := parseHex addressStr
  let size := dataStr.length / 8
  match sys.list with
  | none => []
  | some ids =>
    let found := search sys ids address
    if found.uid = 0 then [] else memwLoop found dataStr behind size 0 found.offset

end Psp2Shell.Memory
