import Psp2Shell.CLib.Words
import Psp2Shell.Kernel.Dump

/-! The chunks of `kpsp2shell_dump`: they follow each other through the region, each byte of it is
in one of them, and the file that they make holds it. -/

namespace Psp2Shell.Kernel

open CLib

/-- The chunk reaches over offset `k` of the region. -/
def Chunk.Reaches (c : Chunk) (k : Nat) : Prop := c.i.toNat ≤ k ∧ k < c.i.toNat + c.bufsize.toNat

/-- Chunks of 1 to `CHUNK_SIZE` bytes from offset `start` to offset `stop`, each where the counter
stands behind the one before it. -/
def Tiles (start stop : Nat) : List Chunk → Prop
  | [] => start = stop
  | c :: cs => c.i.toNat = start ∧ 0 < c.bufsize.toNat ∧ c.bufsize.toNat ≤ chunkSize ∧
      (c.i + c.bufsize).toNat = start + c.bufsize.toNat ∧ Tiles (c.i + c.bufsize).toNat stop cs

variable {start stop : Nat} {cs : List Chunk} {c : Chunk}

theorem Tiles.le (h : Tiles start stop cs) : start ≤ stop := by
  induction cs generalizing start with
  | nil => exact h.le
  | cons c cs ih =>
    obtain ⟨-, -, -, hnext, htail⟩ := h
    have hle := ih htail
    omega

/-- The counter stays in the region, and is not wrapped by what a chunk adds to it. -/
theorem Tiles.inside (h : Tiles start stop cs) (hc : c ∈ cs) :
    start ≤ c.i.toNat ∧ (c.i + c.bufsize).toNat = c.i.toNat + c.bufsize.toNat ∧
      (c.i + c.bufsize).toNat ≤ stop := by
  induction cs generalizing start with
  | nil => cases hc
  | cons d cs ih =>
    obtain ⟨hstart, -, -, hnext, htail⟩ := h
    rcases List.mem_cons.mp hc with rfl | hc
    · exact ⟨hstart.ge, by omega, htail.le⟩
    · obtain ⟨hle, hadd, hstop⟩ := ih htail hc
      exact ⟨by omega, hadd, hstop⟩

theorem Tiles.size (h : Tiles start stop cs) (hc : c ∈ cs) :
    0 < c.bufsize.toNat ∧ c.bufsize.toNat ≤ chunkSize := by
  induction cs generalizing start with
  | nil => cases hc
  | cons d cs ih =>
    obtain ⟨-, hpos, hle, -, htail⟩ := h
    rcases List.mem_cons.mp hc with rfl | hc
    · exact ⟨hpos, hle⟩
    · exact ih htail hc

theorem Tiles.disjoint (h : Tiles start stop cs) :
    cs.Pairwise fun c c' => c.i.toNat + c.bufsize.toNat ≤ c'.i.toNat := by
  induction cs generalizing start with
  | nil => exact .nil
  | cons c cs ih =>
    obtain ⟨hstart, -, -, hnext, htail⟩ := h
    refine .cons (fun c' hc' => ?_) (ih htail)
    have hbehind := (htail.inside hc').1
    omega

/-- Every offset is in one chunk, and in no other. -/
theorem Tiles.existsUnique (h : Tiles start stop cs) {k : Nat} (hstart : start ≤ k)
    (hstop : k < stop) :
    ∃! c, c ∈ cs ∧ c.Reaches k := by
  induction cs generalizing start with
  | nil =>
    have heq : start = stop := h
    omega
  | cons c cs ih =>
    obtain ⟨hi, -, -, hnext, htail⟩ := h
    by_cases hk : k < (c.i + c.bufsize).toNat
    · refine ⟨c, ⟨List.mem_cons_self, by omega, by omega⟩, ?_⟩
      rintro d ⟨hd, hreach, -⟩
      rcases List.mem_cons.mp hd with rfl | hd
      · rfl
      · have hbehind := (htail.inside hd).1
        omega
    · obtain ⟨d, ⟨hd, hreach⟩, hunique⟩ := ih htail (Nat.not_lt.mp hk)
      refine ⟨d, ⟨List.mem_cons_of_mem c hd, hreach⟩, ?_⟩
      rintro e ⟨he, hreach'⟩
      rcases List.mem_cons.mp he with rfl | he
      · have hend := hreach'.2
        omega
      · exact hunique e ⟨he, hreach'⟩

theorem dumpLoop_tiles (size i : BitVec 32) (hle : i ≤ size) :
    Tiles i.toNat size.toNat (dumpLoop size i) := by
  fun_induction dumpLoop size i with
  | case1 i hlt ih =>
    have hbuf := bufsizeAt_toNat hlt
    have hnext := counter_next hlt
    have hlt' := BitVec.lt_def.mp hlt
    rw [chunkSize] at hbuf
    refine ⟨rfl, ?_, ?_, hnext, ih ?_⟩
    · show 0 < (bufsizeAt size i).toNat
      omega
    · show (bufsizeAt size i).toNat ≤ 2048
      omega
    · rw [BitVec.le_def]
      omega
  | case2 i hge =>
    have hge' := BitVec.lt_def.not.mp hge
    have hle' := BitVec.le_def.mp hle
    show i.toNat = size.toNat
    omega

/-- The rounds of the loop. -/
theorem dumpLoop_length (size i : BitVec 32) :
    (dumpLoop size i).length = (size.toNat - i.toNat + (chunkSize - 1)) / chunkSize := by
  fun_induction dumpLoop size i with
  | case1 i hlt ih =>
    have hbuf := bufsizeAt_toNat hlt
    have hnext := counter_next hlt
    have hlt' := BitVec.lt_def.mp hlt
    rw [List.length_cons, ih]
    simp only [chunkSize] at hbuf ⊢
    omega
  | case2 i hge =>
    have hge' := BitVec.lt_def.not.mp hge
    rw [Nat.sub_eq_zero_of_le (by omega)]
    rfl

theorem region_eq {memory : Nat → Byte} {addr : BitVec 32} {n : Nat}
    (hend : addr.toNat + n ≤ 2 ^ 32) :
    region (fun a => memory a.toNat) addr n = (List.range n).map fun k =>
      memory (addr.toNat + k) := by
  refine List.map_congr_left fun k hk => ?_
  have hlt := List.mem_range.mp hk
  exact congrArg memory (toNat_add_ofNat (by omega))

/-- The loop takes as many rounds as there are chunks, whole or begun, in the region; they
cover it once; and with every copy and write done in full the file holds the bytes from
`addr` to `addr + size`. -/
theorem dump_covers_once (o : DumpCalls) (memory : Nat → Byte)
    (filename : List Byte) (files : Files) (addr size : BitVec 32) (hopen : 0 < o.fd)
    (hend : addr.toNat + size.toNat ≤ 2 ^ 32)
    (hdone : ∀ c ∈ dumpLoop size 0, o.Whole (fun a => memory a.toNat) addr c) :
    (dumpLoop size 0).length = (size.toNat + (chunkSize - 1)) / chunkSize ∧
    Tiles 0 size.toNat (dumpLoop size 0) ∧
    (∀ c ∈ dumpLoop size 0, 1 ≤ c.bufsize.toNat ∧ c.bufsize.toNat ≤ chunkSize ∧
      (c.i + c.bufsize).toNat = c.i.toNat + c.bufsize.toNat ∧
      (c.i + c.bufsize).toNat ≤ size.toNat) ∧
    (dumpLoop size 0).Pairwise (fun c c' => c.i.toNat + c.bufsize.toNat ≤ c'.i.toNat) ∧
    (∀ k < size.toNat, ∃! c, c ∈ dumpLoop size 0 ∧ c.Reaches k) ∧
    ∃ after, kpsp2shellDump o filename addr size files = (0, after) ∧
      after.created filename =
        some ((List.range size.toNat).map fun k => memory (addr.toNat + k)) := by
  have htiles : Tiles 0 size.toNat (dumpLoop size 0) := dumpLoop_tiles size 0 (Nat.zero_le _)
  have hcontent := (dumpLoop_content_iff o (fun a => memory a.toNat) addr size 0).mpr hdone
  rw [show addr + (0 : BitVec 32) = addr from BitVec.add_zero addr,
    show (0 : BitVec 32).toNat = 0 from rfl, Nat.sub_zero, region_eq hend] at hcontent
  refine ⟨dumpLoop_length size 0, htiles, fun c hc => ?_, htiles.disjoint,
    fun k hk => htiles.existsUnique (Nat.zero_le k) hk, ?_⟩
  · exact ⟨(htiles.size hc).1, (htiles.size hc).2, (htiles.inside hc).2⟩
  · refine ⟨_, if_neg (not_le.mpr hopen), ?_⟩
    rw [hcontent]
    exact Function.update_self ..

/-- Calls that do all of their work in a process with the given memory. -/
def wholeCalls (memory : Nat → Byte) : DumpCalls where
  fd := 66
  copied := fun a => ⟨region (fun a => memory a.toNat) a chunkSize, region_length _ a chunkSize⟩
  written := fun _ => chunkSize

theorem wholeCalls_whole (memory : Nat → Byte) (addr : BitVec 32)
    (hle : c.bufsize.toNat ≤ chunkSize) :
    (wholeCalls memory).Whole (fun a => memory a.toNat) addr c := by
  obtain ⟨n, hn⟩ := Nat.exists_eq_add_of_le hle
  have hcopied : ((wholeCalls memory).copied (addr + c.i)).bytes =
      region (fun a => memory a.toNat) (addr + c.i) chunkSize := by rw [wholeCalls]
  refine ⟨?_, hle⟩
  rw [hcopied, hn, region_add, List.take_left' (region_length _ _ _)]

/-- A region of one chunk and a byte, at the top of the addresses. -/
theorem dump_covers_top : ∃ after,
    kpsp2shellDump (wholeCalls UInt8.ofNat)
      (ascii "ux0:a") 0xFFFFF7FF 2049 ⟨[], fun _ => none⟩ = (0, after) ∧
    after.created (ascii "ux0:a") =
      some ((List.range 2049).map fun k => UInt8.ofNat (0xFFFFF7FF + k)) := by
  have hsize : (2049 : BitVec 32).toNat = 2049 := rfl
  have haddr : (0xFFFFF7FF : BitVec 32).toNat = 0xFFFFF7FF := rfl
  have htiles := dumpLoop_tiles 2049 0 (by decide)
  obtain ⟨after, hdump, hcontent⟩ :=
    (dump_covers_once (wholeCalls UInt8.ofNat) UInt8.ofNat (ascii "ux0:a")
    ⟨[], fun _ => none⟩ 0xFFFFF7FF 2049 (by decide) (by decide) fun c hc =>
      wholeCalls_whole UInt8.ofNat 0xFFFFF7FF (htiles.size hc).2).2.2.2.2.2
  rw [hsize, haddr] at hcontent
  exact ⟨after, hdump, hcontent⟩

end Psp2Shell.Kernel
