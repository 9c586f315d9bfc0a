import Psp2Shell.Kernel.Dump

/-! The paths of a module dump, and its run over the segments when they fit. -/

namespace Psp2Shell.Kernel

open CLib

/-- The segments that `kpsp2shell_dump_module` dumps. -/
def DumpSystem.Dumps (sys : DumpSystem) (info : ModuleInfo) (i : Fin 4) : Prop :=
  ¬sys.Skips (info.segments i)

instance (sys : DumpSystem) (info : ModuleInfo) : DecidablePred (sys.Dumps info) :=
  fun _ => inferInstanceAs (Decidable ¬_)

def DumpSystem.dumped (sys : DumpSystem) (info : ModuleInfo) (is : List (Fin 4)) : List (Fin 4) :=
  is.filter fun i => sys.Dumps info i

/-- Where the dump of a segment belongs. -/
def dumpName (dst : List Byte) (info : ModuleInfo) (i : Fin 4) : List Byte :=
  dst ++ segmentText info.moduleName (info.segments i).vaddr i

/-- The room that a segment's path and its NUL take. -/
def pathRoom (dst name : List Byte) : Nat := dst.length + name.length + 22

/-! ### A path -/

variable {c : UserStrncpy} {sys : DumpSystem} {info : ModuleInfo} {dst name : List Byte}
  {vaddr : BitVec 32} {i : Fin 4}

theorem decimal_index (i : Fin 4) : decimal i = [UInt8.ofNat (48 + i)] := by
  fin_cases i <;> decide

theorem segmentText_length (name : List Byte) (vaddr : BitVec 32) (i : Fin 4) :
    (segmentText name vaddr i).length = name.length + 21 := by
  have hslash : (ascii "/").length = 1 := by decide +kernel
  have hat : (ascii "_0x").length = 3 := by decide +kernel
  have hseg : (ascii "_seg").length = 4 := by decide +kernel
  have hbin : (ascii ".bin").length = 4 := by decide +kernel
  have hindex : (decimal i).length = 1 := by rw [decimal_index, List.length_singleton]
  simp only [segmentText, List.length_append, hslash, hat, hex8_length, hseg, hindex, hbin]
  omega

theorem nul_segmentText {name : List Byte} (hname : 0 ∉ name) (vaddr : BitVec 32) (i : Fin 4) :
    0 ∉ segmentText name vaddr i := by
  have hparts : 0 ∉ ascii "/" ∧ 0 ∉ ascii "_0x" ∧ 0 ∉ ascii "_seg" ∧ 0 ∉ ascii ".bin" := by
    decide +kernel
  have hindex : 0 ∉ decimal i := not_mem_decimal (by decide) (by decide) i
  simp only [segmentText, List.mem_append, not_or]
  exact ⟨⟨⟨⟨⟨⟨hparts.1, hname⟩, hparts.2.1⟩, nul_hex8 vaddr⟩, hparts.2.2.1⟩, hindex⟩, hparts.2.2.2⟩

/-- The index keeps the paths of two segments apart. -/
theorem dumpName_injective (dst : List Byte) (info : ModuleInfo) :
    Function.Injective (dumpName dst info) := by
  intro i j h
  have htext := List.append_cancel_left h
  simp only [segmentText] at htext
  have hindex := (List.append_inj' (List.append_cancel_right htext) (by simp [decimal_index])).2
  rw [decimal_index, decimal_index] at hindex
  clear h htext
  revert i j
  decide

theorem snprintf_length (size : Nat) (text : List Byte) :
    (snprintf size text).length = min (size - 1) text.length :=
  List.length_take

/-- A destination that leaves room for what `snprintf` prints, which may be cut
off, is followed by it. -/
theorem segmentPath_short (c : UserStrncpy) (hdst : 0 ∉ dst) (hname : 0 ∉ name)
    (hroom : dst.length + (snprintf 128 (segmentText name vaddr i)).length < 128) :
    segmentPath c dst name vaddr i = some (dst ++ snprintf 128 (segmentText name vaddr i)) := by
  have hnul : 0 ∉ snprintf 128 (segmentText name vaddr i) := fun h =>
    nul_segmentText hname vaddr i (List.mem_of_mem_take h)
  have hcopy : (c.copy 128 dst).str = some dst := by
    rw [c.short 128 dst (by omega)]
    exact Buffer.cstring_zero_blit_plain hdst (by omega)
  have hstrcpy := Buffer.strcpy_eq_some (b := c.copy 128 dst).mpr ⟨hroom, rfl⟩
  rw [segmentPath, hcopy, Option.bind_some, hstrcpy, Option.bind_some]
  exact Buffer.str_strcpy (Buffer.take_of_str hcopy) hdst hnul hstrcpy

/-- A path that fits is built as it belongs. -/
theorem segmentPath_fits (c : UserStrncpy) (hdst : 0 ∉ dst) (hname : 0 ∉ name)
    (hroom : pathRoom dst name ≤ 128) (vaddr : BitVec 32) (i : Fin 4) :
    segmentPath c dst name vaddr i = some (dst ++ segmentText name vaddr i) := by
  have htext := segmentText_length name vaddr i
  rw [pathRoom] at hroom
  have hsnprintf : snprintf 128 (segmentText name vaddr i) = segmentText name vaddr i :=
    snprintf_of_lt (by omega)
  have hshort : segmentPath c dst name vaddr i =
    some (dst ++ snprintf 128 (segmentText name vaddr i)) :=
    segmentPath_short c hdst hname (by rw [hsnprintf]; omega)
  rwa [hsnprintf] at hshort

/-- Whatever is built ends within the buffer. -/
theorem segmentPath_length {path : List Byte} (h : segmentPath c dst name vaddr i = some path) :
    path.length < 128 := by
  obtain ⟨s, -, h⟩ := Option.bind_eq_some_iff.mp h
  obtain ⟨b, -, h⟩ := Option.bind_eq_some_iff.mp h
  exact (Buffer.str_eq_some h).2.1

/-- A destination that fills the buffer leaves at most its last byte for a NUL. -/
theorem copy_long (c : UserStrncpy) (hdst : 0 ∉ dst) (hlong : 128 ≤ dst.length) {s : List Byte}
    (h : (c.copy 128 dst).str = some s) : 127 ≤ s.length := by
  by_contra hshort
  obtain ⟨-, -, rest, hbytes⟩ := Buffer.str_eq_some h
  have hstart := c.long 128 dst hlong
  rw [hbytes] at hstart
  have hnul : (0 : Byte) ∈ (s ++ 0 :: rest).take (128 - 1) := by
    rw [List.take_append, List.mem_append]
    obtain ⟨k, hk⟩ : ∃ k, 128 - 1 - s.length = k + 1 := ⟨126 - s.length, by omega⟩
    rw [hk]
    exact Or.inr List.mem_cons_self
  rw [hstart] at hnul
  exact hdst (List.mem_of_mem_take hnul)

/-- The path is built within the buffer when it fits, and also behind an empty destination, where
`snprintf` cuts off what does not. -/
theorem segmentPath_isSome (c : UserStrncpy) (hdst : 0 ∉ dst) (hname : 0 ∉ name) (vaddr : BitVec 32)
    (i : Fin 4) :
    (segmentPath c dst name vaddr i).isSome ↔ dst = [] ∨ pathRoom dst name ≤ 128 := by
  have htext := segmentText_length name vaddr i
  have hcut := snprintf_length 128 (segmentText name vaddr i)
  constructor
  · intro h
    obtain ⟨path, hpath⟩ := Option.isSome_iff_exists.mp h
    obtain ⟨s, hs, hpath⟩ := Option.bind_eq_some_iff.mp hpath
    obtain ⟨b, hb, -⟩ := Option.bind_eq_some_iff.mp hpath
    have hroom := (Buffer.strcpy_eq_some.mp hb).1
    rcases Nat.lt_or_ge dst.length 128 with hlt | hge
    · rw [c.short 128 dst hlt, Buffer.str, Buffer.cstring_zero_blit_plain hdst hlt] at hs
      obtain rfl := Option.some.inj hs
      by_cases hempty : dst = []
      · exact Or.inl hempty
      · have hpos := List.length_pos_iff.mpr hempty
        rw [pathRoom]
        omega
    · have hlen := copy_long c hdst hge hs
      omega
  · rintro (rfl | hroom)
    · rw [segmentPath_short c hdst hname (by rw [List.length_nil]; omega)]
      rfl
    · rw [segmentPath_fits c hdst hname hroom]
      rfl

/-! ### A run over the segments -/

/-- The file of a segment, when it is created. -/
def DumpSystem.content (sys : DumpSystem) (info : ModuleInfo) (i : Fin 4) : List Byte :=
  (dumpLoop (info.segments i).memsz 0).flatMap ((sys.dump i).adds (info.segments i).vaddr)

/-- What `kpsp2shell_dump` returns for a segment. -/
def DumpSystem.dumpRet (sys : DumpSystem) (i : Fin 4) : Int :=
  if (sys.dump i).fd ≤ 0 then (sys.dump i).fd else 0

/-- The segments whose dump creates the file `p`. -/
def DumpSystem.creates (sys : DumpSystem) (path : Fin 4 → List Byte) (p : List Byte)
    (is : List (Fin 4)) :
    List (Fin 4) :=
  is.filter fun i => 0 < (sys.dump i).fd ∧ path i = p

/-- The iterations for the segments `is`, with the paths `path`, lead from `s` to `t`. -/
structure Iterated (sys : DumpSystem) (info : ModuleInfo) (path : Fin 4 → List Byte)
    (is : List (Fin 4)) (s t : DumpState) : Prop where
  opened : t.files.opened = s.files.opened ++ (sys.dumped info is).map path
  ret : t.ret = (sys.dumped info is).getLast?.elim s.ret sys.dumpRet
  created : ∀ p, t.files.created p =
    (sys.creates path p (sys.dumped info is)).getLast?.elim (s.files.created p) fun i =>
      some (sys.content info i)

variable {path : Fin 4 → List Byte} {s t u : DumpState} {is : List (Fin 4)}

theorem dumped_cons_pos (h : sys.Dumps info i) (is : List (Fin 4)) :
    sys.dumped info (i :: is) = i :: sys.dumped info is :=
  List.filter_cons_of_pos (decide_eq_true h)

theorem dumped_cons_neg (h : ¬sys.Dumps info i) (is : List (Fin 4)) :
    sys.dumped info (i :: is) = sys.dumped info is :=
  List.filter_cons_of_neg (by simpa using h)

theorem dumpSegment_skips (h : ¬sys.Dumps info i) : dumpSegment sys dst info s i = some s :=
  if_pos (not_not.mp h)

/-- An iteration that dumps a segment whose path is built. -/
theorem dumpSegment_dumps (h : sys.Dumps info i)
    (hpath : segmentPath sys.strncpy dst info.moduleName (info.segments i).vaddr i =
      some (path i)) :
    ∃ t, dumpSegment sys dst info s i = some t ∧ Iterated sys info path [i] s t := by
  obtain ⟨hooks, hhooks⟩ := printHook_returns s.hooks (p := dumping (path i)) (Int.natCast_nonneg _)
  have hdumped : sys.dumped info [i] = [i] := dumped_cons_pos h []
  let after :=
    kpsp2shellDump (sys.dump i) (path i) (info.segments i).vaddr (info.segments i).memsz s.files
  refine ⟨⟨after.1, after.2, hooks⟩, ?step, ⟨?opened, ?ret, ?created⟩⟩
  case step =>
    rw [dumpSegment, if_neg h, hpath, Option.bind_some, ksceDebugPrintfHook, hhooks]
    rfl
  all_goals simp only [hdumped, after, kpsp2shellDump]
  case opened => split <;> rfl
  case ret =>
    simp only [List.getLast?_singleton, Option.elim_some, DumpSystem.dumpRet]
    split <;> rfl
  case created =>
    intro p
    split
    · rename_i hfd
      have hnone : sys.creates path p [i] = [] := List.filter_cons_of_neg (by simp; omega)
      rw [hnone]
      rfl
    · rename_i hfd
      by_cases hp : path i = p
      · have hone : sys.creates path p [i] = [i] := List.filter_cons_of_pos (by simp [hp]; omega)
        rw [hone, ← hp]
        exact Function.update_self ..
      · have hnone : sys.creates path p [i] = [] := List.filter_cons_of_neg (by simp [hp])
        rw [hnone]
        exact Function.update_of_ne (Ne.symm hp) ..

theorem Iterated.skip (h : sys.dumped info is = []) (s : DumpState) :
    Iterated sys info path is s s := by
  refine ⟨?_, ?_, fun p => ?_⟩ <;> rw [h]
  · exact (List.append_nil _).symm
  · rfl
  · rfl

theorem Iterated.trans (h : Iterated sys info path [i] s t) (h' : Iterated sys info path is t u) :
    Iterated sys info path (i :: is) s u := by
  have hsplit : sys.dumped info (i :: is) = sys.dumped info [i] ++ sys.dumped info is :=
    List.filter_append [i] is
  refine ⟨?_, ?_, fun p => ?_⟩
  · rw [h'.opened, h.opened, hsplit, List.map_append, List.append_assoc]
  · rw [h'.ret, h.ret, hsplit, List.getLast?_append]
    cases (sys.dumped info is).getLast? <;> rfl
  · have hcreates : sys.creates path p (sys.dumped info [i] ++ sys.dumped info is) =
        sys.creates path p (sys.dumped info [i]) ++ sys.creates path p (sys.dumped info is) :=
      List.filter_append ..
    rw [h'.created, h.created, hsplit, hcreates, List.getLast?_append]
    cases (sys.creates path p (sys.dumped info is)).getLast? <;> rfl

/-- The loop over segments whose paths are built. -/
theorem run_dumpSegment (hpath : ∀ i, sys.Dumps info i →
      segmentPath sys.strncpy dst info.moduleName (info.segments i).vaddr i = some (path i))
    (is : List (Fin 4)) (s : DumpState) :
    ∃ t, run (dumpSegment sys dst info) s is = some t ∧ Iterated sys info path is s t := by
  induction is generalizing s with
  | nil => exact ⟨s, rfl, .skip rfl s⟩
  | cons i is ih =>
    by_cases h : sys.Dumps info i
    · obtain ⟨t, hstep, ht⟩ := dumpSegment_dumps (s := s) h (hpath i h)
      obtain ⟨u, hrun, hu⟩ := ih t
      exact ⟨u, (run_cons hstep is).trans hrun, ht.trans hu⟩
    · obtain ⟨u, hrun, hu⟩ := ih s
      exact ⟨u, (run_cons (dumpSegment_skips h) is).trans hrun,
        .trans (.skip (dumped_cons_neg h []) s) hu⟩

theorem dumpSegment_opened (h : sys.Dumps info i) (hstep : dumpSegment sys dst info s i = some t) :
    ∃ path, segmentPath sys.strncpy dst info.moduleName (info.segments i).vaddr i = some path ∧
      t.files.opened = s.files.opened ++ [path] := by
  rw [dumpSegment, if_neg h] at hstep
  obtain ⟨path, hpath, hstep⟩ := Option.bind_eq_some_iff.mp hstep
  obtain ⟨hooks, -, rfl⟩ := Option.map_eq_some_iff.mp hstep
  refine ⟨path, hpath, ?_⟩
  simp only [kpsp2shellDump]
  split <;> rfl

/-- The loop opens what is built of each path, whether it is as it belongs or not. -/
theorem run_opened (hrun : run (dumpSegment sys dst info) s is = some t) :
    ∃ paths, t.files.opened = s.files.opened ++ paths ∧
      paths.map some = (sys.dumped info is).map fun i =>
        segmentPath sys.strncpy dst info.moduleName (info.segments i).vaddr i := by
  induction is generalizing s with
  | nil =>
    cases hrun
    exact ⟨[], by simp, rfl⟩
  | cons i is ih =>
    cases hstep : dumpSegment sys dst info s i with
    | none => simp [run, hstep] at hrun
    | some u =>
      rw [run_cons hstep] at hrun
      obtain ⟨paths, hopened, hpaths⟩ := ih hrun
      by_cases h : sys.Dumps info i
      · obtain ⟨path, hpath, hu⟩ := dumpSegment_opened h hstep
        refine ⟨path :: paths, by rw [hopened, hu, List.append_assoc]; rfl, ?_⟩
        rw [dumped_cons_pos h, List.map_cons, List.map_cons, hpath, hpaths]
      · obtain rfl := Option.some.inj ((dumpSegment_skips h).symm.trans hstep)
        exact ⟨paths, hopened, dumped_cons_neg h is ▸ hpaths⟩

/-! ### The paths of a dump -/

/-- A dump of module `uid` opens the path of each segment that it does not pass over, or nothing,
and then returns an error. -/
def PathsBuilt (sys : DumpSystem) (pid uid : Int) (dst : List Byte) (hooks : Hooks) : Prop :=
  ∃ t, kpsp2shellDumpModule sys pid uid dst hooks = some t ∧
    (t.files.opened =
        (sys.dumped (sys.kinfo pid uid) (List.finRange 4)).map (dumpName dst (sys.kinfo pid uid)) ∨
      t.files.opened = [] ∧ t.ret < 0)

variable {pid uid : Int} {hooks : Hooks}

theorem mem_dumped : i ∈ sys.dumped info (List.finRange 4) ↔ sys.Dumps info i := by
  simp [DumpSystem.dumped]

theorem dumpModule_refused (h : sys.infoRet pid uid < 0) :
    kpsp2shellDumpModule sys pid uid dst hooks = some (.start (sys.infoRet pid uid) hooks) :=
  if_neg h.not_ge

theorem dumpModule_loops (h : 0 ≤ sys.infoRet pid uid) :
    kpsp2shellDumpModule sys pid uid dst hooks =
      run (dumpSegment sys dst (sys.kinfo pid uid)) (.start (sys.infoRet pid uid) hooks)
        (List.finRange 4) :=
  if_pos h

variable (hooks) in
/-- Paths that fit, or are not needed, are built as they belong. -/
theorem dumpModule_iterates (hdst : 0 ∉ dst) (hret : 0 ≤ sys.infoRet pid uid)
    (hroom : ∀ i, sys.Dumps (sys.kinfo pid uid) i →
      pathRoom dst (sys.kinfo pid uid).moduleName ≤ 128) :
    ∃ t, kpsp2shellDumpModule sys pid uid dst hooks = some t ∧
      Iterated sys (sys.kinfo pid uid) (dumpName dst (sys.kinfo pid uid)) (List.finRange 4)
        (.start (sys.infoRet pid uid) hooks) t := by
  rw [dumpModule_loops hret]
  exact run_dumpSegment
    (fun i hi => segmentPath_fits _ hdst (sys.kinfo pid uid).plain (hroom i hi) _ i) _ _

/-- A segment's path that is built as it belongs has fit. -/
theorem pathRoom_of_built (hret : 0 ≤ sys.infoRet pid uid) (h : PathsBuilt sys pid uid dst hooks)
    (hi : sys.Dumps (sys.kinfo pid uid) i) : pathRoom dst (sys.kinfo pid uid).moduleName ≤ 128 := by
  obtain ⟨t, ht, hbuilt⟩ := h
  rw [dumpModule_loops hret] at ht
  obtain ⟨paths, hopened, hpaths⟩ := run_opened ht
  have hmem := mem_dumped.mpr hi
  rw [DumpState.start, List.nil_append] at hopened
  rcases hbuilt with hbuilt | ⟨hempty, -⟩
  · rw [← hopened, hbuilt, List.map_map, List.map_inj_left] at hpaths
    have hlen := segmentPath_length (hpaths i hmem).symm
    rw [dumpName, List.length_append, segmentText_length] at hlen
    rw [pathRoom]
    omega
  · rw [← hopened, hempty, List.map_nil, eq_comm, List.map_eq_nil_iff] at hpaths
    rw [hpaths] at hmem
    exact absurd hmem List.not_mem_nil

/-- The paths are built as they belong exactly when the info call fails, or there is nothing to
dump, or the destination and the name leave room for the rest. -/
theorem dump_paths_iff (sys : DumpSystem) (pid uid : Int) {dst : List Byte} (hooks : Hooks)
    (hdst : 0 ∉ dst) :
    PathsBuilt sys pid uid dst hooks ↔ sys.infoRet pid uid < 0 ∨
      (∀ i, sys.Skips ((sys.kinfo pid uid).segments i)) ∨
      dst.length + (sys.kinfo pid uid).moduleName.length + 22 ≤ 128 := by
  rcases lt_or_ge (sys.infoRet pid uid) 0 with hneg | hret
  · exact iff_of_true ⟨_, dumpModule_refused hneg, Or.inr ⟨rfl, hneg⟩⟩ (Or.inl hneg)
  rw [or_iff_right (by omega)]
  constructor
  · intro h
    by_cases hsome : ∃ i, sys.Dumps (sys.kinfo pid uid) i
    · obtain ⟨i, hi⟩ := hsome
      exact Or.inr (pathRoom_of_built hret h hi)
    · exact Or.inl fun i => not_not.mp (not_exists.mp hsome i)
  · intro hroom
    obtain ⟨t, ht, hloop⟩ := dumpModule_iterates hooks hdst hret fun i hi =>
      hroom.resolve_left fun hskip => hi (hskip i)
    exact ⟨t, ht, Or.inl hloop.opened⟩

/-- A module of one segment of one byte, of which every call of the dump succeeds. -/
def oneSegment (name : List Byte) (plain : 0 ∉ name) : DumpSystem where
  sizeofSegmentInfo := 24
  kernelUidForUserUid := fun _ uid => uid
  getModuleInfo := fun _ _ =>
    (0, ⟨name, plain, fun i => if i = 0 then ⟨24, 0x81000000, 1⟩ else ⟨0, 0, 0⟩⟩)
  strncpy := strncpyToKernel
  dump := fun _ => ⟨66, fun _ => Buffer.zero chunkSize, fun _ => chunkSize⟩

theorem plain_sceShell : 0 ∉ ascii "SceShell" := by decide +kernel

theorem dump_paths_shell :
    PathsBuilt (oneSegment (ascii "SceShell") plain_sceShell) 65541 5
      (ascii "ux0:data") startedHooks :=
  (dump_paths_iff _ 65541 5 startedHooks (by decide +kernel)).mpr
    (Or.inr (Or.inr (by decide +kernel)))

/-- A destination of 100 bytes and a name of 27 do not fit. -/
theorem dump_path_overruns :
    ¬PathsBuilt (oneSegment (List.replicate 27 97) (by decide)) 65541 5 (List.replicate 100 97)
      startedHooks := by
  intro h
  have hroom := pathRoom_of_built (i := 0) le_rfl h (by decide +kernel)
  exact absurd hroom (by decide +kernel)

end Psp2Shell.Kernel
