import Psp2Shell.Kernel.DumpPath

/-! When the result of a module dump can be trusted: one variable holds what the info call and the
dumps of all segments return, and the results of the copies and writes are dropped. -/

namespace Psp2Shell.Kernel

open CLib

/-- Each segment that is not passed over has its file, which holds the bytes of the process. -/
def DumpedWhole (sys : DumpSystem) (memory : BitVec 32 → Byte) (dst : List Byte) (info : ModuleInfo)
    (t : DumpState) : Prop :=
  ∀ i, sys.Dumps info i → t.files.created (dumpName dst info i) =
    some (region memory (info.segments i).vaddr (info.segments i).memsz.toNat)

/-- A dump of module `uid` returns no error unless every segment has been dumped, and the server
prints it as failed where one has not. -/
def ReportsDump (sys : DumpSystem) (memory : BitVec 32 → Byte) (pid uid : Int) (dst : List Byte)
    (hooks : Hooks) : Prop :=
  ∃ t, kpsp2shellDumpModule sys pid uid dst hooks = some t ∧
    (0 ≤ t.ret → DumpedWhole sys memory dst (sys.kinfo pid uid) t) ∧
    (¬DumpedWhole sys memory dst (sys.kinfo pid uid) t → (p2sModuleDumpForPid t.ret).1 = .red)

/-- The last segment that is not passed over. -/
def DumpSystem.Last (sys : DumpSystem) (info : ModuleInfo) (i : Fin 4) : Prop :=
  sys.Dumps info i ∧ ∀ j, i < j → ¬sys.Dumps info j

variable {sys : DumpSystem} {memory : BitVec 32 → Byte} {pid uid : Int}
  {dst : List Byte} {hooks : Hooks} {info : ModuleInfo} {path : Fin 4 → List Byte}
  {s t : DumpState} {i : Fin 4}

/-- A negative result is reported. -/
theorem failed_of_neg {res : Int} (h : res < 0) : (p2sModuleDumpForPid res).1 = .red := by
  rw [p2sModuleDumpForPid, if_pos h.ne]

theorem getLast_dumped (h : sys.Last info i) :
    (sys.dumped info (List.finRange 4)).getLast? = some i := by
  cases hlast : (sys.dumped info (List.finRange 4)).getLast? with
  | none =>
    rw [List.getLast?_eq_none_iff] at hlast
    exact absurd (mem_dumped.mpr h.1) (hlast ▸ List.not_mem_nil)
  | some j =>
    obtain ⟨init, hinit⟩ := List.getLast?_eq_some_iff.mp hlast
    have hj : sys.Dumps info j := mem_dumped.mp (List.mem_of_getLast? hlast)
    have hle : j ≤ i := not_lt.mp fun hlt => h.2 j hlt hj
    have hsorted : (sys.dumped info (List.finRange 4)).Pairwise (· < ·) :=
      (List.pairwise_lt_finRange 4).filter _
    have hi := mem_dumped.mpr h.1
    rw [hinit] at hsorted hi
    rcases List.mem_append.mp hi with hi | hi
    · have hlt := (List.pairwise_append.mp hsorted).2.2 i hi j (List.mem_singleton_self j)
      exact absurd hlt hle.not_gt
    · rw [List.mem_singleton.mp hi]

theorem exists_last (h : sys.Dumps info i) : ∃ j, sys.Last info j := by
  have hne : (Finset.univ.filter (sys.Dumps info)).Nonempty := ⟨i, by simpa using h⟩
  obtain ⟨j, hj⟩ := (Finset.univ.filter (sys.Dumps info)).exists_maximal hne
  refine ⟨j, by simpa using hj.prop, fun k hk hdumps => ?_⟩
  exact absurd (hj.le_of_ge (by simpa using hdumps) hk.le) hk.not_ge

/-- The variable ends with the result of the last dump. -/
theorem Iterated.ret_last (h : Iterated sys info path (List.finRange 4) s t)
    (hlast : sys.Last info i) :
    t.ret = sys.dumpRet i := by
  rw [h.ret, getLast_dumped hlast]
  rfl

theorem dumpRet_neg : sys.dumpRet i < 0 ↔ (sys.dump i).fd < 0 := by
  rw [DumpSystem.dumpRet]
  split <;> omega

/-- A file that is there after the loop is the file of a segment. -/
theorem Iterated.created_some {ret : Int}
    (h : Iterated sys info path (List.finRange 4) (.start ret hooks) t) {p content : List Byte}
    (hcreated : t.files.created p = some content) :
    ∃ i, sys.Dumps info i ∧ 0 < (sys.dump i).fd ∧ path i = p ∧ sys.content info i = content := by
  rw [h.created] at hcreated
  cases hlast : (sys.creates path p (sys.dumped info (List.finRange 4))).getLast? with
  | none => simp [hlast, DumpState.start] at hcreated
  | some i =>
    rw [hlast, Option.elim_some, Option.some.injEq] at hcreated
    obtain ⟨hmem, hcreates⟩ := List.mem_filter.mp (List.mem_of_getLast? hlast)
    obtain ⟨hfd, hp⟩ := of_decide_eq_true hcreates
    exact ⟨i, mem_dumped.mp hmem, hfd, hp, hcreated⟩

/-- The file of a segment that has been opened holds what its dump adds. -/
theorem Iterated.created_dumpName {ret : Int}
    (h : Iterated sys info (dumpName dst info) (List.finRange 4) (.start ret hooks) t)
    (hi : sys.Dumps info i) (hfd : 0 < (sys.dump i).fd) :
    t.files.created (dumpName dst info i) = some (sys.content info i) := by
  cases hcreated : t.files.created (dumpName dst info i) with
  | some content =>
    obtain ⟨j, -, -, hname, rfl⟩ := h.created_some hcreated
    rw [dumpName_injective dst info hname]
  | none =>
    rw [h.created] at hcreated
    cases hlast : (sys.creates (dumpName dst info) (dumpName dst info i)
        (sys.dumped info (List.finRange 4))).getLast? with
    | some j => simp [hlast] at hcreated
    | none =>
      have hmem : i ∈ sys.creates (dumpName dst info) (dumpName dst info i)
          (sys.dumped info (List.finRange 4)) :=
        List.mem_filter.mpr ⟨mem_dumped.mpr hi, decide_eq_true ⟨hfd, rfl⟩⟩
      rw [List.getLast?_eq_none_iff.mp hlast] at hmem
      exact absurd hmem List.not_mem_nil

variable (hooks) in
/-- With each path that it needs built within the buffer, the dump returns. -/
theorem dumpModule_of_room (hdst : 0 ∉ dst) (hret : 0 ≤ sys.infoRet pid uid)
    (hroom : ∀ i, sys.Dumps (sys.kinfo pid uid) i →
      dst = [] ∨ pathRoom dst (sys.kinfo pid uid).moduleName ≤ 128) :
    ∃ t path, (∀ i, sys.Dumps (sys.kinfo pid uid) i → (path i).length < 128) ∧
      kpsp2shellDumpModule sys pid uid dst hooks = some t ∧
      Iterated sys (sys.kinfo pid uid) path (List.finRange 4)
        (.start (sys.infoRet pid uid) hooks) t := by
  have hbuilt : ∀ i, ∃ path, sys.Dumps (sys.kinfo pid uid) i →
      segmentPath sys.strncpy dst (sys.kinfo pid uid).moduleName
        ((sys.kinfo pid uid).segments i).vaddr i = some path := by
    intro i
    by_cases hi : sys.Dumps (sys.kinfo pid uid) i
    · obtain ⟨path, hpath⟩ := Option.isSome_iff_exists.mp
        ((segmentPath_isSome sys.strncpy hdst (sys.kinfo pid uid).plain _ i).mpr (hroom i hi))
      exact ⟨path, fun _ => hpath⟩
    · exact ⟨[], fun h => absurd h hi⟩
  choose path hpath using hbuilt
  obtain ⟨t, ht, hloop⟩ :=
    run_dumpSegment hpath (List.finRange 4) (.start (sys.infoRet pid uid) hooks)
  exact ⟨t, path, fun i hi => segmentPath_length (hpath i hi),
    (dumpModule_loops hret).trans ht, hloop⟩

theorem room_of_returns (hdst : 0 ∉ dst) (hret : 0 ≤ sys.infoRet pid uid)
    (h : kpsp2shellDumpModule sys pid uid dst hooks = some t)
    (hi : sys.Dumps (sys.kinfo pid uid) i) :
    dst = [] ∨ pathRoom dst (sys.kinfo pid uid).moduleName ≤ 128 := by
  rw [dumpModule_loops hret] at h
  obtain ⟨paths, -, hpaths⟩ := run_opened h
  have hmem := List.mem_map_of_mem (f := fun i => segmentPath sys.strncpy dst
    (sys.kinfo pid uid).moduleName ((sys.kinfo pid uid).segments i).vaddr i) (mem_dumped.mpr hi)
  rw [← hpaths] at hmem
  obtain ⟨path, -, hpath⟩ := List.mem_map.mp hmem
  exact (segmentPath_isSome _ hdst (sys.kinfo pid uid).plain _ i).mp
    (Option.isSome_iff_exists.mpr ⟨path, hpath.symm⟩)

/-- Where every segment has been dumped, each one had room for its path, a file, and copies and
writes that did all of their work. -/
theorem complete_of_whole (hdst : 0 ∉ dst) (hret : 0 ≤ sys.infoRet pid uid)
    (h : kpsp2shellDumpModule sys pid uid dst hooks = some t)
    (hwhole : DumpedWhole sys memory dst (sys.kinfo pid uid) t)
    (hi : sys.Dumps (sys.kinfo pid uid) i) :
    pathRoom dst (sys.kinfo pid uid).moduleName ≤ 128 ∧ 0 < (sys.dump i).fd ∧
      (sys.dump i).Complete memory ((sys.kinfo pid uid).segments i).vaddr
        ((sys.kinfo pid uid).segments i).memsz := by
  have hroom : pathRoom dst (sys.kinfo pid uid).moduleName ≤ 128 := by
    obtain ⟨u, path, hlen, hu, hloop⟩ :=
      dumpModule_of_room hooks hdst hret fun _ => room_of_returns hdst hret h
    obtain rfl := Option.some.inj (h.symm.trans hu)
    obtain ⟨k, hk, -, hname, -⟩ := hloop.created_some (hwhole i hi)
    have hshort := hlen k hk
    rw [hname, dumpName, List.length_append, segmentText_length] at hshort
    rw [pathRoom]
    omega
  obtain ⟨u, hu, hloop⟩ := dumpModule_iterates hooks hdst hret fun _ _ => hroom
  obtain rfl := Option.some.inj (h.symm.trans hu)
  obtain ⟨k, -, hfd, hname, hcontent⟩ := hloop.created_some (hwhole i hi)
  obtain rfl := dumpName_injective _ _ hname
  exact ⟨hroom, hfd, (dump_content_iff ..).mp hcontent⟩

/-- The result is right exactly when the info call fails, or every segment's calls do all of their
work, or the last of the dumps cannot open its file: what goes wrong before it is forgotten. -/
theorem reports_dump_iff (sys : DumpSystem) (memory : BitVec 32 → Byte) (pid uid : Int)
    {dst : List Byte} (hooks : Hooks) (hdst : 0 ∉ dst) :
    ReportsDump sys memory pid uid dst hooks ↔ sys.infoRet pid uid < 0 ∨
      (∀ i, sys.Dumps (sys.kinfo pid uid) i →
        pathRoom dst (sys.kinfo pid uid).moduleName ≤ 128 ∧ 0 < (sys.dump i).fd ∧
          (sys.dump i).Complete memory ((sys.kinfo pid uid).segments i).vaddr
            ((sys.kinfo pid uid).segments i).memsz) ∨
      (dst = [] ∨ pathRoom dst (sys.kinfo pid uid).moduleName ≤ 128) ∧
        ∃ i, sys.Last (sys.kinfo pid uid) i ∧ (sys.dump i).fd < 0 := by
  rcases lt_or_ge (sys.infoRet pid uid) 0 with hneg | hret
  · refine iff_of_true ⟨_, dumpModule_refused hneg, fun h => absurd h hneg.not_ge,
      fun _ => ?_⟩ (Or.inl hneg)
    exact failed_of_neg hneg
  rw [or_iff_right hret.not_gt]
  constructor
  · rintro ⟨t, ht, hwhole, -⟩
    by_cases hfailed : ∃ i, sys.Last (sys.kinfo pid uid) i ∧ (sys.dump i).fd < 0
    · obtain ⟨i, hlast, hfd⟩ := hfailed
      exact Or.inr ⟨room_of_returns hdst hret ht hlast.1, i, hlast, hfd⟩
    · refine Or.inl fun i hi => complete_of_whole hdst hret ht (hwhole ?_) hi
      obtain ⟨j, hlast⟩ := exists_last hi
      obtain ⟨u, path, -, hu, hloop⟩ :=
        dumpModule_of_room hooks hdst hret fun _ => room_of_returns hdst hret ht
      obtain rfl := Option.some.inj (ht.symm.trans hu)
      rw [hloop.ret_last hlast]
      exact not_lt.mp fun hret => hfailed ⟨j, hlast, dumpRet_neg.mp hret⟩
  · rintro (hcomplete | ⟨hroom, i, hlast, hfd⟩)
    · obtain ⟨t, ht, hloop⟩ := dumpModule_iterates hooks hdst hret fun i hi => (hcomplete i hi).1
      have hwhole : DumpedWhole sys memory dst (sys.kinfo pid uid) t := by
        intro i hi
        obtain ⟨-, hfd, hcalls⟩ := hcomplete i hi
        rw [hloop.created_dumpName hi hfd, DumpSystem.content, (dump_content_iff ..).mpr hcalls]
      exact ⟨t, ht, fun _ => hwhole, fun h => absurd hwhole h⟩
    · obtain ⟨t, path, -, ht, hloop⟩ := dumpModule_of_room hooks hdst hret fun _ _ => hroom
      have hneg : t.ret < 0 := by
        rw [hloop.ret_last hlast]
        exact dumpRet_neg.mpr hfd
      exact ⟨t, ht, fun h => absurd h hneg.not_ge, fun _ => failed_of_neg hneg⟩

theorem reports_dump_zeros :
    ReportsDump (oneSegment (ascii "SceShell") plain_sceShell)
      (fun _ => 0) 65541 5 (ascii "ux0:data") startedHooks := by
  refine (reports_dump_iff _ _ 65541 5 startedHooks (by decide +kernel)).mpr (Or.inr (Or.inl ?_))
  refine fun i hi => ⟨by decide +kernel, (by decide : (0 : Int) < 66), ?_⟩
  obtain rfl : i = 0 := by
    revert hi
    revert i
    decide +kernel
  intro j hj
  obtain rfl : j = 0 := by
    have hone : j * chunkSize < 1 := hj
    rw [chunkSize] at hone
    omega
  exact ⟨by decide +kernel, by decide +kernel⟩

/-- A module of two segments: the file of the first cannot be opened. -/
def twoSegments : DumpSystem :=
  { oneSegment (ascii "SceShell") plain_sceShell with
    getModuleInfo := fun _ _ => (0, ⟨ascii "SceShell", plain_sceShell, fun i =>
      if i.val < 2 then ⟨24, 0x81000000, 1⟩ else ⟨0, 0, 0⟩⟩)
    dump := fun i =>
      ⟨if i.val = 0 then -2147418110 else 66, fun _ => Buffer.zero chunkSize, fun _ => chunkSize⟩ }

/-- The dump of the second segment hides that the first has failed. -/
theorem dump_failure_hidden :
    ¬ReportsDump twoSegments (fun _ => 0) 65541 5 (ascii "ux0:data") startedHooks := by
  rintro ⟨t, ht, hwhole, -⟩
  have hdst : 0 ∉ ascii "ux0:data" := by decide +kernel
  have hret : 0 ≤ twoSegments.infoRet 65541 5 := le_rfl
  have hlast : twoSegments.Last (twoSegments.kinfo 65541 5) 1 :=
    ⟨by decide +kernel, by decide +kernel⟩
  obtain ⟨u, path, -, hu, hloop⟩ :=
    dumpModule_of_room startedHooks hdst hret fun _ => room_of_returns hdst hret ht
  obtain rfl := Option.some.inj (ht.symm.trans hu)
  have hsecond : 0 ≤ t.ret := (hloop.ret_last hlast).symm ▸ le_rfl
  have hfd := (complete_of_whole (i := 0) hdst hret ht (hwhole hsecond) (by decide +kernel)).2.1
  exact absurd hfd (by decide)

end Psp2Shell.Kernel
