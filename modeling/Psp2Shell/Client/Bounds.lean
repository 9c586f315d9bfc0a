import Psp2Shell.Client.Spec

/-! The path buffers of the handlers: no store past their end and no read without a NUL, in exactly
the calls whose arguments fit. -/

namespace Psp2Shell.Client

open CLib File

/-- A call of a handler with the arguments of a decoded command, or of
`toAbsolutePath` with a buffer. -/
inductive Call
  | toAbsolutePath (path : PathBuffer)
  | put (name dst : List Byte)
  | load (tid : List Byte)
  | cd (path : List Byte)
  | ls (path : List Byte)
  | mv (src dst : List Byte)
  | rm (file : List Byte)
  | rmdir (path : List Byte)

namespace Call

/-- The arguments that come from a decoded command. -/
def args : Call → List (List Byte)
  | toAbsolutePath _ => []
  | put name dst => [name, dst]
  | load a | cd a | ls a | rm a | rmdir a => [a]
  | mv src dst => [src, dst]

def run (env : Environment) (fileList : SFileList) : Call → Option Done
  | toAbsolutePath path => do
    let (path, read) ← Client.toAbsolutePath env fileList.path path
    let _ ← path.str
    return ⟨[], [read], fileList⟩
  | put name dst => cmdPut env fileList name dst
  | load tid => cmdLoad env fileList tid
  | cd path => cmdCd env fileList path
  | ls path => cmdLs env fileList path
  | mv src dst => cmdMv env fileList src dst
  | rm file => cmdRm env fileList file
  | rmdir path => cmdRmdir env fileList path

end Call

/-- An argument of a decoded command. -/
structure Argument (a : List Byte) : Prop where
  string : 0 ∉ a
  slot : a.length ≤ 511

/-- A call stores within the buffers and reads strings, and leaves a string in
`client->fileList.path`. -/
def InBounds (env : Environment) (fileList : SFileList) (call : Call) : Prop :=
  ∃ done s, call.run env fileList = some done ∧ done.fileList.path.str = some s

/-- The arguments fit the buffers that they go through, when the client's directory is `d`. -/
def Fits (env : Environment) (d : List Byte) : Call → Prop
  | .toAbsolutePath path => path.str ≠ none
  | .put name dst =>
    (putSource d dst).length < maxPathLength ∧
      (env.isDir (File.toAbsolutePath d (putSource d dst)) = true →
        (File.toAbsolutePath d (putSource d dst)).length + 1 + name.length < maxPathLength)
  | .load tid => tid.length < 237
  | .cd path => ¬TooLong env (File.p2sRemoveEndSlash path) ∧
      (Listable env (target env d path) ∨ path.length < maxPathLength)
  | .ls path => path = homePath ∨ path.length < maxPathLength
  | .mv src dst => src.length < maxPathLength ∧ dst.length < maxPathLength
  | .rm a | .rmdir a => a.length < maxPathLength

section

variable {env : Environment} {fileList : SFileList} {d : List Byte}
  (hd : fileList.path.str = some d)
include hd

omit hd in
theorem not_inBounds {call : Call} (h : call.run env fileList = none) :
    ¬InBounds env fileList call := by
  rintro ⟨done, s, hrun, -⟩
  rw [h] at hrun
  cases hrun

theorem inBounds_of_eq {call : Call} {acts : List Act} {reads : List Int}
    (h : call.run env fileList = some ⟨acts, reads, fileList⟩) : InBounds env fileList call :=
  ⟨_, d, h, hd⟩

/-- A handler that returns exactly when its arguments fit. -/
theorem inBounds_ite {call : Call} {fits : Prop} [Decidable fits] {acts : List Act}
    {reads : List Int} (h : call.run env fileList =
      if fits then some ⟨acts, reads, fileList⟩ else none) :
    InBounds env fileList call ↔ fits := by
  by_cases hfits : fits
  · exact iff_of_true (inBounds_of_eq hd (h.trans (if_pos hfits))) hfits
  · exact iff_of_false (not_inBounds (h.trans (if_neg hfits))) hfits

theorem inBounds_toAbsolutePath (path : PathBuffer) :
    InBounds env fileList (.toAbsolutePath path) ↔ path.str ≠ none := by
  cases hs : path.str with
  | none =>
    refine iff_of_false (not_inBounds ?_) (by simp)
    simp [Call.run, toAbsolutePath, p2sRemoveEndSlash, hs]
  | some s =>
    obtain ⟨c, hc, hstr⟩ := toAbsolutePath_spec env hd hs
    have heq : Call.run env fileList (.toAbsolutePath path) =
        some ⟨[], [(s.length : Int) - 1], fileList⟩ := by
      simp [Call.run, hc, hstr]
    exact iff_of_true (inBounds_of_eq hd heq) (by simp)

theorem inBounds_cd {path : List Byte} (hpath : Argument path) :
    InBounds env fileList (.cd path) ↔ Fits env d (.cd path) := by
  by_cases hlong : TooLong env (File.p2sRemoveEndSlash path)
  · exact iff_of_false (not_inBounds (cmdCd_too_long hd hlong)) fun h => h.1 hlong
  · have hslot := hpath.slot
    obtain ⟨done, hdone, hcd⟩ := cmdCd_spec hd hpath.string hlong (Or.inr (by omega))
    have hrun : Call.run env fileList (.cd path) = some done := hdone
    have hiff : InBounds env fileList (.cd path) ↔ ∃ s, done.fileList.path.str = some s := by
      constructor
      · rintro ⟨done', s, hrun', hs⟩
        cases hrun.symm.trans hrun'
        exact ⟨s, hs⟩
      · exact fun ⟨s, hs⟩ => ⟨done, s, hrun, hs⟩
    rw [hiff]
    by_cases hlist : Listable env (target env d path)
    · exact iff_of_true ⟨_, hcd.listed hlist⟩ ⟨hlong, Or.inl hlist⟩
    · obtain ⟨hstr, -⟩ := hcd.failed hlist
      rw [hstr]
      by_cases hlen : path.length < maxPathLength
      · exact iff_of_true ⟨path, if_pos hlen⟩ ⟨hlong, Or.inr hlen⟩
      · refine iff_of_false ?_ fun h => ?_
        · simp [hlen]
        · rcases h.2 with h | h
          · exact hlist h
          · exact hlen h

/-- The calls whose arguments fit are those that stay within the path buffers
and read strings only. -/
theorem in_bounds_iff (call : Call) (hargs : ∀ a ∈ call.args, Argument a) :
    InBounds env fileList call ↔ Fits env d call := by
  have hstring : ∀ a ∈ call.args, 0 ∉ a := fun a ha => (hargs a ha).string
  cases call with
  | toAbsolutePath path => exact inBounds_toAbsolutePath hd path
  | put name dst =>
    have hname := hstring name (by simp [Call.args])
    have hdst := hstring dst (by simp [Call.args])
    show InBounds env fileList (.put name dst) ↔ PutFits env d name (putSource d dst)
    exact inBounds_ite hd (cmdPut_eq env hd hname hdst)
  | load tid =>
    show InBounds env fileList (.load tid) ↔ tid.length < 237
    exact inBounds_ite hd (cmdLoad_eq env fileList (hstring tid (by simp [Call.args])))
  | cd path => exact inBounds_cd hd (hargs path (by simp [Call.args]))
  | ls path =>
    show InBounds env fileList (.ls path) ↔ path = homePath ∨ path.length < maxPathLength
    exact inBounds_ite hd (cmdLs_eq env hd (hstring path (by simp [Call.args])))
  | mv src dst =>
    have hsrc := hstring src (by simp [Call.args])
    have hdst := hstring dst (by simp [Call.args])
    show InBounds env fileList (.mv src dst) ↔ src.length < maxPathLength ∧
      dst.length < maxPathLength
    exact inBounds_ite hd (cmdMv_eq env hd hsrc hdst)
  | rm file =>
    show InBounds env fileList (.rm file) ↔ file.length < maxPathLength
    exact inBounds_ite hd (cmdRm_eq env hd (hstring file (by simp [Call.args])))
  | rmdir path =>
    show InBounds env fileList (.rmdir path) ↔ path.length < maxPathLength
    exact inBounds_ite hd (cmdRmdir_eq env hd (hstring path (by simp [Call.args])))

end

/-- `rm a` in `ux0:/data`. -/
theorem in_bounds_rm :
    InBounds bareEnvironment (fileListAt (ascii "ux0:/data")) (.rm (ascii "a")) :=
  (in_bounds_iff (d := ascii "ux0:/data") (by decide +kernel) (.rm (ascii "a")) (fun a ha => by
    rw [List.mem_singleton.mp ha]
    exact ⟨by decide, by decide⟩)).mpr (show (ascii "a").length < maxPathLength by decide)

/-- A title of 300 bytes runs over the path of `cmd_load`; a file name of 256 bytes leaves the path
of `cmd_rm` without a NUL. -/
theorem load_overruns :
    Argument (List.replicate 300 97) ∧ Argument (List.replicate 256 97) ∧
    (fileListAt (ascii "ux0:/data")).path.str = some (ascii "ux0:/data") ∧
    ¬InBounds bareEnvironment (fileListAt (ascii "ux0:/data")) (.load (List.replicate 300 97)) ∧
    ¬InBounds bareEnvironment (fileListAt (ascii "ux0:/data")) (.rm (List.replicate 256 97)) := by
  refine ⟨⟨by decide +kernel, by decide +kernel⟩, ⟨by decide +kernel, by decide +kernel⟩,
    by decide +kernel, ?_, ?_⟩
  · apply not_inBounds
    rw [← Option.not_isSome_iff_eq_none]
    decide +kernel
  · apply not_inBounds
    rw [← Option.not_isSome_iff_eq_none]
    decide +kernel

end Psp2Shell.Client
