import Psp2Shell.Client.Spec
import Psp2Shell.Server.Model

/-! The commands that remove and move: which of their arguments reach the file system as a path
that the user has named. -/

namespace Psp2Shell.Client

open CLib Cmd File Psp2Shell.Server

/-- What `p2s_cmd_parse` does for `CMD_RM`, `CMD_RMDIR` and `CMD_MV`. -/
def destroy (env : Environment) (fileList : SFileList) (cmd : P2sCmd) : Option Done :=
  match p2sCmdParse cmd with
  | some [.cmdRm file] => cmdRm env fileList file
  | some [.cmdRmdir path] => cmdRmdir env fileList path
  | some [.cmdMv src dst] => cmdMv env fileList src dst
  | _ => none

/-- The arguments of a command that removes or moves. -/
def arguments (cmd : P2sCmd) : List (List Byte) :=
  match p2sCmdParse cmd with
  | some [.cmdRm a] | some [.cmdRmdir a] => [a]
  | some [.cmdMv a b] => [a, b]
  | _ => []

/-- An argument without its end slash is the argument as far as a path goes. -/
def Spelled (a x : List Byte) : Prop := x = a ∨ x = File.p2sRemoveEndSlash a

/-- The path is the argument, when this has a colon, or the client's directory with a slash and the
argument, which is not empty. -/
def Named (d a path : List Byte) : Prop :=
  colon ∈ a ∧ Spelled a path ∨
    colon ∉ a ∧ ∃ x, x ≠ [] ∧ Spelled a x ∧ path = d ++ slash :: x

/-- A removal or a move of named paths. -/
def Act.Names (d : List Byte) (args : List (List Byte)) : Act → Prop
  | .remove path => ∃ a ∈ args, Named d a path
  | .move src dst => ∃ a b, args = [a, b] ∧ Named d a src ∧ Named d b dst
  | _ => False

/-- A command removes and moves named paths only, and none when an argument is empty, without a read
before a path buffer. -/
structure OnlyNamed (d : List Byte) (cmd : P2sCmd) (done : Done) : Prop where
  named : ∀ act ∈ done.acts, act.Names d (arguments cmd)
  empty : [] ∈ arguments cmd → done.acts = []
  inside : ∀ i ∈ done.reads, 0 ≤ i

/-- An argument that is a path of its own, or one that is not empty but for an end slash and fits
with the client's directory in a path buffer. -/
def Resolves (d a : List Byte) : Prop :=
  colon ∈ a ∨ File.p2sRemoveEndSlash a ≠ [] ∧
    d.length + 1 + (File.p2sRemoveEndSlash a).length < maxPathLength

/-- An argument that is not empty and fits in a path buffer. -/
def Given (a : List Byte) : Prop := a ≠ [] ∧ a.length < maxPathLength

/-- The arguments of the command name paths; `rm` also refuses one that names a directory. -/
def NamesPaths (env : Environment) (d : List Byte) (cmd : P2sCmd) : Prop :=
  match p2sCmdParse cmd with
  | some [.cmdRm a] =>
    Given a ∧ (Resolves d a ∨ env.isDir (File.toAbsolutePath d a) = true)
  | some [.cmdRmdir a] => Given a ∧ Resolves d a
  | some [.cmdMv a b] => (Given a ∧ Resolves d a) ∧ Given b ∧ Resolves d b
  | _ => False

/-! ### Arguments -/

theorem nul_not_mem_cstring {mem s : List Byte} (h : cstring mem = some s) : 0 ∉ s := by
  unfold cstring at h
  split at h
  · rw [← Option.some.inj h]
    intro h0
    simpa using List.mem_takeWhile_imp h0
  · cases h

theorem parse_rm {cmd : P2sCmd} (h : cmd.type = CmdType.rm.code) :
    p2sCmdParse cmd = (cmd.arg 0).map fun a => [.cmdRm a] := by
  rw [p2sCmdParse, h, ofCode_code]
  rfl

theorem parse_rmdir {cmd : P2sCmd} (h : cmd.type = CmdType.rmdir.code) :
    p2sCmdParse cmd = (cmd.arg 0).map fun a => [.cmdRmdir a] := by
  rw [p2sCmdParse, h, ofCode_code]
  rfl

theorem parse_mv {cmd : P2sCmd} (h : cmd.type = CmdType.mv.code) :
    p2sCmdParse cmd = (cmd.arg 0).bind fun a => (cmd.arg 1).map fun b => [.cmdMv a b] := by
  rw [p2sCmdParse, h, ofCode_code]
  rfl

theorem removeEndSlash_cases (a : List Byte) : File.p2sRemoveEndSlash a = a ∨
    ∃ x, a = x ++ [slash] ∧ File.p2sRemoveEndSlash a = x := by
  unfold File.p2sRemoveEndSlash
  split
  · rename_i hend
    obtain ⟨x, rfl⟩ : ∃ x, a = x ++ [slash] :=
      List.getLast?_eq_some_iff.mp (by simpa [p2sHasEndSlash] using hend)
    exact Or.inr ⟨x, rfl, by simp⟩
  · exact Or.inl rfl

theorem colon_mem_removeEndSlash {a : List Byte} :
    colon ∈ File.p2sRemoveEndSlash a ↔ colon ∈ a := by
  rcases removeEndSlash_cases a with h | ⟨x, rfl, h⟩
  · rw [h]
  · rw [h]
    simp [colon, slash]

theorem named_iff {d a : List Byte} :
    Named d a (File.toAbsolutePath d a) ↔ Resolves d a := by
  by_cases hcolon : colon ∈ a
  · have habs : File.toAbsolutePath d a = File.p2sRemoveEndSlash a :=
      if_pos (colon_mem_removeEndSlash.mpr hcolon)
    exact iff_of_true (Or.inl ⟨hcolon, Or.inr habs⟩) (Or.inl hcolon)
  · have habs : File.toAbsolutePath d a =
        snprintf maxPathLength (d ++ slash :: File.p2sRemoveEndSlash a) := by
      rw [← format_path]
      exact if_neg (colon_mem_removeEndSlash.not.mpr hcolon)
    have hle : (File.p2sRemoveEndSlash a).length ≤ a.length := by
      rcases removeEndSlash_cases a with h | ⟨x, rfl, h⟩ <;> simp [h]
    rw [habs]
    constructor
    · rintro (⟨h, -⟩ | ⟨-, x, hx, hspelled, hpath⟩)
      · exact absurd h hcolon
      · right
        have hlen := congrArg List.length hpath
        simp only [snprintf, List.length_take, List.length_append, List.length_cons,
          maxPathLength] at hlen ⊢
        have hxpos := List.length_pos_iff.mpr hx
        rcases hspelled with rfl | rfl
        · rcases removeEndSlash_cases x with h | ⟨y, rfl, h⟩
          · rw [h] at hlen ⊢
            exact ⟨hx, by omega⟩
          · rw [h] at hlen
            simp at hlen
            omega
        · exact ⟨hx, by omega⟩
    · rintro (h | ⟨hne, hfits⟩)
      · exact absurd h hcolon
      · refine Or.inr ⟨hcolon, _, hne, Or.inr rfl, snprintf_of_lt ?_⟩
        simp only [List.length_append, List.length_cons]
        omega

theorem index_nonneg {a : List Byte} : 0 ≤ (a.length : Int) - 1 ↔ a ≠ [] := by
  rw [← List.length_pos_iff]
  omega

/-! ### Commands -/

/-- A handler of one argument that removes the path made of it, or refuses to. -/
theorem onlyNamed_remove {d a : List Byte} {cmd : P2sCmd} {acts : List Act}
    (fileList : SFileList) (hargs : arguments cmd = [a])
    (hacts : acts = [] ∨ acts = [.remove (File.toAbsolutePath d a)]) :
    OnlyNamed d cmd ⟨acts, [(a.length : Int) - 1], fileList⟩ ↔
      a ≠ [] ∧ (Resolves d a ∨ acts = []) := by
  constructor
  · rintro ⟨hnamed, -, hinside⟩
    refine ⟨index_nonneg.mp (hinside _ (by simp)), ?_⟩
    rcases hacts with hacts | hacts
    · exact Or.inr hacts
    · obtain ⟨b, hb, hpath⟩ := hnamed (.remove (File.toAbsolutePath d a)) (by simp [hacts])
      rw [hargs, List.mem_singleton] at hb
      subst hb
      exact Or.inl (named_iff.mp hpath)
  · rintro ⟨hne, hresolves⟩
    refine ⟨?_, ?_, ?_⟩
    · intro act hact
      change act ∈ acts at hact
      rcases hacts with rfl | rfl
      · simp at hact
      · rw [List.mem_singleton.mp hact]
        exact ⟨a, by simp [hargs], named_iff.mpr (hresolves.resolve_right (by simp))⟩
    · intro hempty
      rw [hargs, List.mem_singleton] at hempty
      exact absurd hempty.symm hne
    · intro i hi
      rw [List.mem_singleton.mp hi]
      exact index_nonneg.mpr hne

section

variable {env : Environment} {fileList : SFileList} {d : List Byte} {cmd : P2sCmd}
  (hd : fileList.path.str = some d)
include hd

theorem only_named_rm (h : cmd.type = CmdType.rm.code) :
    (∃ done, destroy env fileList cmd = some done ∧ OnlyNamed d cmd done) ↔
      NamesPaths env d cmd := by
  cases harg : cmd.arg 0 with
  | none =>
    have hparse : p2sCmdParse cmd = none := by rw [parse_rm h, harg]; rfl
    simp [destroy, NamesPaths, hparse]
  | some a =>
    have hparse : p2sCmdParse cmd = some [.cmdRm a] := by rw [parse_rm h, harg]; rfl
    have hargs : arguments cmd = [a] := by rw [arguments, hparse]
    have hrun : destroy env fileList cmd = cmdRm env fileList a := by rw [destroy, hparse]
    rw [hrun, cmdRm_eq env hd (nul_not_mem_cstring harg), NamesPaths, hparse]
    cases hdir : env.isDir (File.toAbsolutePath d a) with
    | true =>
      have hiff := onlyNamed_remove (d := d) fileList hargs (Or.inl rfl)
      by_cases hlen : a.length < maxPathLength <;> simp [hlen, Given, hiff, hdir]
    | false =>
      have hiff := onlyNamed_remove (d := d) fileList hargs (Or.inr rfl)
      by_cases hlen : a.length < maxPathLength <;> simp [hlen, Given, hiff, hdir]

theorem only_named_rmdir (h : cmd.type = CmdType.rmdir.code) :
    (∃ done, destroy env fileList cmd = some done ∧ OnlyNamed d cmd done) ↔
      NamesPaths env d cmd := by
  cases harg : cmd.arg 0 with
  | none =>
    have hparse : p2sCmdParse cmd = none := by rw [parse_rmdir h, harg]; rfl
    simp [destroy, NamesPaths, hparse]
  | some a =>
    have hparse : p2sCmdParse cmd = some [.cmdRmdir a] := by rw [parse_rmdir h, harg]; rfl
    have hargs : arguments cmd = [a] := by rw [arguments, hparse]
    have hrun : destroy env fileList cmd = cmdRmdir env fileList a := by rw [destroy, hparse]
    have hiff := onlyNamed_remove (d := d) fileList hargs (Or.inr rfl)
    rw [hrun, cmdRmdir_eq env hd (nul_not_mem_cstring harg), NamesPaths, hparse]
    by_cases hlen : a.length < maxPathLength <;> simp [hlen, Given, hiff]

theorem only_named_mv (h : cmd.type = CmdType.mv.code) :
    (∃ done, destroy env fileList cmd = some done ∧ OnlyNamed d cmd done) ↔
      NamesPaths env d cmd := by
  cases harg : cmd.arg 0 with
  | none =>
    have hparse : p2sCmdParse cmd = none := by rw [parse_mv h, harg]; rfl
    simp [destroy, NamesPaths, hparse]
  | some a =>
    cases harg' : cmd.arg 1 with
    | none =>
      have hparse : p2sCmdParse cmd = none := by rw [parse_mv h, harg, harg']; rfl
      simp [destroy, NamesPaths, hparse]
    | some b =>
      have hparse : p2sCmdParse cmd = some [.cmdMv a b] := by rw [parse_mv h, harg, harg']; rfl
      have hargs : arguments cmd = [a, b] := by rw [arguments, hparse]
      have hrun : destroy env fileList cmd = cmdMv env fileList a b := by rw [destroy, hparse]
      rw [hrun, cmdMv_eq env hd (nul_not_mem_cstring harg) (nul_not_mem_cstring harg'),
        NamesPaths, hparse]
      constructor
      · rintro ⟨done, hdone, hnamed, -, hinside⟩
        split at hdone
        · rename_i hlen
          cases hdone
          obtain ⟨x, y, hxy, hsrc, hdst⟩ := hnamed _ (List.mem_singleton_self _)
          rw [hargs] at hxy
          cases hxy
          exact ⟨⟨⟨index_nonneg.mp (hinside _ (by simp)), hlen.1⟩, named_iff.mp hsrc⟩,
            ⟨index_nonneg.mp (hinside _ (by simp)), hlen.2⟩, named_iff.mp hdst⟩
        · cases hdone
      · rintro ⟨⟨⟨hne, hlen⟩, hresolves⟩, ⟨hne', hlen'⟩, hresolves'⟩
        refine ⟨_, if_pos ⟨hlen, hlen'⟩, ?_, ?_, ?_⟩
        · intro act hact
          rw [List.mem_singleton.mp hact]
          exact ⟨a, b, hargs, named_iff.mpr hresolves, named_iff.mpr hresolves'⟩
        · intro hempty
          rw [hargs] at hempty
          simp [hne.symm, hne'.symm] at hempty
        · intro i hi
          rcases List.mem_cons.mp hi with rfl | hi
          · exact index_nonneg.mpr hne
          · rw [List.mem_singleton.mp hi]
            exact index_nonneg.mpr hne'

/-- A command that removes or moves acts on named paths only, and reads within its buffers, exactly
when its arguments name paths. -/
theorem only_named_iff (htype : cmd.type = CmdType.rm.code ∨ cmd.type = CmdType.rmdir.code ∨
      cmd.type = CmdType.mv.code) :
    (∃ done, destroy env fileList cmd = some done ∧ OnlyNamed d cmd done) ↔
      NamesPaths env d cmd := by
  rcases htype with h | h | h
  · exact only_named_rm hd h
  · exact only_named_rmdir hd h
  · exact only_named_mv hd h

end

def rmdirCmd (path : List Byte) : P2sCmd :=
  ⟨CmdType.rmdir.code, (Buffer.zero _).blit 0 path⟩

/-- `rmdir a` in `ux0:/data`. -/
theorem only_named_rmdir_a :
    ∃ done, destroy bareEnvironment (fileListAt (ascii "ux0:/data"))
      (rmdirCmd (ascii "a")) = some done ∧ OnlyNamed (ascii "ux0:/data")
      (rmdirCmd (ascii "a")) done :=
  (only_named_iff (by decide +kernel) (Or.inr (Or.inl rfl))).mpr (by
    have hparse : p2sCmdParse (rmdirCmd (ascii "a")) = some [.cmdRmdir (ascii "a")] := by
      decide +kernel
    rw [NamesPaths, hparse]
    exact ⟨⟨by decide +kernel, by decide +kernel⟩, Or.inr ⟨by decide +kernel, by decide +kernel⟩⟩)

/-- The text `14` is a command whose argument is empty, and removes the client's directory. -/
theorem bare_rmdir_removes :
    p2sCmdToCmd P2sCmd.cleared (ascii "14" ++ [0]) = some ⟨0, rmdirCmd [], []⟩ ∧
    (fileListAt (ascii "ux0:/data")).path.str = some (ascii "ux0:/data") ∧
    arguments (rmdirCmd []) = [[]] ∧
    ∃ done, destroy bareEnvironment (fileListAt (ascii "ux0:/data")) (rmdirCmd []) = some done ∧
      done.acts = [.remove (ascii "ux0:/data/")] ∧ done.reads = [-1] ∧
      ¬OnlyNamed (ascii "ux0:/data") (rmdirCmd []) done := by
  have hargs : arguments (rmdirCmd []) = [[]] := by decide +kernel
  have hrun : destroy bareEnvironment (fileListAt (ascii "ux0:/data")) (rmdirCmd []) =
      some ⟨[.remove (ascii "ux0:/data/")], [-1], fileListAt (ascii "ux0:/data")⟩ := by
    have hparse : p2sCmdParse (rmdirCmd []) = some [.cmdRmdir []] := by decide +kernel
    rw [destroy, hparse]
    exact (cmdRmdir_eq bareEnvironment (d := ascii "ux0:/data") (by decide +kernel)
      (by simp)).trans rfl
  refine ⟨by decide +kernel, by decide +kernel, hargs, _, hrun, rfl, rfl, fun h => ?_⟩
  have hnone := h.empty (by rw [hargs]; simp)
  cases hnone

end Psp2Shell.Client
