import Psp2Shell.CLib.Strings
import Psp2Shell.Cli.Model

/-! Lines of the client, `psp2shell_cli/source/main.c` and `utility.c`: what `process_line`
makes of a line that is typed, and of the one that `process_args` rebuilds from the
arguments of the program. -/

namespace Psp2Shell.Cli

open CLib Cmd

/-- `strsep(&rest, delim)`: the token, and what `rest` points to afterwards. -/
def strsep (rest delim : List Byte) : List Byte × Option (List Byte) :=
  (rest.takeWhile (· ∉ delim),
    match rest.dropWhile (· ∉ delim) with
    | [] => none
    | _ :: rest => some rest)

theorem strsep_token {w delim : List Byte} (hw : ∀ b ∈ w, b ∉ delim) :
    strsep w delim = (w, none) := by
  have hp : ∀ b ∈ w, (decide (b ∉ delim)) = true := fun b hb => decide_eq_true (hw b hb)
  rw [strsep, List.takeWhile_eq_self_iff.mpr hp, List.dropWhile_eq_nil_iff.mpr hp]

theorem strsep_append {w delim : List Byte} (hw : ∀ b ∈ w, b ∉ delim) {d : Byte} (hd : d ∈ delim)
    (rest : List Byte) : strsep (w ++ d :: rest) delim = (w, some rest) := by
  have hp : ∀ b ∈ w, (decide (b ∉ delim)) = true := fun b hb => decide_eq_true (hw b hb)
  rw [strsep, List.takeWhile_append_of_pos hp, List.dropWhile_append_of_pos hp]
  simp [hd]

theorem strsep_length {rest delim token rest' : List Byte}
    (h : strsep rest delim = (token, some rest')) : rest'.length < rest.length := by
  simp only [strsep, Prod.mk.injEq] at h
  have hle := List.length_dropWhile_le (fun b => decide (b ∉ delim)) rest
  split at h
  · simp at h
  · rename_i d tail hdrop
    simp only [Option.some.injEq] at h
    rw [hdrop, List.length_cons, h.2] at hle
    omega

/-- `strsplit`: the tokens, of which one can be empty. -/
def strsplit (str delim : List Byte) : List (List Byte) :=
  match _h : strsep str delim with
  | (token, none) => [token]
  | (token, some rest) => token :: strsplit rest delim
termination_by str.length
decreasing_by exact strsep_length _h

/-- What becomes of a line. -/
inductive Processed
  /-- There is no line, and the client exits. -/
  | exited
  | nothing
  /-- `Command not found`. -/
  | notFound
  /-- `c->func((int) num_tokens, tokens)`. -/
  | called (c : Command) (tokens : List (List Byte))
deriving DecidableEq

/-- `process_line`. -/
def processLine : Option (List Byte) → Processed
  | none => .exited
  | some line =>
    if line.length > 0 then
      match strsplit line (ascii " ") with
      | [] => .nothing
      | token :: tokens =>
        match cmdFind token with
        | none => .notFound
        | some c => .called c (token :: tokens)
    else .nothing

def lineSize : Nat := 1024

/-- The loop of `process_args`. -/
def rebuild (line : Buffer lineSize) : List (List Byte) → Option (Buffer lineSize)
  | [] => some line
  | arg :: argv => (line.strcat (format (ascii "%s ") [.str arg])).bind fun line =>
    rebuild line argv

/-- `process_args` on the arguments from the third on; `none` when they run over the line. -/
def processArgs (argv : List (List Byte)) : Option Processed :=
  (rebuild (Buffer.zero lineSize) argv).bind fun line => line.str.map fun s => processLine (some s)

/-- The words as they are typed at the prompt, with single spaces between them. -/
def typed (words : List (List Byte)) : List Byte := (ascii " ").intercalate words

/-- A word of a line: not empty, and without spaces. -/
structure Word (w : List Byte) : Prop where
  nonempty : w ≠ []
  string : 0 ∉ w
  spaceless : ∀ b ∈ w, b ∉ ascii " "

/-- The words with a space behind each one and a NUL fit in the line of `process_args`. -/
def FitsLine (words : List (List Byte)) : Prop :=
  (words.map fun w => w.length + 1).sum < lineSize

instance (words : List (List Byte)) : Decidable (FitsLine words) :=
  inferInstanceAs (Decidable (_ < _))

/-! ### Splitting -/

theorem strsplit_token {w delim : List Byte} (hw : ∀ b ∈ w, b ∉ delim) :
    strsplit w delim = [w] := by
  unfold strsplit
  split
  · rename_i token heq
    rw [strsep_token hw] at heq
    cases heq
    rfl
  · rename_i token rest heq
    rw [strsep_token hw] at heq
    cases heq

theorem strsplit_append {w delim : List Byte} (hw : ∀ b ∈ w, b ∉ delim) {d : Byte} (hd : d ∈ delim)
    (rest : List Byte) : strsplit (w ++ d :: rest) delim = w :: strsplit rest delim := by
  conv_lhs => unfold strsplit
  split
  · rename_i token heq
    rw [strsep_append hw hd] at heq
    cases heq
  · rename_i token rest' heq
    rw [strsep_append hw hd] at heq
    cases heq
    rfl

theorem strsplit_length_le (s delim : List Byte) : (strsplit s delim).length ≤ s.length + 1 := by
  fun_induction strsplit s delim with
  | case1 s token h => simp
  | case2 s token rest h ih =>
    have hlt := strsep_length h
    rw [List.length_cons]
    omega

/-- The spaces of a typed line are between its words, and cut it into these. -/
theorem strsplit_typed {words : List (List Byte)} (hne : words ≠ []) (hw : ∀ w ∈ words, Word w) :
    strsplit (typed words) (ascii " ") = words := by
  induction words with
  | nil => exact absurd rfl hne
  | cons w words ih =>
    have hword := (hw w List.mem_cons_self).spaceless
    cases words with
    | nil => simpa [typed] using strsplit_token hword
    | cons v words =>
      have hrest := ih (by simp) fun u hu => hw u (List.mem_cons_of_mem _ hu)
      have htyped : typed (w :: v :: words) = w ++ 32 :: typed (v :: words) := by
        simp [typed, List.intercalate, ascii]
      rw [htyped, strsplit_append hword (by decide), hrest]

/-- A rebuilt line ends with a space, behind which there is one more token, which is empty. -/
theorem strsplit_rebuilt {words : List (List Byte)} (hw : ∀ w ∈ words, Word w) :
    strsplit (words.flatMap (· ++ [32])) (ascii " ") = words ++ [[]] := by
  induction words with
  | nil => exact strsplit_token (by simp)
  | cons w words ih =>
    have hrest := ih fun u hu => hw u (List.mem_cons_of_mem _ hu)
    rw [List.flatMap_cons, List.append_assoc, List.singleton_append,
      strsplit_append (hw w List.mem_cons_self).spaceless (by decide), hrest, List.cons_append]

/-! ### The two lines -/

theorem rebuild_spec {line : Buffer lineSize} {s : List Byte} (hs : line.str = some s)
    {words : List (List Byte)} (hw : ∀ w ∈ words, Word w) :
    (rebuild line words).bind Buffer.str =
      if s.length + (words.map fun w => w.length + 1).sum < lineSize then
        some (s ++ words.flatMap (· ++ [32])) else none := by
  induction words generalizing line s with
  | nil => simp [rebuild, hs, (Buffer.str_eq_some hs).2.1]
  | cons w words ih =>
    have hword := hw w List.mem_cons_self
    have htext : format (ascii "%s ") [.str w] = w ++ [32] := by simp [format, ascii]
    rw [rebuild, htext, List.map_cons, List.sum_cons]
    by_cases hfit : s.length + (w ++ [32]).length < lineSize
    · obtain ⟨line', hline⟩ := Option.isSome_iff_exists.mp ((Buffer.strcat_isSome hs _).mpr hfit)
      have hs' := Buffer.str_strcat hs (by simp [hword.string]) hline
      rw [hline, Option.bind_some, ih hs' fun u hu => hw u (List.mem_cons_of_mem _ hu)]
      simp [add_assoc]
    · have hnone : line.strcat (w ++ [32]) = none := by
        rw [← Option.not_isSome_iff_eq_none, Buffer.strcat_isSome hs _]
        exact hfit
      rw [hnone, if_neg (by simp at hfit; omega)]
      rfl

/-- `process_args` processes the words with one empty token more. -/
theorem processArgs_eq {words : List (List Byte)} (hne : words ≠ []) (hw : ∀ w ∈ words, Word w) :
    processArgs words =
      if FitsLine words then
        some (match cmdFind (words.head hne) with
          | none => Processed.notFound
          | some c => Processed.called c (words ++ [[]]))
      else none := by
  have hzero : (Buffer.zero lineSize).str = some [] :=
    Buffer.str_of_bytes (List.replicate 1023 0) (by simp) rfl
  have hspec := rebuild_spec hzero hw
  have hbind : processArgs words =
      ((rebuild (Buffer.zero lineSize) words).bind Buffer.str).map (processLine ∘ some) := by
    unfold processArgs
    cases rebuild (Buffer.zero lineSize) words <;> rfl
  rw [hbind, hspec]
  by_cases hfit : FitsLine words
  · rw [if_pos hfit, if_pos (by simpa [FitsLine] using hfit), List.nil_append]
    obtain ⟨w, words, rfl⟩ := List.exists_cons_of_ne_nil hne
    have hpos : ((w :: words).flatMap (· ++ [32])).length > 0 := by simp
    simp only [Option.map_some, Function.comp_apply, processLine, if_pos hpos, strsplit_rebuilt hw]
    rfl
  · rw [if_neg hfit, if_neg (by simpa [FitsLine] using hfit)]
    rfl

theorem processLine_typed {words : List (List Byte)} (hne : words ≠ [])
    (hw : ∀ w ∈ words, Word w) :
    processLine (some (typed words)) =
      match cmdFind (words.head hne) with
      | none => .notFound
      | some c => .called c words := by
  have hsplit := strsplit_typed hne hw
  obtain ⟨w, words, rfl⟩ := List.exists_cons_of_ne_nil hne
  have hpos : (typed (w :: words)).length > 0 := by
    obtain ⟨b, w, rfl⟩ := List.exists_cons_of_ne_nil (hw w List.mem_cons_self).nonempty
    cases words <;> simp [typed, List.intercalate]
  simp only [processLine, if_pos hpos, hsplit]
  rfl

/-- The program started with words calls the same command function with the same `argc` and
`argv` as the prompt does for them exactly when they fit in the line and the first is not
the name of a command. -/
theorem single_shot_iff {words : List (List Byte)} (hne : words ≠ []) (hw : ∀ w ∈ words, Word w) :
    processArgs words = some (processLine (some (typed words))) ↔
      FitsLine words ∧ cmdFind (words.head hne) = none := by
  rw [processArgs_eq hne hw, processLine_typed hne hw]
  by_cases hfit : FitsLine words
  · rw [if_pos hfit]
    cases hfind : cmdFind (words.head hne) with
    | none => simp [hfit]
    | some c => simp
  · simp [hfit]

theorem word_of_decide {w : List Byte} (h : w ≠ [] ∧ 0 ∉ w ∧ 32 ∉ w) : Word w :=
  ⟨h.1, h.2.1, fun b hb hspace => h.2.2 (by rwa [show b = 32 by simpa [ascii] using hspace] at hb)⟩

/-- Words whose first is not the name of a command. -/
theorem single_shot_unknown :
    processArgs [ascii "dir", ascii "ux0:"] =
      some (processLine (some (typed [ascii "dir", ascii "ux0:"]))) :=
  (single_shot_iff (by simp) (fun w hw => word_of_decide (by
    rcases List.mem_pair.mp hw with rfl | rfl <;> decide +kernel))).mpr (by decide +kernel)

/-- `ls` alone lists the current directory at the prompt, and the directory with the empty name when
it is an argument of the program. -/
theorem single_shot_ls :
    processLine (some (typed [ascii "ls"])) = .called .ls [ascii "ls"] ∧
    processArgs [ascii "ls"] = some (.called .ls [ascii "ls", []]) ∧
    ∀ host, (Command.ls.func host [ascii "ls"]).sent =
        some (.string CmdType.ls.code (ascii "root")) ∧
      (Command.ls.func host [ascii "ls", []]).sent = some (.string CmdType.ls.code []) := by
  have hw : ∀ w ∈ [ascii "ls"], Word w := by
    intro w hw
    rw [List.mem_singleton.mp hw]
    exact word_of_decide (by decide +kernel)
  have hfind : cmdFind (ascii "ls") = some .ls := by decide +kernel
  refine ⟨?_, ?_, fun host => ⟨rfl, rfl⟩⟩
  · rw [processLine_typed (by simp) hw]
    simp [hfind]
  · rw [processArgs_eq (by simp) hw, if_pos (by decide +kernel)]
    simp [hfind]

end Psp2Shell.Cli
