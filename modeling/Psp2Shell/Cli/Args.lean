import Psp2Shell.Cli.Split

/-! The handlers on the array of tokens of a typed line, which ends at `argc`: what they read of it,
and what they send when words are missing. -/

namespace Psp2Shell.Cli

open CLib Cmd

/-- The elements of `argv` that a command cannot do without: its name, and the words that it
has no other value for. -/
def Command.needs : Command → Nat
  | ls | pwd | reset | reboot | title | modlist | thlist | question | help | exit => 1
  | cd | rm | rmdir | put | reload | launch | modlistp | modinfo | modstart | modstop | kmodstart
  | kmodstop => 2
  | mv | load | modinfop | modstartp | modstopp | memr | memw => 3
  | moddump => 4

/-- The handler reads no element of `argv` behind its end, and does nothing when
it has too few of them. -/
def Respects (needs : Nat) (func : Handler) (argv : List (List Byte)) : Prop :=
  ∀ host, func host argv ≠ .undefined ∧ (argv.length < needs → func host argv = .nothing)

/-- What `process_line` calls for a line respects `argc`. -/
def RespectsArgc (line : List Byte) : Prop :=
  ∀ c argv, processLine (some line) = .called c argv →
    argv = strsplit line (ascii " ") ∧ Respects c.needs c.func argv

variable {argv : List (List Byte)} {i : Nat} {k : List Byte → Outcome}

theorem withArg_defined (h : i < argv.length) (hk : ∀ w, k w ≠ .undefined) :
    withArg argv i k ≠ .undefined := by
  rw [withArg, List.getElem?_eq_getElem h]
  exact hk argv[i]

theorem withArg_undefined (h : argv.length ≤ i) : withArg argv i k = .undefined := by
  rw [withArg, List.getElem?_eq_none h]

/-! ### Handlers -/

/-- A handler that tests `argc` first, and behind the test reads what that allows. -/
theorem respects_guarded {needs : Nat} {func : Handler}
    (hfew : ∀ host, argv.length < needs → func host argv = .nothing)
    (henough : ∀ host, needs ≤ argv.length → func host argv ≠ .undefined) :
    Respects needs func argv := by
  intro host
  refine ⟨?_, hfew host⟩
  by_cases hlen : argv.length < needs
  · rw [hfew host hlen]
    exact Outcome.noConfusion
  · exact henough host (Nat.not_lt.mp hlen)

/-- A handler that reads no words. -/
theorem respects_wordless {func : Handler} (hne : argv ≠ [])
    (hfunc : ∀ host, func host argv ≠ .undefined) :
    Respects 1 func argv := by
  have hpos := List.length_pos_iff.mpr hne
  exact respects_guarded (fun _ h => by omega) fun host _ => hfunc host

theorem sendNone_respects (type : CmdType) (hne : argv ≠ []) : Respects 1 (sendNone type) argv :=
  respects_wordless hne fun _ => Outcome.noConfusion

theorem sendOne_respects (type : CmdType) (argv : List (List Byte)) :
    Respects 2 (sendOne type) argv := by
  refine respects_guarded (fun _ h => if_pos h) fun host h => ?_
  rw [sendOne, if_neg (Nat.not_lt.mpr h)]
  exact withArg_defined h fun w => Outcome.noConfusion

theorem sendConfirmed_respects (type : CmdType) (argv : List (List Byte)) :
    Respects 2 (sendConfirmed type) argv := by
  refine respects_guarded (fun _ h => if_pos h) fun host h => ?_
  rw [sendConfirmed, if_neg (Nat.not_lt.mpr h)]
  refine withArg_defined h fun w => ?_
  split <;> exact Outcome.noConfusion

theorem sendTwo_respects (type : CmdType) (argv : List (List Byte)) :
    Respects 3 (sendTwo type) argv := by
  refine respects_guarded (fun _ h => if_pos h) fun host h => ?_
  rw [sendTwo, if_neg (Nat.not_lt.mpr h)]
  exact withArg_defined (by omega) fun a => withArg_defined h fun b => Outcome.noConfusion

theorem cmdLs_respects (hne : argv ≠ []) : Respects 1 cmdLs argv := by
  refine respects_wordless hne fun host => ?_
  rw [cmdLs]
  by_cases hlen : argv.length < 2
  · rw [if_pos hlen]
    exact Outcome.noConfusion
  · rw [if_neg hlen]
    exact withArg_defined (Nat.not_lt.mp hlen) fun w => Outcome.noConfusion

theorem cmdLoad_respects (argv : List (List Byte)) : Respects 3 cmdLoad argv := by
  refine respects_guarded (fun _ h => if_pos h) fun host h => ?_
  rw [cmdLoad, if_neg (Nat.not_lt.mpr h)]
  refine withArg_defined h fun path => ?_
  cases host.fopen path with
  | none => exact Outcome.noConfusion
  | some file => exact withArg_defined (by omega) fun tid => Outcome.noConfusion

theorem cmdModdump_respects (argv : List (List Byte)) : Respects 4 cmdModdump argv := by
  refine respects_guarded (fun _ h => if_pos h) fun host h => ?_
  rw [cmdModdump, if_neg (Nat.not_lt.mpr h)]
  exact withArg_defined (by omega) fun a => withArg_defined (by omega) fun b =>
    withArg_defined h fun c => Outcome.noConfusion

/-- A handler that reads `argv[1]` without a test of `argc`. -/
theorem respects_unguarded {func : Handler}
    (hundefined : ∀ host, argv.length < 2 → func host argv = .undefined)
    (henough : ∀ host, 2 ≤ argv.length → func host argv ≠ .undefined) :
    Respects 2 func argv ↔ 2 ≤ argv.length := by
  constructor
  · intro h
    by_contra hlen
    have host : Host := ⟨0, fun _ => none⟩
    exact (h host).1 (hundefined host (Nat.not_le.mp hlen))
  · intro hlen host
    exact ⟨henough host hlen, fun hfew => absurd hlen (Nat.not_le.mpr hfew)⟩

theorem cmdPut_respects_iff (argv : List (List Byte)) :
    Respects 2 cmdPut argv ↔ 2 ≤ argv.length := by
  refine respects_unguarded (fun _ h => withArg_undefined (Nat.le_of_lt_succ h)) fun host h => ?_
  refine withArg_defined h fun path => ?_
  cases host.fopen path with
  | none => exact Outcome.noConfusion
  | some file =>
    dsimp only
    by_cases hlen : argv.length < 3
    · rw [if_pos hlen]
      exact Outcome.noConfusion
    · rw [if_neg hlen]
      exact withArg_defined (Nat.not_lt.mp hlen) fun dst => Outcome.noConfusion

theorem cmdReload_respects_iff (argv : List (List Byte)) :
    Respects 2 cmdReload argv ↔ 2 ≤ argv.length := by
  refine respects_unguarded (fun _ h => withArg_undefined (Nat.le_of_lt_succ h)) fun host h => ?_
  refine withArg_defined h fun path => ?_
  cases host.fopen path <;> exact Outcome.noConfusion

/-- All commands respect `argc` but `put` and `reload`, which do so when they have a word. -/
theorem Command.respects_iff (c : Command) (hne : argv ≠ []) :
    Respects c.needs c.func argv ↔ c = .put ∨ c = .reload → 2 ≤ argv.length := by
  have hother : ∀ {needs : Nat} {func : Handler} {c : Command}, c ≠ .put → c ≠ .reload →
      Respects needs func argv → (Respects needs func argv ↔ c = .put ∨ c = .reload →
        2 ≤ argv.length) :=
    fun hput hreload h => iff_of_true h fun hc => absurd hc (not_or.mpr ⟨hput, hreload⟩)
  cases c with
  | put => exact (cmdPut_respects_iff argv).trans (by simp)
  | reload => exact (cmdReload_respects_iff argv).trans (by simp)
  | ls => exact hother (by decide) (by decide) (cmdLs_respects hne)
  | load => exact hother (by decide) (by decide) (cmdLoad_respects argv)
  | moddump => exact hother (by decide) (by decide) (cmdModdump_respects argv)
  | rm | rmdir => exact hother (by decide) (by decide) (sendConfirmed_respects _ argv)
  | mv | modinfop | modstartp | modstopp | memr | memw =>
    exact hother (by decide) (by decide) (sendTwo_respects _ argv)
  | cd | launch | modlistp | modinfo | modstart | modstop | kmodstart | kmodstop =>
    exact hother (by decide) (by decide) (sendOne_respects _ argv)
  | pwd | reset | reboot | title | modlist | thlist =>
    exact hother (by decide) (by decide) (sendNone_respects _ hne)
  | question | help | exit =>
    exact hother (by decide) (by decide) (respects_wordless hne fun _ => Outcome.noConfusion)

/-! ### Lines -/

theorem strsplit_ne_nil (line delim : List Byte) : strsplit line delim ≠ [] := by
  rw [strsplit]
  split <;> exact List.cons_ne_nil _ _

theorem cmdFind_eq_some {name : List Byte} {c : Command} (h : cmdFind name = some c) :
    c.name = name := by
  simpa using List.find?_some h

/-- What is called for a line is the command of its first token, with all of its tokens. -/
theorem processLine_called {line : List Byte} {c : Command}
    (h : processLine (some line) = .called c argv) :
    argv = strsplit line (ascii " ") ∧ argv.head? = some c.name := by
  simp only [processLine] at h
  split at h
  · split at h
    · cases h
    · next token tokens hsplit =>
      split at h
      · cases h
      · next c' hfind =>
        cases h
        exact ⟨hsplit.symm, by rw [cmdFind_eq_some hfind]; rfl⟩
  · cases h

/-- A line of one token is this token. -/
theorem eq_of_strsplit_singleton {line token : List Byte}
    (h : strsplit line (ascii " ") = [token]) :
    line = token := by
  have hspace : ascii " " = [32] := rfl
  have hjoin : [32].intercalate (line.splitOn (32 : Byte)) = line := List.intercalate_splitOn 32
  rw [← strsplit_eq_splitOn, ← hspace, h] at hjoin
  simpa using hjoin.symm

theorem processLine_alone {c : Command} (hspace : 32 ∉ c.name) (hfind : cmdFind c.name = some c)
    (hne : c.name ≠ []) : processLine (some c.name) = .called c [c.name] := by
  have htoken : strsplit c.name (ascii " ") = [c.name] :=
    strsplit_token fun b hb hd => hspace (by rwa [show b = 32 by simpa [ascii] using hd] at hb)
  simp only [processLine, if_pos (List.length_pos_iff.mpr hne), htoken, hfind]

/-- A line respects `argc` exactly when it is not `put` or `reload` alone, whose handlers then read
the element behind the array. -/
theorem argc_respected_iff (line : List Byte) :
    RespectsArgc line ↔ line ≠ ascii "put" ∧ line ≠ ascii "reload" := by
  constructor
  · intro h
    have halone : ∀ c : Command, c = .put ∨ c = .reload → 32 ∉ c.name → cmdFind c.name = some c →
        c.name ≠ [] → line ≠ c.name := by
      rintro c hc hspace hfind hne rfl
      have hrespects := (h c [c.name] (processLine_alone hspace hfind hne)).2
      exact absurd ((c.respects_iff (List.cons_ne_nil _ _)).mp hrespects hc) (by simp)
    exact ⟨halone .put (Or.inl rfl) (by decide) (by decide) (by decide),
      halone .reload (Or.inr rfl) (by decide) (by decide) (by decide)⟩
  · rintro ⟨hput, hreload⟩ c argv hcalled
    obtain ⟨hargv, hhead⟩ := processLine_called hcalled
    have hne : argv ≠ [] := hargv ▸ strsplit_ne_nil line _
    refine ⟨hargv, (c.respects_iff hne).mpr fun hc => ?_⟩
    by_contra hlen
    obtain ⟨token, htoken⟩ : ∃ token, argv = [token] := List.length_eq_one_iff.mp (by
      have hpos := List.length_pos_iff.mpr hne
      omega)
    subst htoken
    have hline : line = c.name := by
      rw [eq_of_strsplit_singleton hargv.symm]
      exact Option.some.inj hhead
    rcases hc with rfl | rfl
    · exact hput hline
    · exact hreload hline

/-- `put` alone opens what lies behind the array of its only token. -/
theorem put_alone_overreads : ¬RespectsArgc (ascii "put") ∧
    processLine (some (ascii "put")) = .called .put [ascii "put"] ∧
    ∀ host, Command.put.func host [ascii "put"] = .undefined := by
  have hcalled : processLine (some Command.put.name) = .called .put [Command.put.name] :=
    processLine_alone (by decide) (by decide) (by decide)
  have hundefined : ∀ host, Command.put.func host [ascii "put"] = .undefined := fun _ => rfl
  refine ⟨fun h => ?_, hcalled, hundefined⟩
  exact ((h .put _ hcalled).2 ⟨0, fun _ => none⟩).1 (hundefined _)

end Psp2Shell.Cli
