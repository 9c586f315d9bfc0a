import Psp2Shell.CLib.Runs

/-! The terminal under the client, `psp2shell_cli/source/main.c`: `setup_terminal` and
`close_terminal` in the main loop and in `process_args`, beside the threads of `msg_thread`, which
close the terminal too and start the program again.  The functions of readline that change the
settings are a parameter; `tcgetattr` and `tcsetattr` succeed, and no signal ends the program. -/

namespace Psp2Shell.Cli.Terminal

open CLib

def icanon : UInt32 := 2

/-- `struct termios`: the local flags, `c_cc[VTIME]`, and the other fields as one number. -/
structure Termios where
  lflag : UInt32
  vtime : UInt8
  others : Nat
deriving DecidableEq

/-- What a static variable holds at first. -/
def Termios.zero : Termios := ⟨0, 0, 0⟩

/-- What `setup_terminal` makes of the settings. -/
def Termios.raw (t : Termios) : Termios := { t with lflag := t.lflag &&& ~~~icanon, vtime := 1 }

/-! ### Readline -/

/-- The functions of readline that change the settings of the terminal, on what readline keeps in
its variables and on the settings.  `installed` says that there is a line handler, and `saved` are
the settings that readline has to put back. -/
structure Readline (ρ : Type) where
  initial : ρ
  /-- `rl_callback_handler_install`. -/
  install : ρ → Termios → ρ × Termios
  /-- `rl_callback_handler_remove`. -/
  remove : ρ → Termios → ρ × Termios
  /-- `rl_callback_read_char`, when it has a line for the handler. -/
  handing : ρ → Termios → ρ × Termios
  /-- The same, when the handler has returned. -/
  handed : ρ → Termios → ρ × Termios
  installed : ρ → Bool
  saved : ρ → Option Termios

variable {ρ : Type}

/-- Readline has no handler, and nothing to put back. -/
def Readline.Free (rl : Readline ρ) (r : ρ) : Prop := rl.installed r = false ∧ rl.saved r = none

/-- What the documentation of readline promises: the terminal is set up for reading one character at
a time when a handler is installed and when it has returned and is still there, and the settings
that it had before are put back for the handler and when the handler is removed. -/
structure Readline.Documented (rl : Readline ρ) : Prop where
  initial : rl.Free rl.initial
  install : ∀ r t, rl.Free r → rl.installed (rl.install r t).1 = true ∧
    rl.saved (rl.install r t).1 = some t ∧ (rl.install r t).2.lflag &&& icanon = 0
  remove : ∀ r t, rl.Free (rl.remove r t).1 ∧ (rl.remove r t).2 = (rl.saved r).getD t
  handing : ∀ r t, rl.installed (rl.handing r t).1 = rl.installed r ∧
    rl.saved (rl.handing r t).1 = none ∧ (rl.handing r t).2 = (rl.saved r).getD t
  handed : ∀ r t, rl.installed r = true → rl.saved r = none →
    rl.installed (rl.handed r t).1 = true ∧ rl.saved (rl.handed r t).1 = some t ∧
      (rl.handed r t).2.lflag &&& icanon = 0
  removed : ∀ r t, rl.Free r → rl.Free (rl.handed r t).1 ∧ (rl.handed r t).2 = t

/-! ### The client -/

/-- Where the main thread is. -/
inductive Main
  /-- At its test of `msg_sock`. -/
  | testing
  /-- In `connect_psp2`, with the message socket and its `msg_thread`, before `setup_terminal`. -/
  | connecting
  /-- Behind the test, with the sockets to look at and a line to read. -/
  | inside
  /-- In `process_line`, which readline has called. -/
  | handling
  /-- Behind the loop, or in the `process_line` that `process_args` calls,
  before `close_terminal`. -/
  | finishing
deriving DecidableEq

/-- A client on a terminal with the settings `tty`.  `args` says that it has a command to run and
ends then, and `connected` that `msg_sock >= 0`; `threads` run the loop of `msg_thread`, `leaving`
have called `close_terminal` behind it, and `restarting` have closed the sockets too. -/
structure Shell (ρ : Type) where
  tty : Termios
  term : Termios
  oldLflag : UInt32
  oldVtime : UInt8
  readlineCallback : Bool
  readline : ρ
  args : Bool
  connected : Bool
  main : Main
  threads : Nat
  leaving : Nat
  restarting : Nat
  exited : Bool

variable (rl : Readline ρ)

/-- The program at its start. -/
def Shell.start (tty : Termios) (args : Bool) : Shell ρ :=
  ⟨tty, .zero, 0, 0, false, rl.initial, args, false, .testing, 0, 0, 0, false⟩

namespace Shell

/-- `setup_terminal`. -/
def setupTerminal (s : Shell ρ) : Shell ρ :=
  let after := rl.install s.readline s.tty.raw
  { s with
    term := s.tty.raw
    oldLflag := s.tty.lflag
    oldVtime := s.tty.vtime
    tty := after.2
    readline := after.1
    readlineCallback := true }

/-- `close_terminal`. -/
def closeTerminal (s : Shell ρ) : Shell ρ :=
  let term := { s.term with lflag := s.oldLflag, vtime := s.oldVtime }
  let after := rl.remove s.readline term
  { s with term, tty := after.2, readline := after.1, readlineCallback := false }

end Shell

inductive Event
  /-- `connect_psp2` gets the message socket and starts a `msg_thread`. -/
  | connect
  /-- `connect_psp2` gets the command socket, and comes to `setup_terminal`. -/
  | setup
  /-- `connect_psp2` fails to get one of its sockets. -/
  | refused
  /-- The main loop finds `msg_sock >= 0`. -/
  | enter
  /-- It finds a socket dead. -/
  | dead
  /-- `rl_callback_read_char` comes to the end of a line, or of the input, and
  calls `process_line`. -/
  | line
  /-- `process_line` returns. -/
  | lineDone
  /-- The line is `exit`, or there is none, and the program ends. -/
  | lastLine
  /-- The end of the loop's body. -/
  | again
  /-- The `close_terminal` of `process_args`, of its command `exit`, or behind the loop,
  and the program ends. -/
  | finish
  /-- A `msg_thread` leaves its loop and calls `close_terminal`. -/
  | disconnected
  /-- It closes the sockets and sets `msg_sock` to -1. -/
  | closed
  /-- It comes to `execvp`, for which only the main loop has set `_argv`. -/
  | restart
deriving DecidableEq

/-- One event, and `none` when it cannot happen. -/
def Shell.step (s : Shell ρ) (e : Event) : Option (Shell ρ) :=
  if s.exited then none
  else
    match e with
    | .connect =>
      if s.main = .testing ∧ s.connected = false then
        some { s with connected := true, main := .connecting, threads := s.threads + 1 }
      else none
    | .setup =>
      if s.main = .connecting then
        some { s.setupTerminal rl with main := if s.args then .finishing else .testing }
      else none
    | .refused =>
      if s.main = .connecting ∨ (s.main = .testing ∧ s.connected = false) then
        some { s with main := .finishing }
      else none
    | .enter =>
      if s.main = .testing ∧ s.connected = true then some { s with main := .inside } else none
    | .dead =>
      if s.main = .inside then some { s.closeTerminal rl with connected := false } else none
    | .line =>
      if s.main = .inside ∧ s.readlineCallback = true then
        let after := rl.handing s.readline s.tty
        some { s with readline := after.1, tty := after.2, main := .handling }
      else none
    | .lineDone =>
      if s.main = .handling then
        let after := rl.handed s.readline s.tty
        some { s with readline := after.1, tty := after.2, main := .inside }
      else none
    | .lastLine =>
      if s.main = .handling then some { s.closeTerminal rl with exited := true } else none
    | .again => if s.main = .inside then some { s with main := .testing } else none
    | .finish =>
      if s.main = .finishing then some { s.closeTerminal rl with exited := true } else none
    | .disconnected =>
      if s.threads = 0 then none
      else
        some { s.closeTerminal rl with threads := s.threads - 1, leaving := s.leaving + 1 }
    | .closed =>
      if s.leaving = 0 then none
      else
        some { s with
          connected := false, leaving := s.leaving - 1, restarting := s.restarting + 1 }
    | .restart =>
      if s.restarting = 0 ∨ s.args then none else some (.start rl s.tty false)

/-! ### What a step can do -/

/-- What a step does. -/
inductive ShellStep (s : Shell ρ) : Event → Shell ρ → Prop
  | connect (hmain : s.main = .testing) (hconnected : s.connected = false) :
    ShellStep s .connect
      { s with connected := true, main := .connecting, threads := s.threads + 1 }
  | setup {main : Main} (hmain : s.main = .connecting)
    (hnext : main = .finishing ∨ main = .testing) :
    ShellStep s .setup { s.setupTerminal rl with main }
  | refused (hmain : s.main = .connecting ∨ s.main = .testing) :
    ShellStep s .refused { s with main := .finishing }
  | enter (hmain : s.main = .testing) (hconnected : s.connected = true) :
    ShellStep s .enter { s with main := .inside }
  | dead (hmain : s.main = .inside) :
    ShellStep s .dead { s.closeTerminal rl with connected := false }
  | line (hmain : s.main = .inside) (hcallback : s.readlineCallback = true) :
    ShellStep s .line { s with
      readline := (rl.handing s.readline s.tty).1
      tty := (rl.handing s.readline s.tty).2
      main := .handling }
  | lineDone (hmain : s.main = .handling) :
    ShellStep s .lineDone { s with
      readline := (rl.handed s.readline s.tty).1
      tty := (rl.handed s.readline s.tty).2
      main := .inside }
  | lastLine (hmain : s.main = .handling) :
    ShellStep s .lastLine { s.closeTerminal rl with exited := true }
  | again (hmain : s.main = .inside) : ShellStep s .again { s with main := .testing }
  | finish (hmain : s.main = .finishing) :
    ShellStep s .finish { s.closeTerminal rl with exited := true }
  | disconnected :
    ShellStep s .disconnected
      { s.closeTerminal rl with threads := s.threads - 1, leaving := s.leaving + 1 }
  | closed :
    ShellStep s .closed
      { s with connected := false, leaving := s.leaving - 1, restarting := s.restarting + 1 }
  | restart : ShellStep s .restart (.start rl s.tty false)

variable {rl} {s t : Shell ρ} {found : Termios} {args : Bool}

theorem step_main {e : Event} (h : s.step rl e = some t)
    (he : e ≠ .disconnected ∧ e ≠ .closed ∧ e ≠ .restart) : ShellStep rl s e t := by
  unfold Shell.step at h
  split at h
  · cases h
  · cases e with
    | connect | enter | line =>
      dsimp only at h
      split at h
      · rename_i hguard
        cases h
        constructor
        · exact hguard.1
        · exact hguard.2
      · cases h
    | setup =>
      dsimp only at h
      split at h
      · rename_i hmain
        cases h
        refine .setup hmain ?_
        split
        · exact Or.inl rfl
        · exact Or.inr rfl
      · cases h
    | refused =>
      dsimp only at h
      split at h
      · rename_i hguard
        cases h
        exact .refused (hguard.imp id And.left)
      · cases h
    | dead | lineDone | lastLine | again | finish =>
      dsimp only at h
      split at h
      · rename_i hmain
        cases h
        constructor
        exact hmain
      · cases h
    | disconnected => exact absurd rfl he.1
    | closed => exact absurd rfl he.2.1
    | restart => exact absurd rfl he.2.2

theorem step_cases {e : Event} (h : s.step rl e = some t) : ShellStep rl s e t := by
  by_cases he : e ≠ .disconnected ∧ e ≠ .closed ∧ e ≠ .restart
  · exact step_main h he
  · unfold Shell.step at h
    split at h
    · cases h
    · cases e with
      | disconnected | closed | restart =>
        dsimp only at h
        split at h
        · cases h
        · cases h
          constructor
      | connect | setup | refused | enter | dead | line | lineDone | lastLine | again | finish =>
        simp at he

/-! ### The terminal -/

/-- The terminal is as it was found, or the client reads lines and has saved the settings
that it was found with. -/
def Restored (found : Termios) (s : Shell ρ) : Prop :=
  if s.readlineCallback then s.oldLflag = found.lflag ∧ s.oldVtime = found.vtime else s.tty = found

variable (rl) in
/-- The terminal is not set up twice, it is closed after it has been set up and while readline has
given it back, and the program is not started again while it reads lines. -/
def Careful (s : Shell ρ) : Event → Prop
  | .setup | .restart => s.readlineCallback = false
  | .finish | .dead | .disconnected => s.term ≠ .zero ∧ rl.saved s.readline = none
  | _ => True

instance decidableCareful (s : Shell ρ) : ∀ e, Decidable (Careful rl s e)
  | .setup | .restart => inferInstanceAs (Decidable (_ = _))
  | .finish | .dead | .disconnected => inferInstanceAs (Decidable (¬_ = _ ∧ _ = _))
  | .connect | .refused | .enter | .line | .lineDone | .lastLine | .again | .closed =>
    isTrue trivial

variable (rl) in
/-- The terminal has not been set up yet, readline has it, readline has given it back for a line,
or it has been closed. -/
inductive Setting (found : Termios) (s : Shell ρ) : Prop
  | fresh (hterm : s.term = .zero) (hlflag : s.oldLflag = 0) (hvtime : s.oldVtime = 0)
    (hcallback : s.readlineCallback = false) (hfree : rl.Free s.readline)
    (hmain : s.main ≠ .inside ∧ s.main ≠ .handling)
    (hconnected : s.main = .testing → s.connected = false) (htty : s.tty = found)
  | taken (hterm : s.term = found.raw) (hlflag : s.oldLflag = found.lflag)
    (hvtime : s.oldVtime = found.vtime) (hcallback : s.readlineCallback = true)
    (hinstalled : rl.installed s.readline = true) (hsaved : rl.saved s.readline = some found.raw)
    (hmain : s.main ≠ .handling) (htty : s.tty.lflag &&& icanon = 0)
  | handing (hterm : s.term = found.raw) (hlflag : s.oldLflag = found.lflag)
    (hvtime : s.oldVtime = found.vtime) (hcallback : s.readlineCallback = true)
    (hinstalled : rl.installed s.readline = true) (hsaved : rl.saved s.readline = none)
    (hmain : s.main = .handling) (htty : s.tty = found.raw)
  | closed (hterm : s.term = found) (hlflag : s.oldLflag = found.lflag)
    (hvtime : s.oldVtime = found.vtime) (hcallback : s.readlineCallback = false)
    (hfree : rl.Free s.readline) (htty : s.tty = found)

theorem raw_canonical (t : Termios) : t.raw.lflag &&& icanon = 0 := by
  show t.lflag &&& ~~~icanon &&& icanon = 0
  rw [UInt32.and_assoc]
  exact UInt32.and_zero

theorem raw_ne_zero (t : Termios) : t.raw ≠ .zero := by
  intro hzero
  have hvtime : (1 : UInt8) = 0 := congrArg Termios.vtime hzero
  cases hvtime

theorem canonical_ne_zero (h : found.lflag &&& icanon ≠ 0) : found ≠ .zero := by
  rintro rfl
  exact h (by decide)

theorem setting_start (hrl : rl.Documented) (found : Termios) (args : Bool) :
    Setting rl found (.start rl found args) :=
  .fresh rfl rfl rfl rfl hrl.initial ⟨nofun, nofun⟩ (fun _ => rfl) rfl

theorem Setting.restored (h : Setting rl found s) : Restored found s := by
  unfold Restored
  cases h with
  | fresh _ _ _ hcallback _ _ _ htty | closed _ _ _ hcallback _ htty =>
    rw [if_neg (by simp [hcallback])]
    exact htty
  | taken _ hlflag hvtime hcallback | handing _ hlflag hvtime hcallback =>
    rw [if_pos hcallback]
    exact ⟨hlflag, hvtime⟩

theorem Setting.tty_eq (h : Setting rl found s) (hcallback : s.readlineCallback = false) :
    s.tty = found := by
  have hrestored := h.restored
  rwa [Restored, if_neg (by simp [hcallback])] at hrestored

/-- While the client reads lines, the terminal is not in canonical mode. -/
theorem Setting.uncanonical (h : Setting rl found s) (hcallback : s.readlineCallback ≠ false) :
    s.tty.lflag &&& icanon = 0 := by
  cases h with
  | taken _ _ _ _ _ _ _ htty => exact htty
  | handing _ _ _ _ _ _ _ htty =>
    rw [htty]
    exact raw_canonical found
  | fresh _ _ _ hno | closed _ _ _ hno => exact absurd hno hcallback

/-- Before the terminal has been set up, the main thread has not come behind its test. -/
theorem Setting.outside (h : Setting rl found s) (hfound : found ≠ .zero) (hterm : s.term = .zero) :
    (s.main ≠ .inside ∧ s.main ≠ .handling) ∧ (s.main = .testing → s.connected = false) := by
  cases h with
  | fresh _ _ _ _ _ hmain hconnected => exact ⟨hmain, hconnected⟩
  | taken hraw | handing hraw => exact absurd (hraw.symm.trans hterm) (raw_ne_zero found)
  | closed hclosed => exact absurd (hclosed.symm.trans hterm) hfound

/-! ### Steps that leave the terminal alone -/

theorem Setting.moves {connected : Bool} {main : Main} {threads leaving restarting : Nat}
    (h : Setting rl found s) (hmain : main = .handling ↔ s.main = .handling)
    (hfresh : s.term = .zero →
      (main ≠ .inside ∧ main ≠ .handling) ∧ (main = .testing → connected = false)) :
    Setting rl found { s with connected, main, threads, leaving, restarting } := by
  cases h with
  | fresh hterm hlflag hvtime hcallback hfree _ _ htty =>
    obtain ⟨houtside, hconnected⟩ := hfresh hterm
    exact .fresh hterm hlflag hvtime hcallback hfree houtside hconnected htty
  | taken hterm hlflag hvtime hcallback hinstalled hsaved hno htty =>
    exact .taken hterm hlflag hvtime hcallback hinstalled hsaved
      (fun heq => hno (hmain.mp heq)) htty
  | handing hterm hlflag hvtime hcallback hinstalled hsaved hyes htty =>
    exact .handing hterm hlflag hvtime hcallback hinstalled hsaved (hmain.mpr hyes) htty
  | closed hterm hlflag hvtime hcallback hfree htty =>
    exact .closed hterm hlflag hvtime hcallback hfree htty

/-! ### Steps that set it up, and lines -/

theorem Setting.setup (hrl : rl.Documented) (h : Setting rl found s)
    (hcallback : s.readlineCallback = false) {main : Main} (hmain : main ≠ .handling) :
    Setting rl found { s.setupTerminal rl with main } := by
  have hfree : rl.Free s.readline := by
    cases h with
    | fresh _ _ _ _ hfree | closed _ _ _ _ hfree => exact hfree
    | taken _ _ _ hset | handing _ _ _ hset =>
      rw [hcallback] at hset
      cases hset
  have htty := h.tty_eq hcallback
  obtain ⟨hinstalled, hsaved, hlflag⟩ := hrl.install s.readline s.tty.raw hfree
  have hraw : s.tty.raw = found.raw := congrArg Termios.raw htty
  exact .taken hraw (congrArg Termios.lflag htty) (congrArg Termios.vtime htty) rfl hinstalled
    (hsaved.trans (congrArg some hraw)) hmain hlflag

/-- For a line, readline puts back the settings that `setup_terminal` has made. -/
theorem Setting.line (hrl : rl.Documented) (h : Setting rl found s) (hmain : s.main = .inside)
    (hcallback : s.readlineCallback = true) :
    Setting rl found { s with
      readline := (rl.handing s.readline s.tty).1
      tty := (rl.handing s.readline s.tty).2
      main := .handling } := by
  cases h with
  | taken hterm hlflag hvtime _ hinstalled hsaved =>
    obtain ⟨hstays, hnone, hput⟩ := hrl.handing s.readline s.tty
    rw [hsaved] at hput
    exact .handing hterm hlflag hvtime hcallback (hstays.trans hinstalled) hnone rfl hput
  | handing _ _ _ _ _ _ hno =>
    rw [hmain] at hno
    cases hno
  | fresh _ _ _ hno | closed _ _ _ hno =>
    rw [hcallback] at hno
    cases hno

theorem Setting.lineDone (hrl : rl.Documented) (h : Setting rl found s)
    (hmain : s.main = .handling) :
    Setting rl found { s with
      readline := (rl.handed s.readline s.tty).1
      tty := (rl.handed s.readline s.tty).2
      main := .inside } := by
  cases h with
  | handing hterm hlflag hvtime hcallback hinstalled hsaved _ htty =>
    obtain ⟨hstays, hnext, hmode⟩ := hrl.handed s.readline s.tty hinstalled hsaved
    rw [htty] at hnext hmode hstays
    exact .taken hterm hlflag hvtime hcallback (by rw [htty]; exact hstays)
      (by rw [htty]; exact hnext) nofun (by rw [htty]; exact hmode)
  | closed hterm hlflag hvtime hcallback hfree htty =>
    obtain ⟨hfree', hsame⟩ := hrl.removed s.readline s.tty hfree
    exact .closed hterm hlflag hvtime hcallback hfree' (hsame.trans htty)
  | fresh _ _ _ _ _ hno => exact absurd hmain hno.2
  | taken _ _ _ _ _ _ hno => exact absurd hmain hno

/-! ### Steps that close it -/

/-- The settings that `close_terminal` writes. -/
theorem closed_term (hterm : s.term.others = found.others) (hlflag : s.oldLflag = found.lflag)
    (hvtime : s.oldVtime = found.vtime) :
    { s.term with lflag := s.oldLflag, vtime := s.oldVtime } = found := by
  show (⟨s.oldLflag, s.oldVtime, s.term.others⟩ : Termios) = found
  rw [hlflag, hvtime, hterm]

/-- When the terminal has been set up, and readline has given it back,
`close_terminal` restores it. -/
theorem Setting.close {connected exited : Bool} {threads leaving : Nat} (hrl : rl.Documented)
    (h : Setting rl found s) (hset : s.term ≠ .zero) (hsaved : rl.saved s.readline = none) :
    Setting rl found { s.closeTerminal rl with connected, threads, leaving, exited } := by
  obtain ⟨hclosed, hlflag, hvtime⟩ :
      { s.term with lflag := s.oldLflag, vtime := s.oldVtime } = found ∧
        s.oldLflag = found.lflag ∧ s.oldVtime = found.vtime := by
    cases h with
    | fresh hterm => exact absurd hterm hset
    | taken hterm hlflag hvtime | handing hterm hlflag hvtime =>
      exact ⟨closed_term (by rw [hterm]; rfl) hlflag hvtime, hlflag, hvtime⟩
    | closed hterm hlflag hvtime =>
      exact ⟨closed_term (by rw [hterm]) hlflag hvtime, hlflag, hvtime⟩
  obtain ⟨hfree, hput⟩ := hrl.remove s.readline
    { s.term with lflag := s.oldLflag, vtime := s.oldVtime }
  rw [hsaved, Option.getD_none, hclosed] at hput
  rw [hclosed] at hfree
  refine .closed hclosed hlflag hvtime rfl ?_ ?_
  · simp only [Shell.closeTerminal, hclosed]
    exact hfree
  · simp only [Shell.closeTerminal, hclosed]
    exact hput

/-- Otherwise `close_terminal` clears it, or readline puts back the settings of `setup_terminal`. -/
theorem not_closed (hrl : rl.Documented) (hfound : found.lflag &&& icanon ≠ 0)
    (h : Setting rl found s) (hcareless : ¬(s.term ≠ .zero ∧ rl.saved s.readline = none)) :
    (s.closeTerminal rl).tty ≠ found := by
  have hput := (hrl.remove s.readline { s.term with lflag := s.oldLflag, vtime := s.oldVtime }).2
  cases h with
  | fresh hterm hlflag hvtime _ hfree =>
    have hzero : { s.term with lflag := s.oldLflag, vtime := s.oldVtime } = Termios.zero :=
      closed_term (by rw [hterm]) hlflag hvtime
    rw [hfree.2, Option.getD_none] at hput
    intro heq
    exact canonical_ne_zero hfound (heq.symm.trans (hput.trans hzero))
  | taken _ _ _ _ _ hsaved =>
    rw [hsaved, Option.getD_some] at hput
    intro heq
    refine hfound ?_
    rw [← heq, show (s.closeTerminal rl).tty = found.raw from hput]
    exact raw_canonical found
  | handing hterm _ _ _ _ hsaved =>
    exact absurd ⟨by rw [hterm]; exact raw_ne_zero found, hsaved⟩ hcareless
  | closed hterm _ _ _ hfree =>
    exact absurd ⟨by rw [hterm]; exact canonical_ne_zero hfound, hfree.2⟩ hcareless

/-- In `process_line`, readline has given the terminal back. -/
theorem Setting.handled (h : Setting rl found s) (hfound : found ≠ .zero)
    (hmain : s.main = .handling) : s.term ≠ .zero ∧ rl.saved s.readline = none := by
  cases h with
  | handing hterm _ _ _ _ hsaved => exact ⟨by rw [hterm]; exact raw_ne_zero found, hsaved⟩
  | closed hterm _ _ _ hfree => exact ⟨by rw [hterm]; exact hfound, hfree.2⟩
  | fresh _ _ _ _ _ hno => exact absurd hmain hno.2
  | taken _ _ _ _ _ _ hno => exact absurd hmain hno

/-! ### Runs -/

theorem Setting.step (hrl : rl.Documented) {e : Event} (hfound : found.lflag &&& icanon ≠ 0)
    (h : Setting rl found s) (hcareful : Careful rl s e) (hstep : s.step rl e = some t) :
    Setting rl found t := by
  have hzero : found ≠ .zero := canonical_ne_zero hfound
  cases step_cases hstep with
  | connect hmain => exact h.moves (by simp [hmain]) fun _ => ⟨⟨nofun, nofun⟩, nofun⟩
  | setup _ hnext =>
    refine h.setup hrl hcareful ?_
    rintro rfl
    obtain hno | hno := hnext <;> cases hno
  | refused hmain =>
    refine h.moves (iff_of_false nofun fun hno => ?_) fun _ => ⟨⟨nofun, nofun⟩, nofun⟩
    obtain heq | heq := hmain <;> cases heq.symm.trans hno
  | enter hmain hconnected =>
    refine h.moves (by simp [hmain]) fun hterm => ?_
    have hnot := (h.outside hzero hterm).2 hmain
    rw [hconnected] at hnot
    cases hnot
  | again hmain =>
    exact h.moves (by simp [hmain]) fun hterm => absurd hmain (h.outside hzero hterm).1.1
  | closed => exact h.moves Iff.rfl fun hterm => ⟨(h.outside hzero hterm).1, fun _ => rfl⟩
  | line hmain hcallback => exact h.line hrl hmain hcallback
  | lineDone hmain => exact h.lineDone hrl hmain
  | lastLine hmain =>
    obtain ⟨hset, hsaved⟩ := h.handled hzero hmain
    exact h.close hrl hset hsaved
  | dead | finish | disconnected => exact h.close hrl hcareful.1 hcareful.2
  | restart =>
    rw [h.tty_eq hcareful]
    exact setting_start hrl found false

theorem guards_setting (hrl : rl.Documented) (hfound : found.lflag &&& icanon ≠ 0) :
    Guards (Shell.step rl) (Setting rl found) (Restored found) (Careful rl) :=
  ⟨Setting.step hrl hfound, Setting.restored⟩

/-- The settings for reading lines are saved as those that were found, left to the next program, or
put back by readline, or all settings are set to 0. -/
theorem not_restored (hrl : rl.Documented) {e : Event} (hfound : found.lflag &&& icanon ≠ 0)
    (h : Setting rl found s) (hcareless : ¬Careful rl s e) (hstep : s.step rl e = some t) :
    ¬Restored found t := by
  -- a terminal that is set up again, or left as it is, is not in canonical mode
  have hmode : s.readlineCallback ≠ false → s.tty.lflag ≠ found.lflag := by
    intro hcallback heq
    exact hfound (heq ▸ h.uncanonical hcallback)
  cases step_cases hstep with
  | setup => exact fun hrestored => hmode hcareless hrestored.1
  | restart => exact fun hrestored => hmode hcareless (congrArg Termios.lflag hrestored)
  | dead | finish | disconnected => exact not_closed hrl hfound h hcareless
  | connect | refused | enter | line | lineDone | lastLine | again | closed =>
    exact absurd trivial hcareless

/-- In a run from a terminal that is in canonical mode, the terminal is as it was found or the
client reads lines and has those settings saved, in every state, exactly when `setup_terminal` never
finds the terminal set up, each `close_terminal` outside of `process_line` finds it set up and given
back by readline, and no `msg_thread` starts the client again while it reads lines. -/
theorem terminal_restored_iff (hrl : rl.Documented) (hfound : found.lflag &&& icanon ≠ 0)
    {es : List Event} (hrun : run (Shell.step rl) (.start rl found args) es = some t) :
    Always (Shell.step rl) (Restored found) (.start rl found args) es ↔
      EachStep (Shell.step rl) (Careful rl) (.start rl found args) es :=
  (guards_setting hrl hfound).always_iff (not_restored hrl hfound)
    (setting_start hrl found args) hrun

/-- A readline that clears `ICANON` for itself: whether there is a handler,
and what it puts back. -/
def gnu : Readline (Bool × Option Termios) where
  initial := (false, none)
  install r t := ((true, r.2.or (some t)), { t with lflag := t.lflag &&& ~~~icanon })
  remove r t := ((false, none), r.2.getD t)
  handing r t := ((r.1, none), r.2.getD t)
  handed r t :=
    if r.1 then ((true, r.2.or (some t)), { t with lflag := t.lflag &&& ~~~icanon }) else (r, t)
  installed := Prod.fst
  saved := Prod.snd

theorem gnu_documented : gnu.Documented where
  initial := ⟨rfl, rfl⟩
  install := by
    rintro ⟨handler, saved⟩ t ⟨-, rfl⟩
    exact ⟨rfl, rfl, raw_canonical t⟩
  remove _ _ := ⟨⟨rfl, rfl⟩, rfl⟩
  handing _ _ := ⟨rfl, rfl, rfl⟩
  handed := by
    rintro ⟨handler, saved⟩ t rfl rfl
    exact ⟨rfl, rfl, raw_canonical t⟩
  removed := by
    rintro ⟨handler, saved⟩ t ⟨rfl, rfl⟩
    exact ⟨⟨rfl, rfl⟩, rfl⟩

/-- The server goes away while the client works on a line, and the client starts again and
ends with `exit`; it goes away at the prompt, or before it has accepted the command
socket; a single command. -/
theorem terminal_restored_exit :
    Always (Shell.step gnu) (Restored ⟨icanon, 0, 5⟩) (.start gnu ⟨icanon, 0, 5⟩ false)
        [.connect, .setup, .enter, .line, .lineDone, .line, .disconnected, .closed,
          .restart, .connect, .setup, .enter, .line, .lastLine] ∧
      ¬Always (Shell.step gnu) (Restored ⟨icanon, 0, 5⟩) (.start gnu ⟨icanon, 0, 5⟩ false)
        [.connect, .setup, .enter, .disconnected] ∧
      ¬Always (Shell.step gnu) (Restored ⟨icanon, 0, 5⟩) (.start gnu ⟨icanon, 0, 5⟩ false)
        [.connect, .disconnected] ∧
      ¬Always (Shell.step gnu) (Restored ⟨icanon, 0, 5⟩) (.start gnu ⟨icanon, 0, 5⟩ true)
        [.connect, .setup, .finish] := by
  have hfound : (⟨icanon, 0, 5⟩ : Termios).lflag &&& icanon ≠ 0 := by decide
  refine ⟨?_, ?_, ?_, ?_⟩
  · exact (terminal_restored_iff gnu_documented hfound rfl).mpr (by decide)
  · exact fun h => absurd ((terminal_restored_iff gnu_documented hfound rfl).mp h) (by decide)
  · exact fun h => absurd ((terminal_restored_iff gnu_documented hfound rfl).mp h) (by decide)
  · exact fun h => absurd ((terminal_restored_iff gnu_documented hfound rfl).mp h) (by decide)

end Psp2Shell.Cli.Terminal
