import Mathlib
import Psp2Shell.Session.Model

/-! At most one session, in exactly the runs that admit a connection only when no thread is live or
the session has its command socket. -/

namespace Psp2Shell.Session

open CLib

/-- At most one thread is live, no thread has worked on the shared client while another was live,
and no connection has been admitted then. -/
structure AtMostOne (s : Server) : Prop where
  one : s.live ≤ 1
  intact : s.overwritten = false
  refused : s.admittedLive = false

/-- `thread_wait` accepts a connection when no thread is live, or when the shared client
has a command socket. -/
def Admissible (s : Server) : Event → Prop
  | .accept _ => s.live = 0 ∨ 0 < s.client.cmdSock
  | _ => True

instance (s : Server) : DecidablePred (Admissible s)
  | .accept _ => inferInstanceAs (Decidable (s.live = 0 ∨ 0 < s.client.cmdSock))
  | .connectMsg _ | .connectCmd _ | .create _ | .reopen | .thread _ _ =>
    inferInstanceAs (Decidable True)

/-- The states with at most one session: while a connection waits for its thread, none is live. -/
structure Single (s : Server) : Prop where
  one : s.live ≤ 1
  waiting : s.waiter.isSome → s.live = 0
  intact : s.overwritten = false
  refused : s.admittedLive = false

theorem single_start : Single Server.start := ⟨by decide, by simp [Server.start], rfl, rfl⟩

theorem Single.atMostOne {s : Server} (h : Single s) : AtMostOne s :=
  ⟨h.one, h.intact, h.refused⟩

/-! ### Steps -/

theorem live_set_le {threads : List Thread} {i : Nat} {t : Thread} (ht : threads[i]? = some t)
    (hlive : t.live = true) (t' : Thread) :
    (threads.set i t').countP Thread.live ≤ threads.countP Thread.live := by
  obtain ⟨hi, rfl⟩ := List.getElem?_eq_some_iff.mp ht
  have hpos : 0 < threads.countP Thread.live :=
    List.countP_pos_iff.mpr ⟨_, List.getElem_mem hi, hlive⟩
  rw [List.countP_set hi, if_pos hlive]
  split <;> omega

theorem live_create (s : Server) (c : ClientId) (sock : Int) (ok : Bool) :
    (if ok then s.threads ++ [⟨c, sock, .reset, none⟩] else s.threads).countP Thread.live =
      s.live + if ok then 1 else 0 := by
  cases ok with
  | false => rfl
  | true => simp [Server.live, Thread.live]

theorem Single.step {s u : Server} {e : Event} (h : Single s) (hc : Admissible s e)
    (hstep : step s e = some u) : Single u := by
  cases e with
  | connectMsg c =>
    obtain rfl := step_connectMsg hstep
    exact ⟨h.one, h.waiting, h.intact, h.refused⟩
  | connectCmd c =>
    obtain rfl := step_connectCmd hstep
    exact ⟨h.one, h.waiting, h.intact, h.refused⟩
  | accept sock =>
    obtain ⟨hwaiter, c, rest, -, ⟨-, rfl⟩ | ⟨hsock, rfl⟩⟩ := step_accept hstep
    · exact ⟨h.one, h.waiting, h.intact, h.refused⟩
    · have hlive : s.live = 0 := hc.resolve_right hsock
      exact ⟨h.one, fun _ => hlive, h.intact, by simp [h.refused, hlive]⟩
  | create ok =>
    obtain ⟨c, sock, hwaiter, rfl⟩ := step_create hstep
    have hlive : s.live = 0 := h.waiting (by rw [hwaiter]; rfl)
    refine ⟨?_, by simp, h.intact, h.refused⟩
    have hcount := live_create s c sock ok
    rw [Server.live, hcount, hlive]
    split <;> omega
  | reopen =>
    obtain rfl := step_reopen hstep
    exact ⟨h.one, h.waiting, h.intact, h.refused⟩
  | thread i input =>
    obtain ⟨t, t', client', queue', ht, htstep, rfl⟩ := step_thread hstep
    have hle := live_set_le ht (thread_step htstep).live t'
    have hone := h.one
    refine ⟨hle.trans hone, fun hw => ?_, ?_, h.refused⟩
    · exact Nat.le_zero.mp (hle.trans (h.waiting hw).le)
    · simp only [h.intact, Bool.false_or, decide_eq_false_iff_not]
      omega

theorem guards_single : Guards step Single AtMostOne Admissible :=
  ⟨Single.step, Single.atMostOne⟩

/-- A step that is not admissible admits a connection while a thread is live. -/
theorem not_atMostOne {s u : Server} {e : Event} (hc : ¬Admissible s e)
    (hstep : step s e = some u) : ¬AtMostOne u := by
  intro hone
  cases e with
  | accept sock =>
    simp only [Admissible, not_or] at hc
    obtain ⟨hwaiter, c, rest, -, ⟨hsock, rfl⟩ | ⟨hsock, rfl⟩⟩ := step_accept hstep
    · exact hc.2 hsock
    · have hrefused := hone.refused
      have hlive : 0 < s.live := Nat.pos_of_ne_zero hc.1
      simp [hlive] at hrefused
  | _ => exact hc trivial

/-- A run of the server has at most one session in every state exactly when each of its steps is
admissible. -/
theorem at_most_one_iff {es : List Event} (hrun : (run step Server.start es).isSome = true) :
    Always step AtMostOne Server.start es ↔ EachStep step Admissible Server.start es := by
  obtain ⟨u, hu⟩ := Option.isSome_iff_exists.mp hrun
  exact guards_single.always_iff (fun _ => not_atMostOne) single_start hu

/-- A whole session, during which a second client is refused. -/
theorem at_most_one_refused : Always step AtMostOne Server.start
    [.connectMsg 0, .accept 5, .create true, .thread 0 .go, .thread 0 .go, .thread 0 .go,
      .thread 0 .go, .connectCmd 0, .thread 0 (.accepted 6), .connectMsg 1, .accept 7,
      .thread 0 (.served false), .thread 0 (.served true), .thread 0 .go, .thread 0 .go,
      .thread 0 .go] :=
  (at_most_one_iff (by decide)).mpr (by decide)

/-- A second client that is accepted while the first session makes its listing gets a thread of its
own, which clears the shared client. -/
theorem two_sessions : ∃ t, run step Server.start
    [.connectMsg 0, .accept 5, .create true, .thread 0 .go, .thread 0 .go, .connectMsg 1, .accept 6,
      .create true, .thread 1 .go] = some t ∧
    t.live = 2 ∧ t.client = ⟨0, 0⟩ ∧ t.overwritten = true ∧ ¬AtMostOne t :=
  ⟨_, rfl, by decide, rfl, rfl, fun h => absurd h.one (by decide)⟩

end Psp2Shell.Session
