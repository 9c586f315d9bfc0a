import Mathlib
import Psp2Shell.Session.Model

/-! The pairing of the two ports: a session whose turn it is finds its own client at the head of the
command port's backlog, in the runs that admit no connection out of turn. -/

namespace Psp2Shell.Session

open CLib

/-- Every thread that has accepted a command connection has accepted the one of its own client. -/
def Paired (s : Server) : Prop := ∀ t ∈ s.threads, ∀ d, t.cmdClient = some d → d = t.client

/-- The clients of these threads that have yet to accept their command connection. -/
def awaited (threads : List Thread) : List ClientId :=
  (threads.filter Thread.awaits).map Thread.client

/-- The clients that the command port is awaited for: the one with no thread yet, and those of the
threads. -/
def Server.awaited (s : Server) : List ClientId :=
  s.waiter.toList.map Prod.fst ++ Session.awaited s.threads

/-- Connections come in turn.  A connection is admitted when no other one awaits the command port
and the first connection there, if any, is its own client's; and the first one to connect to the
command port while a client is awaited is that client. -/
def InTurn (s : Server) : Event → Prop
  | .accept _ => 0 < s.client.cmdSock ∨
      (s.awaited = [] ∧ ∀ c ∈ s.msgQueue.head?, ∀ d ∈ s.cmdQueue.head?, d = c)
  | .connectCmd d => s.cmdQueue = [] → ∀ c ∈ s.awaited, d = c
  | _ => True

instance (s : Server) : DecidablePred (InTurn s)
  | .accept _ => inferInstanceAs (Decidable (0 < s.client.cmdSock ∨
      (s.awaited = [] ∧ ∀ c ∈ s.msgQueue.head?, ∀ d ∈ s.cmdQueue.head?, d = c)))
  | .connectCmd d => inferInstanceAs (Decidable (s.cmdQueue = [] → ∀ c ∈ s.awaited, d = c))
  | .connectMsg _ | .create _ | .reopen | .thread _ _ => inferInstanceAs (Decidable True)

/-- At most one client is awaited, and it comes first. -/
structure Matched (s : Server) : Prop where
  paired : Paired s
  one : s.awaited.length ≤ 1
  first : ∀ c ∈ s.awaited, ∀ d ∈ s.cmdQueue.head?, d = c

theorem matched_start : Matched Server.start :=
  ⟨fun _ ht => absurd ht List.not_mem_nil, by decide, fun _ hc => absurd hc List.not_mem_nil⟩

/-! ### Awaited clients -/

theorem awaited_append (xs ys : List Thread) : awaited (xs ++ ys) = awaited xs ++ awaited ys := by
  rw [awaited, List.filter_append, List.map_append, ← awaited, ← awaited]

theorem awaited_cons (t : Thread) (ts : List Thread) :
    awaited (t :: ts) = (if t.awaits then [t.client] else []) ++ awaited ts := by
  rw [awaited, List.filter_cons]
  split
  · rfl
  · rfl

/-- The awaited clients of a list of threads around one of them. -/
theorem awaited_set {threads : List Thread} {i : Nat} {t : Thread} (ht : threads[i]? = some t) :
    ∃ before after, ∀ t', awaited (threads.set i t') =
      before ++ (if t'.awaits then [t'.client] else []) ++ after := by
  obtain ⟨hi, -⟩ := List.getElem?_eq_some_iff.mp ht
  refine ⟨awaited (threads.take i), awaited (threads.drop (i + 1)), fun t' => ?_⟩
  rw [List.set_eq_take_append_cons_drop, if_pos hi, awaited_append, awaited_cons, List.append_assoc]

theorem set_self {threads : List Thread} {i : Nat} {t : Thread} (ht : threads[i]? = some t) :
    threads.set i t = threads := by
  obtain ⟨hi, rfl⟩ := List.getElem?_eq_some_iff.mp ht
  exact List.set_getElem_self hi

theorem paired_set {s : Server} (h : Paired s) {i : Nat} {t' : Thread}
    (ht' : ∀ d, t'.cmdClient = some d → d = t'.client) :
    ∀ t ∈ s.threads.set i t', ∀ d, t.cmdClient = some d → d = t.client := by
  intro t ht
  rcases List.mem_or_eq_of_mem_set ht with hmem | rfl
  · exact h t hmem
  · exact ht'

/-! ### Steps -/

theorem matched_of_nil {u : Server} (hpaired : Paired u) (hnone : u.awaited = []) : Matched u :=
  ⟨hpaired, by simp [hnone], by simp [hnone]⟩

theorem Matched.of_same {s u : Server} (h : Matched s) (hpaired : Paired u)
    (hsame : u.awaited = s.awaited) (hqueue : u.cmdQueue = s.cmdQueue) : Matched u := by
  refine ⟨hpaired, ?_, ?_⟩
  · rw [hsame]
    exact h.one
  · rw [hsame, hqueue]
    exact h.first

theorem Matched.connectCmd {s : Server} (h : Matched s) {d : ClientId}
    (hc : InTurn s (.connectCmd d)) :
    ∀ c ∈ s.awaited, ∀ d' ∈ (s.cmdQueue ++ [d]).head?, d' = c := by
  intro c hmem d' hd'
  cases hqueue : s.cmdQueue with
  | nil =>
    rw [hqueue] at hd'
    cases hd'
    exact hc hqueue c hmem
  | cons d'' rest =>
    rw [hqueue] at hd'
    cases hd'
    exact h.first c hmem _ (by rw [hqueue]; rfl)

theorem Matched.create {s u : Server} (h : Matched s) {ok : Bool}
    (hstep : step s (.create ok) = some u) : Matched u := by
  obtain ⟨c, sock, hwaiter, rfl⟩ := step_create hstep
  have hawaited : s.awaited = c :: awaited s.threads := by
    rw [Server.awaited, hwaiter]
    rfl
  have hothers : awaited s.threads = [] := by
    have hone := h.one
    rw [hawaited, List.length_cons] at hone
    exact List.length_eq_zero_iff.mp (by omega)
  cases ok with
  | false => exact matched_of_nil h.paired hothers
  | true =>
    refine h.of_same (fun t ht => ?_) ?_ rfl
    · rcases List.mem_append.mp ht with hmem | hmem
      · exact h.paired t hmem
      · obtain rfl := List.mem_singleton.mp hmem
        exact fun d hd => nomatch hd
    · calc awaited (s.threads ++ [⟨c, sock, .reset, none⟩])
          = awaited s.threads ++ [c] := awaited_append _ _
        _ = s.awaited := by rw [hawaited, hothers, List.nil_append]

theorem Matched.thread {s u : Server} (h : Matched s) {i : Nat} {input : Input}
    (hstep : step s (.thread i input) = some u) : Matched u := by
  obtain ⟨t, t', client', queue', ht, htstep, rfl⟩ := step_thread hstep
  have hthread := thread_step htstep
  obtain ⟨before, after, hset⟩ := awaited_set ht
  have hs : s.awaited = s.waiter.toList.map Prod.fst ++
      (before ++ (if t.awaits then [t.client] else []) ++ after) := by
    rw [Server.awaited, ← hset t, set_self ht]
  have hu : s.waiter.toList.map Prod.fst ++ awaited (s.threads.set i t') =
      s.waiter.toList.map Prod.fst ++
        (before ++ (if t'.awaits then [t'.client] else []) ++ after) := by
    rw [hset t']
  have hown : ∀ d, t.cmdClient = some d → d = t.client := h.paired t (List.mem_of_getElem? ht)
  have hkept : t'.cmdClient = t.cmdClient → ∀ d, t'.cmdClient = some d → d = t'.client := by
    rw [hthread.client]
    rintro hcmd d hd
    exact hown d (hcmd ▸ hd)
  have hlast : t.awaits = true → t'.awaits = false →
      s.waiter.toList.map Prod.fst ++ awaited (s.threads.set i t') = [] := by
    intro hawaits hdone
    have hone := h.one
    rw [hs, hawaits] at hone
    simp only [if_true, List.length_append, List.length_singleton] at hone
    rw [hu, hdone]
    simp only [← List.length_eq_zero_iff, Bool.false_eq_true, if_false, List.length_append,
      List.length_nil]
    omega
  rcases hthread.cmd with ⟨hawaits, hcmd, rfl⟩ | ⟨hawaits, hdone, hcmd, -⟩ |
      ⟨hawaits, hdone, d, hcmd, hqueue⟩
  · refine h.of_same (paired_set h.paired (hkept hcmd)) ?_ rfl
    rw [hs, ← hthread.client, ← hawaits]
    exact hu
  · exact matched_of_nil (paired_set h.paired (hkept hcmd)) (hlast hawaits hdone)
  · -- the thread is the one that is awaited, so the head of the backlog is its client's
    refine matched_of_nil (paired_set h.paired fun d' hd' => ?_) (hlast hawaits hdone)
    obtain rfl : d = d' := Option.some.inj (hcmd.symm.trans hd')
    rw [hthread.client]
    refine h.first t.client ?_ d (by rw [hqueue]; rfl)
    simp [hs, hawaits]

theorem Matched.step {s u : Server} {e : Event} (h : Matched s) (hc : InTurn s e)
    (hstep : step s e = some u) : Matched u := by
  cases e with
  | connectMsg c =>
    obtain rfl := step_connectMsg hstep
    exact h.of_same h.paired rfl rfl
  | connectCmd d =>
    obtain rfl := step_connectCmd hstep
    exact ⟨h.paired, h.one, h.connectCmd hc⟩
  | accept sock =>
    obtain ⟨hwaiter, c, rest, hqueue, ⟨-, rfl⟩ | ⟨hsock, rfl⟩⟩ := step_accept hstep
    · exact h.of_same h.paired rfl rfl
    · obtain ⟨hnone, hfirst⟩ := hc.resolve_left hsock
      have hthreads : awaited s.threads = [] := (List.append_eq_nil_iff.mp hnone).2
      have hone : c :: awaited s.threads = [c] := by rw [hthreads]
      refine ⟨h.paired, ?_, ?_⟩
      · exact (congrArg List.length hone).le
      · intro c' hc' d hd
        obtain rfl : c' = c := List.mem_singleton.mp (hone ▸ hc')
        exact hfirst c' (by rw [hqueue]; rfl) d hd
  | create ok => exact h.create hstep
  | reopen =>
    obtain rfl := step_reopen hstep
    exact ⟨h.paired, h.one, fun _ _ _ hd => nomatch hd⟩
  | thread i input => exact h.thread hstep

theorem guards_matched : Guards step Matched Paired InTurn := ⟨Matched.step, Matched.paired⟩

/-- In a run whose steps are all in turn, every session has the command socket of its own client. -/
theorem paired_always {es : List Event} (hc : EachStep step InTurn Server.start es) :
    Always step Paired Server.start es :=
  guards_matched.always matched_start hc

/-- Two clients, one after the other; the second one is refused on its first try. -/
theorem paired_two_clients : Always step Paired Server.start
    [.connectMsg 0, .accept 5, .create true, .connectCmd 0, .thread 0 .go, .thread 0 .go,
      .thread 0 .go, .thread 0 .go, .thread 0 (.accepted 6), .connectMsg 1, .accept 7,
      .thread 0 (.served true), .thread 0 .go, .thread 0 .go, .connectMsg 2, .accept 8,
      .create true, .connectCmd 2, .thread 1 .go, .thread 1 .go, .thread 1 .go, .thread 1 .go,
      .thread 1 (.accepted 9)] :=
  paired_always (by decide)

/-- Client 1 is refused during the session of client 0 and leaves its command connection queued,
which the session of client 2 accepts. -/
theorem paired_with_refused : ∃ t, run step Server.start
    [.connectMsg 0, .accept 5, .create true, .connectCmd 0, .thread 0 .go, .thread 0 .go,
      .thread 0 .go, .thread 0 .go, .thread 0 (.accepted 6), .connectMsg 1,
        .connectCmd 1, .accept 7,
      .thread 0 (.served true), .thread 0 .go, .thread 0 .go, .thread 0 .go, .connectMsg 2,
      .accept 8, .create true, .connectCmd 2, .thread 1 .go, .thread 1 .go, .thread 1 .go,
      .thread 1 .go, .thread 1 (.accepted 9)] = some t ∧
    t.threads[1]?.map (fun t => (t.client, t.cmdClient)) = some (2, some 1) ∧ ¬Paired t := by
  refine ⟨_, rfl, rfl, fun h => ?_⟩
  have hpair := h ⟨2, 8, .serve, some 1⟩ (by decide) 1 rfl
  exact absurd hpair (by decide)

end Psp2Shell.Session
