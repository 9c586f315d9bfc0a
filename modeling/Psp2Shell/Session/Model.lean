import Psp2Shell.CLib.Runs

/-! The server's sessions, `psp2shell_m/source/main.c`: `thread_wait` accepts connections on the
message port and starts a `cmd_thread` for each one that it admits, and every `cmd_thread` works on
the one `s_client` that they share. -/

namespace Psp2Shell.Session

/-- A client program.  Each connects to the message port and then to the command port, once. -/
abbrev ClientId := Nat

/-- The sockets of `s_client`. -/
structure SClient where
  msgSock : Int
  cmdSock : Int
deriving DecidableEq

/-- What a `cmd_thread` does next. -/
inductive Phase
  /-- `memset(client, 0, sizeof(s_client))`. -/
  | reset
  /-- `client->msg_sock = sock`. -/
  | setMsgSock
  /-- The first listing, into `client->fileList`. -/
  | list
  /-- `welcome()`, which prints through `client->msg`. -/
  | welcome
  /-- `client->cmd_sock = p2s_get_sock(server_sock_cmd)`. -/
  | acceptCmd
  /-- The loop of `p2s_cmd_receive` and `p2s_cmd_parse`. -/
  | serve
  /-- The close of `client->msg_sock`. -/
  | closeMsgSock
  /-- The close of `client->cmd_sock`. -/
  | closeCmdSock
  /-- `s_fileListEmpty(&client->fileList)`. -/
  | emptyList
  | ended
deriving DecidableEq

/-- A `cmd_thread`: the client and the socket that it was started with, and the client whose
connection to the command port it has accepted. -/
structure Thread where
  client : ClientId
  sock : Int
  phase : Phase
  cmdClient : Option ClientId
deriving DecidableEq

/-- A thread between its start and its end. -/
def Thread.live (t : Thread) : Bool := t.phase ≠ .ended

/-- A thread that has yet to accept its command connection. -/
def Thread.awaits (t : Thread) : Bool :=
  t.phase = .reset || t.phase = .setMsgSock || t.phase = .list || t.phase = .welcome ||
    t.phase = .acceptCmd

/-- What a step of a thread depends on: what `accept` returns on the command port, and whether the
loop of commands ends. -/
inductive Input
  | go
  | accepted (sock : Int)
  | served (ends : Bool)

/-- A step of a `cmd_thread` on the shared client and the backlog of the command port. -/
def Thread.step (t : Thread) (client : SClient) (cmdQueue : List ClientId) :
    Input → Option (Thread × SClient × List ClientId)
  | .go =>
    match t.phase with
    | .reset => some ({ t with phase := .setMsgSock }, ⟨0, 0⟩, cmdQueue)
    | .setMsgSock => some ({ t with phase := .list }, { client with msgSock := t.sock }, cmdQueue)
    | .list => some ({ t with phase := .welcome }, client, cmdQueue)
    | .welcome => some ({ t with phase := .acceptCmd }, client, cmdQueue)
    | .closeMsgSock =>
      some ({ t with phase := .closeCmdSock },
        if 0 ≤ client.msgSock then { client with msgSock := -1 } else client, cmdQueue)
    | .closeCmdSock =>
      some ({ t with phase := .emptyList },
        if 0 ≤ client.cmdSock then { client with cmdSock := -1 } else client, cmdQueue)
    | .emptyList => some ({ t with phase := .ended }, client, cmdQueue)
    | _ => none
  | .accepted sock =>
    if t.phase ≠ .acceptCmd then none
    else if sock < 0 then some ({ t with phase := .serve },
      { client with cmdSock := sock }, cmdQueue)
    else
      match cmdQueue with
      | [] => none
      | d :: rest =>
        some ({ t with phase := .serve, cmdClient := some d },
          { client with cmdSock := sock }, rest)
  | .served ends =>
    if t.phase ≠ .serve then none
    else some (if ends then { t with phase := .closeMsgSock } else t, client, cmdQueue)

/-- The server.  `msgQueue` and `cmdQueue` are the backlogs of its two ports; `waiter` is a
connection that `thread_wait` has admitted and not yet started a thread for.  `msgSeen` and
`cmdSeen` are the clients that have connected to each port.  `overwritten` says that a thread
has worked on the shared client while another one was live, and `admittedLive` that a connection
has been admitted then. -/
structure Server where
  client : SClient
  msgQueue : List ClientId
  cmdQueue : List ClientId
  waiter : Option (ClientId × Int)
  threads : List Thread
  msgSeen : List ClientId
  cmdSeen : List ClientId
  overwritten : Bool
  admittedLive : Bool

/-- The server when `thread_wait` starts to accept. -/
def Server.start : Server := ⟨⟨-1, -1⟩, [], [], none, [], [], [], false, false⟩

/-- The number of threads between their start and their end. -/
def Server.live (s : Server) : Nat := s.threads.countP Thread.live

inductive Event
  /-- A client connects to the message port. -/
  | connectMsg (c : ClientId)
  /-- A client connects to the command port. -/
  | connectCmd (c : ClientId)
  /-- `thread_wait` accepts a connection on the message port and admits or refuses it. -/
  | accept (sock : Int)
  /-- `thread_wait` starts a thread for the connection it has admitted, or fails to create one. -/
  | create (ok : Bool)
  /-- `thread_wait` finds the network down and opens both ports again. -/
  | reopen
  /-- A step of thread number `i`. -/
  | thread (i : Nat) (input : Input)

/-- One event, and `none` when it cannot happen. -/
def step (s : Server) : Event → Option Server
  | .connectMsg c =>
    if c ∈ s.msgSeen then none
    else some { s with msgQueue := s.msgQueue ++ [c], msgSeen := c :: s.msgSeen }
  | .connectCmd c =>
    if c ∈ s.msgSeen ∧ c ∉ s.cmdSeen then
      some { s with cmdQueue := s.cmdQueue ++ [c], cmdSeen := c :: s.cmdSeen }
    else none
  | .accept sock =>
    match s.waiter, s.msgQueue with
    | none, c :: rest =>
      if sock < 0 then none
      else if 0 < s.client.cmdSock then some { s with msgQueue := rest }
      else
        some { s with
          msgQueue := rest
          waiter := some (c, sock)
          admittedLive := s.admittedLive || 0 < s.live }
    | _, _ => none
  | .create ok =>
    match s.waiter with
    | none => none
    | some (c, sock) =>
      some { s with
        waiter := none
        threads := if ok then s.threads ++ [⟨c, sock, .reset, none⟩] else s.threads }
  | .reopen => if s.waiter.isSome then none else some { s with msgQueue := [], cmdQueue := [] }
  | .thread i input =>
    match s.threads[i]? with
    | none => none
    | some t =>
      match t.step s.client s.cmdQueue input with
      | none => none
      | some (t, client, cmdQueue) =>
        some { s with
          client := client
          cmdQueue := cmdQueue
          threads := s.threads.set i t
          overwritten := s.overwritten || 1 < s.live }

/-! ### What a step can do -/

/-- A step of a thread: the thread is live and stays with its connection, and it leaves the backlog
of the command port alone, or it accepts the head of that backlog, or fails to accept. -/
structure ThreadStep (t : Thread) (queue : List ClientId) (t' : Thread) (queue' : List ClientId) :
    Prop where
  live : t.live = true
  client : t'.client = t.client
  cmd : (t'.awaits = t.awaits ∧ t'.cmdClient = t.cmdClient ∧ queue' = queue) ∨
    (t.awaits = true ∧ t'.awaits = false ∧ t'.cmdClient = t.cmdClient ∧ queue' = queue) ∨
    (t.awaits = true ∧ t'.awaits = false ∧ ∃ d, t'.cmdClient = some d ∧ queue = d :: queue')

theorem thread_step {t t' : Thread} {client client' : SClient} {queue queue' : List ClientId}
    {input : Input} (h : t.step client queue input = some (t', client', queue')) :
    ThreadStep t queue t' queue' := by
  obtain ⟨c, sock, phase, cmdClient⟩ := t
  cases input with
  | go => cases phase <;> cases h <;> exact ⟨rfl, rfl, Or.inl ⟨rfl, rfl, rfl⟩⟩
  | accepted sock' =>
    cases phase
    case acceptCmd =>
      simp only [Thread.step, ne_eq, not_true_eq_false, if_false] at h
      split at h
      · cases h
        exact ⟨rfl, rfl, Or.inr (Or.inl ⟨rfl, rfl, rfl, rfl⟩)⟩
      · split at h
        · cases h
        · rename_i d rest
          cases h
          exact ⟨rfl, rfl, Or.inr (Or.inr ⟨rfl, rfl, d, rfl, rfl⟩)⟩
    all_goals cases h
  | served ends =>
    cases phase
    case serve => cases ends <;> cases h <;> exact ⟨rfl, rfl, Or.inl ⟨rfl, rfl, rfl⟩⟩
    all_goals cases h

theorem step_connectMsg {s u : Server} {c : ClientId} (h : step s (.connectMsg c) = some u) :
    u = { s with msgQueue := s.msgQueue ++ [c], msgSeen := c :: s.msgSeen } := by
  simp only [step] at h
  split at h
  · cases h
  · cases h
    rfl

theorem step_connectCmd {s u : Server} {c : ClientId} (h : step s (.connectCmd c) = some u) :
    u = { s with cmdQueue := s.cmdQueue ++ [c], cmdSeen := c :: s.cmdSeen } := by
  simp only [step] at h
  split at h
  · cases h
    rfl
  · cases h

theorem step_reopen {s u : Server} (h : step s .reopen = some u) :
    u = { s with msgQueue := [], cmdQueue := [] } := by
  simp only [step] at h
  split at h
  · cases h
  · cases h
    rfl

theorem step_thread {s u : Server} {i : Nat} {input : Input}
    (h : step s (.thread i input) = some u) : ∃ t t' client' queue',
      s.threads[i]? = some t ∧ t.step s.client s.cmdQueue input = some (t', client', queue') ∧
      u = { s with
        client := client'
        cmdQueue := queue'
        threads := s.threads.set i t'
        overwritten := s.overwritten || 1 < s.live } := by
  simp only [step] at h
  split at h
  · cases h
  · rename_i t ht
    split at h
    · cases h
    · rename_i t' client' queue' hstep
      cases h
      exact ⟨t, t', client', queue', ht, hstep, rfl⟩

theorem step_accept {s u : Server} {sock : Int} (h : step s (.accept sock) = some u) :
    s.waiter = none ∧ ∃ c rest, s.msgQueue = c :: rest ∧
      ((0 < s.client.cmdSock ∧ u = { s with msgQueue := rest }) ∨
        (¬0 < s.client.cmdSock ∧ u = { s with
          msgQueue := rest
          waiter := some (c, sock)
          admittedLive := s.admittedLive || 0 < s.live })) := by
  simp only [step] at h
  split at h
  · rename_i c rest hwaiter hqueue
    refine ⟨hwaiter, c, rest, hqueue, ?_⟩
    split at h
    · cases h
    · split at h
      · rename_i hsock
        cases h
        exact Or.inl ⟨hsock, rfl⟩
      · rename_i hsock
        cases h
        exact Or.inr ⟨hsock, rfl⟩
  · cases h

theorem step_create {s u : Server} {ok : Bool} (h : step s (.create ok) = some u) :
    ∃ c sock, s.waiter = some (c, sock) ∧ u = { s with
      waiter := none
      threads := if ok then s.threads ++ [⟨c, sock, .reset, none⟩] else s.threads } := by
  simp only [step] at h
  split at h
  · cases h
  · rename_i c sock hwaiter
    cases h
    exact ⟨c, sock, hwaiter, rfl⟩

end Psp2Shell.Session
