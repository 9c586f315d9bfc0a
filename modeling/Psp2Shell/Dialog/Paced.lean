import Psp2Shell.Dialog.Serve

/-! Dialogs in which each command has been served before the next one is entered: the
server does what was typed, command by command, and receives the files of the uploads, in
whatever pieces these arrive. -/

namespace Psp2Shell.Dialog

open CLib Cmd Cli Upload Server

/-- What the server has done for a call: the operations that it names, and for an upload a file with
the content of the local one, or the reply `CMD_NOK` and no file. -/
structure Serves (t : Typed) (d : Done) : Prop where
  performs : Performs t d.ops
  file : (t.file = none ∧ d.replies = [] ∧ d.file = none) ∨
    ∃ file, t.file = some file ∧
      (d.replies = [.send CmdType.ok.code] ∧ d.file = some file.content ∨
        d.replies = [.send CmdType.nok.code] ∧ d.file = none)

/-- The words and the files of the line are such that the connection can carry them. -/
def Enterable (host : Host) (line : List Byte) : Prop :=
  ∀ c argv, processLine (some line) = .called c argv →
    (∀ w ∈ argv.tail, Plain w) ∧ ∀ path file, host.fopen path = some file → Fits file

/-- A line is entered when nothing is under way, a command and a reply arrive whole, and there is a
buffer for a file that has been opened. -/
def Paced (s : Programs) : Event → Prop
  | .enter host line => s.server = .receiving ∧ s.wire = [] ∧ Enterable host line
  | .reply n => n = s.replies.length
  | .recv n console =>
    s.server = .receiving → n = s.wire.length ∧ (console.opened = true → console.malloc = true)

/-! ### The handlers of uploads -/

section

variable {u : Kind} {console : Console} {ops : List Operation}
  {pieces : List (List Byte)} {size : Nat}

theorem arrives_pieces (hpieces : ∀ p ∈ pieces, p ≠ []) :
    Arrives pieces.flatten (pieces.map Recv.bytes) := ⟨pieces, rfl, hpieces, rfl⟩

theorem handle_receives (hopen : u.opens console = true) :
    (u.handle console size).receives = some size := by
  rw [Kind.handle_eq, if_pos hopen]

theorem handle_replies : (u.handle console size).replies = [u.reply console] := by
  rw [Kind.handle_eq]

/-- A destination that does not open gets no file. -/
theorem file_refused (hopen : u.opens console = false) (s : Programs) :
    s.file ops (u.handle console size) console [] =
      { s with server := .receiving, done := s.done ++ [⟨ops, [u.reply console], none⟩] } := by
  have hnot : ¬(u.opens console = true ∧ console.malloc = true) := by simp [hopen]
  have hreceives : (u.handle console size).receives = none := by
    rw [Kind.handle_eq, if_neg (by simp [hopen])]
  rw [Programs.file, run_of_not_reads size hnot, hreceives, handle_replies]
  rfl

theorem file_waits (hreads : u.opens console = true ∧ console.malloc = true)
    (hpieces : ∀ p ∈ pieces, p ≠ []) (hlt : pieces.flatten.length < size) (s : Programs) :
    s.file ops (u.handle console size) console pieces =
      { s with server := .filing ops (u.handle console size) console pieces } := by
  rw [Programs.file, run_of_reads size hreads, handle_receives hreads.1]
  cases hrun : recvFileLoop ((some size).getD 0 + 1) size p2sSizeData 0 (Buffer.zero _)
    (pieces.map Recv.bytes) with
  | none => rfl
  | some r =>
    obtain ⟨hle, -⟩ := recvFileLoop_exact (arrives_pieces hpieces) (by decide) le_rfl hrun
    omega

theorem file_done (hreads : u.opens console = true ∧ console.malloc = true)
    (hpieces : ∀ p ∈ pieces, p ≠ []) (hlen : pieces.flatten.length = size) (s : Programs) :
    s.file ops (u.handle console size) console pieces =
      { s with
        server := .receiving
        done := s.done ++ [⟨ops, [u.reply console], some pieces.flatten⟩] } := by
  have harr := arrives_pieces hpieces
  have hbuf : 0 < p2sSizeData := by decide
  obtain ⟨r, hr⟩ :=
    recvFileLoop_returns harr hbuf le_rfl hlen.ge (Nat.lt_succ_self size) 0 (Buffer.zero _)
  obtain ⟨-, -, hwritten, hrest⟩ := recvFileLoop_exact harr (by decide) le_rfl hr
  rw [List.take_of_length_le hlen.le] at hwritten
  rw [List.drop_of_length_le hlen.le] at hrest
  have hnone : r.rest = [] := by
    obtain ⟨-, hnil⟩ | ⟨b, bs, rest, more, hcons, -⟩ := hrest.cases
    · exact hnil
    · cases hcons
  rw [Programs.file, run_of_reads size hreads, handle_receives hreads.1, handle_replies,
    Option.getD_some, hr]
  simp only [hnone, hwritten]
  rfl

theorem waitResult_reply : p2sCmdWaitResult (.bytes (u.reply console).bytes) =
    some (if u.opens console then 0 else -1) := by
  cases hopen : u.opens console with
  | true =>
    have hok : u.reply console = .send CmdType.ok.code := by rw [Kind.reply, if_pos hopen]
    rw [hok]
    decide +kernel
  | false =>
    have hnok : u.reply console = .send CmdType.nok.code := by
      rw [Kind.reply, if_neg (by simp [hopen])]
    rw [hnok]
    decide +kernel

theorem reply_length : (u.reply console).bytes.length = 4 := by
  obtain ⟨a, b, h⟩ := (isReply u console).bytes
  rw [h]
  rfl

end

/-! ### Stages -/

/-- An upload that is under way: the handler of the last command receives its file. -/
structure Filing (s : Programs) (file : LocalFile) (u : Kind) (console : Console)
    (pieces : List (List Byte)) : Prop where
  typed : ∃ served t ops, s.typed = served ++ [t] ∧ List.Forall₂ Serves served s.done ∧
    t.file = some file ∧ Performs t ops ∧
    s.server = .filing ops (u.handle console file.content.length) console pieces
  reads : u.opens console = true ∧ console.malloc = true
  nonempty : ∀ p ∈ pieces, p ≠ []

/-- Where a command is on its way. -/
inductive Stage (s : Programs) : Prop
  | quiet (client : s.client = .prompt) (server : s.server = .receiving ∨ s.server = .ended)
      (wire : s.wire = []) (replies : s.replies = []) (serves : List.Forall₂ Serves s.typed s.done)
  | sent (served : List Typed) (t : Typed) (call : Send) (typed : s.typed = served ++ [t])
      (serves : List.Forall₂ Serves served s.done) (sends : Sends t call)
      (client : s.client = match t.file with
        | none => .prompt
        | some file => .waiting file)
      (server : s.server = .receiving) (wire : s.wire = call.bytes) (replies : s.replies = [])
  | answered (file : LocalFile) (u : Kind) (console : Console) (client : s.client = .waiting file)
      (server : s.server = .receiving) (wire : s.wire = [])
      (replies : s.replies = (u.reply console).bytes)
      (nothing : u.opens console = true → file.content = [])
      (serves : List.Forall₂ Serves s.typed s.done)
  | opened (file : LocalFile) (u : Kind) (console : Console) (filing : Filing s file u console [])
      (client : s.client = .waiting file) (wire : s.wire = [])
      (replies : s.replies = (u.reply console).bytes)
      (something : file.content ≠ [])
  | transfer (file : LocalFile) (u : Kind) (console : Console) (pieces : List (List Byte))
      (filing : Filing s file u console pieces) (client : s.client = .prompt)
      (rest : pieces.flatten ++ s.wire = file.content) (wire : s.wire ≠ [])
      (replies : s.replies = [])

section

variable {s s' : Programs}

theorem stage_enter {host : Host} {line : List Byte} (client : s.client = .prompt)
    (server : s.server = .receiving) (wire : s.wire = []) (replies : s.replies = [])
    (serves : List.Forall₂ Serves s.typed s.done) (henter : Enterable host line)
    (h : s.enter host line = some s') : Stage s' := by
  unfold Programs.enter at h
  split at h
  · rename_i c argv hline
    obtain ⟨hplain, hfits⟩ := henter c argv hline
    split at h
    · cases h
    · split at h
      · cases h
      · cases h
        exact .quiet client (Or.inl server) wire replies serves
      · rename_i call hcall
        cases h
        have hsends : Sends ⟨c, host, argv, none⟩ call := ⟨hcall, hplain, nofun⟩
        refine .sent _ _ call rfl serves hsends client server ?_ replies
        simp only [wire, List.nil_append]
      · rename_i call file hcall
        cases h
        have hsends : Sends ⟨c, host, argv, some file⟩ call := by
          obtain ⟨path, hopen⟩ := upload_opens hcall
          refine ⟨hcall, hplain, fun file' hfile => ?_⟩
          cases hfile
          exact hfits path file hopen
        refine .sent _ _ call rfl serves hsends rfl server ?_ replies
        simp only [wire, List.nil_append]
  · cases h
    exact .quiet client (Or.inl server) wire replies serves

/-- The reply of an upload arrives: the file follows when the destination has been opened. -/
theorem step_reply {file : LocalFile} {u : Kind} {console : Console} {n : Nat}
    (client : s.client = .waiting file) (replies : s.replies = (u.reply console).bytes)
    (hn : n = s.replies.length) :
    s.step (.reply n) = some { s with
      client := .prompt
      wire := s.wire ++ if u.opens console then file.content else []
      replies := [] } := by
  have hlen : s.replies.length = 4 := by rw [replies, reply_length]
  have hroom : 0 < n ∧ n ≤ p2sSizeCmd ∧ n ≤ s.replies.length :=
    ⟨by omega, by rw [hn, hlen]; decide, hn.le⟩
  have htake : s.replies.take n = (u.reply console).bytes := by
    rw [hn, List.take_length, replies]
  have hdrop : s.replies.drop n = [] := by rw [hn, List.drop_length]
  simp only [Programs.step, client, if_pos hroom, htake, hdrop, waitResult_reply, sendFile_flatten]
  cases u.opens console <;> rfl

theorem opened_of_opens {u : Kind} {console : Console} (h : u.opens console = true) :
    console.opened = true := by
  cases u with
  | put | load => exact h
  | reload => exact (Bool.and_eq_true_iff.mp h).2

theorem parse_plain {t : Typed} {cmd : P2sCmd} {ops : List Operation} (h : Received t cmd ops)
    (hfile : t.file = none) (console : Console) :
    s.parse cmd console = some { s with
      server := if ops = [.cmdReboot] then .ended else .receiving
      done := s.done ++ [⟨ops, [], none⟩] } := by
  simp only [Programs.parse, h.parse, h.plain hfile console]

theorem parse_upload {t : Typed} {cmd : P2sCmd} {ops : List Operation} {file : LocalFile}
    (h : Received t cmd ops) (hfile : t.file = some file) :
    ∃ u : Kind, ∀ console, s.parse cmd console =
      some (({ s with replies := s.replies ++ (u.reply console).bytes } : Programs).file ops
        (u.handle console file.content.length) console []) := by
  obtain ⟨u, hu⟩ := h.upload file hfile
  refine ⟨u, fun console => ?_⟩
  have hreplies : replyBytes (u.handle console file.content.length).replies =
      (u.reply console).bytes := by
    rw [handle_replies, replyBytes, List.map_singleton, List.flatten_singleton]
  simp only [Programs.parse, h.parse, hu console, hreplies]

theorem serves_plain {t : Typed} {ops : List Operation} (h : Performs t ops)
    (hfile : t.file = none) :
    Serves t ⟨ops, [], none⟩ := ⟨h, Or.inl ⟨hfile, rfl, rfl⟩⟩

theorem serves_file {t : Typed} {ops : List Operation} {file : LocalFile} {u : Kind}
    {console : Console} (h : Performs t ops) (hfile : t.file = some file)
    (hopen : u.opens console = true) :
    Serves t ⟨ops, [u.reply console], some file.content⟩ := by
  refine ⟨h, Or.inr ⟨file, hfile, Or.inl ⟨?_, rfl⟩⟩⟩
  rw [Kind.reply, if_pos hopen]

theorem serves_refused {t : Typed} {ops : List Operation} {file : LocalFile} {u : Kind}
    {console : Console} (h : Performs t ops) (hfile : t.file = some file)
    (hopen : u.opens console = false) :
    Serves t ⟨ops, [u.reply console], none⟩ := by
  refine ⟨h, Or.inr ⟨file, hfile, Or.inr ⟨?_, rfl⟩⟩⟩
  rw [Kind.reply, if_neg (by simp [hopen])]

theorem serves_append {served : List Typed} {done : List Done} {t : Typed} {d : Done}
    (h : List.Forall₂ Serves served done) (hd : Serves t d) :
    List.Forall₂ Serves (served ++ [t]) (done ++ [d]) :=
  List.rel_append h (List.Forall₂.cons hd List.Forall₂.nil)

/-- A command arrives whole: `p2s_cmd_parse` gets what has been sent. -/
theorem step_command {t : Typed} {call : Send} {n : Nat} (sends : Sends t call)
    (server : s.server = .receiving) (wire : s.wire = call.bytes) (hn : n = s.wire.length) :
    ∃ cmd ops, Received t cmd ops ∧ ∀ console,
      s.step (.recv n console) = ({ s with cmd, wire := [] } : Programs).parse cmd console := by
  have hlen := bytes_length_lt call
  have hpos := List.length_pos_iff.mpr (bytes_ne_nil sends)
  rw [wire] at hn
  obtain ⟨d, ops, hreceive, hret, hreceived⟩ := receive_sent sends s.cmd
  have htake : s.wire.take n = call.bytes := by rw [hn, wire, List.take_length]
  have hdrop : s.wire.drop n = [] := by rw [hn, wire, List.drop_length]
  have hroom : 0 < n ∧ n ≤ s.wire.length := ⟨by omega, by rw [wire, hn]⟩
  have hsize : n ≤ p2sSizeCmd := by omega
  refine ⟨d.cmd, ops, hreceived, fun console => ?_⟩
  simp only [Programs.step, if_pos hroom, htake, hdrop, server, if_pos hsize, hreceive, hret, ne_eq,
    not_true_eq_false, if_false]

/-- The server performs a command that arrives, and begins to receive its file. -/
theorem stage_command {served : List Typed} {t : Typed} {call : Send} {n : Nat} {console : Console}
    (typed : s.typed = served ++ [t]) (serves : List.Forall₂ Serves served s.done)
    (sends : Sends t call)
    (client : s.client = match t.file with
      | none => .prompt
      | some file => .waiting file)
    (server : s.server = .receiving) (wire : s.wire = call.bytes) (replies : s.replies = [])
    (hn : n = s.wire.length) (hbuffer : console.opened = true → console.malloc = true)
    (h : s.step (.recv n console) = some s') : Stage s' ∧ s'.wire = [] := by
  obtain ⟨cmd, ops, hreceived, hstep⟩ := step_command sends server wire hn
  rw [hstep] at h
  cases hfile : t.file with
  | none =>
    rw [parse_plain hreceived hfile] at h
    rw [hfile] at client
    cases h
    refine ⟨.quiet client ?_ rfl replies ?_, rfl⟩
    · dsimp only
      split
      · exact Or.inr rfl
      · exact Or.inl rfl
    · dsimp only
      rw [typed]
      exact serves_append serves (serves_plain hreceived.performs hfile)
  | some file =>
    obtain ⟨u, hu⟩ := parse_upload hreceived hfile
    rw [hu] at h
    rw [hfile] at client
    cases hopen : u.opens console with
    | false =>
      rw [file_refused hopen] at h
      cases h
      refine ⟨.answered file u console client rfl rfl ?_ ?_ ?_, rfl⟩
      · dsimp only
        rw [replies, List.nil_append]
      · rw [hopen]
        nofun
      · dsimp only
        rw [typed]
        exact serves_append serves (serves_refused hreceived.performs hfile hopen)
    | true =>
      have hreads := And.intro hopen (hbuffer (opened_of_opens hopen))
      have hnone : ∀ p ∈ ([] : List (List Byte)), p ≠ [] := by simp
      by_cases hempty : file.content = []
      · have hzero : ([] : List (List Byte)).flatten.length = file.content.length := by
          rw [hempty]; rfl
        rw [file_done hreads hnone hzero] at h
        cases h
        refine ⟨.answered file u console client rfl rfl ?_ (fun _ => hempty) ?_, rfl⟩
        · dsimp only
          rw [replies, List.nil_append]
        · dsimp only
          rw [typed, List.flatten_nil, ← hempty]
          exact serves_append serves (serves_file hreceived.performs hfile hopen)
      · have hmore : ([] : List (List Byte)).flatten.length < file.content.length :=
          List.length_pos_iff.mpr hempty
        rw [file_waits hreads hnone hmore] at h
        cases h
        refine ⟨.opened file u console ⟨⟨served, t, ops, typed, serves, hfile,
          hreceived.performs, rfl⟩, hreads, hnone⟩ client rfl ?_ hempty, rfl⟩
        dsimp only
        rw [replies, List.nil_append]

/-- A piece of a file arrives. -/
theorem stage_piece {file : LocalFile} {u : Kind} {console c : Console} {pieces : List (List Byte)}
    {n : Nat} (filing : Filing s file u console pieces) (client : s.client = .prompt)
    (rest : pieces.flatten ++ s.wire = file.content) (replies : s.replies = [])
    (h : s.step (.recv n c) = some s') : Stage s' := by
  obtain ⟨⟨served, t, ops, typed, serves, hfile, performs, server⟩, reads, nonempty⟩ := filing
  by_cases hroom : 0 < n ∧ n ≤ s.wire.length
  · simp only [Programs.step, if_pos hroom, server] at h
    have hpiece : s.wire.take n ≠ [] := by
      apply List.ne_nil_of_length_pos
      rw [List.length_take]
      omega
    have hpieces : ∀ p ∈ pieces ++ [s.wire.take n], p ≠ [] := by
      intro p hp
      rcases List.mem_append.mp hp with hp | hp
      · exact nonempty p hp
      · rw [List.mem_singleton.mp hp]
        exact hpiece
    have hrest : (pieces ++ [s.wire.take n]).flatten ++ s.wire.drop n = file.content := by
      rw [List.flatten_append, List.flatten_singleton, List.append_assoc,
        List.take_append_drop, rest]
    by_cases hlast : s.wire.drop n = []
    · rw [hlast, List.append_nil] at hrest
      rw [file_done reads hpieces (congrArg List.length hrest)] at h
      cases h
      refine .quiet client (Or.inl rfl) hlast replies ?_
      dsimp only
      rw [typed, hrest]
      exact serves_append serves (serves_file performs hfile reads.1)
    · have hlt : (pieces ++ [s.wire.take n]).flatten.length < file.content.length := by
        rw [← hrest, List.length_append]
        have := List.length_pos_iff.mpr hlast
        omega
      rw [file_waits reads hpieces hlt] at h
      cases h
      exact .transfer file u console _ ⟨⟨served, t, ops, typed, serves, hfile, performs,
        rfl⟩, reads, hpieces⟩ client hrest hlast replies
  · simp only [Programs.step, if_neg hroom] at h
    cases h

/-- Nothing arrives from a connection that carries nothing. -/
theorem recv_none (wire : s.wire = []) (n : Nat) (console : Console) :
    s.step (.recv n console) = none := by
  have hroom : ¬(0 < n ∧ n ≤ s.wire.length) := by
    rw [wire]
    simp only [List.length_nil]
    omega
  simp only [Programs.step, if_neg hroom]

theorem reply_none (replies : s.replies = []) (n : Nat) : s.step (.reply n) = none := by
  have hroom : ¬(0 < n ∧ n ≤ p2sSizeCmd ∧ n ≤ s.replies.length) := by
    rw [replies]
    simp only [List.length_nil]
    omega
  simp only [Programs.step, if_neg hroom]
  cases s.client <;> rfl

/-- A line that is entered comes upon nothing that is under way. -/
theorem enter_quiet {host : Host} {line : List Byte} (hs : Stage s) (wire : s.wire = [])
    (h : s.step (.enter host line) = some s') :
    s.client = .prompt ∧ s.replies = [] ∧ List.Forall₂ Serves s.typed s.done := by
  cases hs with
  | quiet client _ _ replies serves => exact ⟨client, replies, serves⟩
  | sent served t call typed serves sends client server wire' replies =>
    exact absurd (wire'.symm.trans wire) (bytes_ne_nil sends)
  | answered file u console client | opened file u console filing client =>
    simp only [Programs.step, client] at h
    cases h
  | transfer file u console pieces filing client rest wire' replies => exact absurd wire wire'

theorem stage_step {e : Event} (hs : Stage s) (hpaced : Paced s e) (h : s.step e = some s') :
    Stage s' := by
  cases e with
  | enter host line =>
    obtain ⟨server, wire, henter⟩ := hpaced
    obtain ⟨client, replies, serves⟩ := enter_quiet hs wire h
    simp only [Programs.step, client] at h
    exact stage_enter client server wire replies serves henter h
  | reply n =>
    cases hs with
    | quiet client server wire replies serves =>
      rw [reply_none replies] at h
      cases h
    | sent served t call typed serves sends client server wire replies =>
      rw [reply_none replies] at h
      cases h
    | answered file u console client server wire replies nothing serves =>
      rw [step_reply client replies hpaced] at h
      cases h
      refine .quiet rfl (Or.inl server) ?_ rfl serves
      cases hopen : u.opens console with
      | true => simp [wire, nothing hopen]
      | false => simp [wire]
    | opened file u console filing client wire replies something =>
      rw [step_reply client replies hpaced] at h
      cases h
      have hwire : s.wire ++ (if u.opens console then file.content else []) = file.content := by
        rw [wire, if_pos filing.reads.1, List.nil_append]
      exact .transfer file u console [] ⟨filing.typed, filing.reads, filing.nonempty⟩ rfl hwire
        (by rwa [hwire]) rfl
    | transfer file u console pieces filing client rest wire replies =>
      rw [reply_none replies] at h
      cases h
  | recv n console =>
    cases hs with
    | quiet client server wire replies serves =>
      rw [recv_none wire] at h
      cases h
    | sent served t call typed serves sends client server wire replies =>
      obtain ⟨hn, hbuffer⟩ := hpaced server
      exact (stage_command typed serves sends client server wire replies hn hbuffer h).1
    | answered file u console' client server wire replies nothing serves =>
      rw [recv_none wire] at h
      cases h
    | opened file u console' filing client wire replies something =>
      rw [recv_none wire] at h
      cases h
    | transfer file u console' pieces filing client rest wire replies =>
      exact stage_piece filing client rest replies h

end

/-! ### Whole dialogs -/

end Psp2Shell.Dialog
