import Psp2Shell.Dialog.Paced

/-! A dialog cannot get stuck: what is under way can always be brought to its end. -/

namespace Psp2Shell.Dialog

open CLib Cmd Cli Upload Server

/-- Nothing is under way, and all that was typed has been served. -/
structure Settled (s : Programs) : Prop where
  client : s.client = .prompt
  wire : s.wire = []
  replies : s.replies = []
  serves : List.Forall₂ Serves s.typed s.done

def Client.rank : Client → Nat
  | prompt => 0
  | waiting _ => 1

/-- How many steps are left, at most: a command, a reply, and a file that arrives in one piece. -/
def Programs.rank (s : Programs) : Nat :=
  s.client.rank + match s.server with
    | .receiving => if s.wire = [] then 0 else 3
    | .filing .. => 1
    | .ended => 0

variable {s s' : Programs}

/-! ### What has been typed -/

theorem file_typed (s : Programs) (ops : List Operation) (h : Handling) (console : Console)
    (pieces : List (List Byte)) : (s.file ops h console pieces).typed = s.typed := by
  unfold Programs.file
  split <;> rfl

theorem parse_typed {cmd : P2sCmd} {console : Console} (h : s.parse cmd console = some s') :
    s'.typed = s.typed := by
  unfold Programs.parse at h
  split at h
  · cases h
  · split at h
    · cases h
      rfl
    · cases h
      apply file_typed

theorem recv_typed {n : Nat} {console : Console} (h : s.step (.recv n console) = some s') :
    s'.typed = s.typed := by
  by_cases hroom : 0 < n ∧ n ≤ s.wire.length
  · simp only [Programs.step, if_pos hroom] at h
    split at h
    · split at h
      · split at h
        · cases h
        · split at h
          · cases h
            rfl
          · have htyped := parse_typed h
            exact htyped
      · cases h
    · cases h
      apply file_typed
    · cases h
  · simp only [Programs.step, if_neg hroom] at h
    cases h

/-! ### One step nearer -/

/-- A paced step after which less is left, and which enters no line. -/
def Nearer (s : Programs) : Prop :=
  ∃ e s', Paced s e ∧ s.step e = some s' ∧ (Stage s' ∧ s'.typed = s.typed) ∧ s'.rank < s.rank

/-- There is room for every file, and every destination opens. -/
def willing : Console := ⟨true, true, true⟩

theorem parse_returns {t : Typed} {cmd : P2sCmd} {ops : List Operation} (h : Received t cmd ops)
    (s : Programs) (console : Console) : ∃ s', s.parse cmd console = some s' := by
  cases hfile : t.file with
  | none => exact ⟨_, parse_plain h hfile console⟩
  | some file =>
    obtain ⟨u, hu⟩ := parse_upload (s := s) h hfile
    exact ⟨_, hu console⟩

/-- With nothing on the wire to the server there are at most two steps left. -/
theorem rank_le (wire : s.wire = []) : s.rank ≤ 2 := by
  have hclient : s.client.rank ≤ 1 := by cases s.client <;> simp [Client.rank]
  have hserver : (match s.server with
      | .receiving => if s.wire = [] then 0 else 3
      | .filing .. => 1
      | .ended => 0) ≤ 1 := by
    rw [if_pos wire]
    cases s.server <;> simp
  rw [Programs.rank]
  omega

theorem lower_sent {served : List Typed} {t : Typed} {call : Send} (typed : s.typed = served ++ [t])
    (serves : List.Forall₂ Serves served s.done) (sends : Sends t call)
    (client : s.client = match t.file with
      | none => .prompt
      | some file => .waiting file)
    (server : s.server = .receiving) (wire : s.wire = call.bytes) (replies : s.replies = []) :
    Nearer s := by
  obtain ⟨cmd, ops, hreceived, hstep⟩ := step_command sends server wire rfl
  obtain ⟨s', hs'⟩ := parse_returns hreceived { s with cmd, wire := [] } willing
  have h := (hstep willing).trans hs'
  obtain ⟨hstage, hwire⟩ :=
    stage_command typed serves sends client server wire replies rfl (fun _ => rfl) h
  have hrank : 3 ≤ s.rank := by
    rw [Programs.rank, server]
    simp only [wire, if_neg (bytes_ne_nil sends)]
    omega
  exact ⟨_, s', fun _ => ⟨rfl, fun _ => rfl⟩, h, ⟨hstage, recv_typed h⟩,
    (rank_le hwire).trans_lt hrank⟩

theorem lower_answered {file : LocalFile} {u : Kind} {console : Console}
    (client : s.client = .waiting file) (replies : s.replies = (u.reply console).bytes)
    (server : s.server = .receiving) (wire : s.wire = [])
    (nothing : u.opens console = true → file.content = []) (hs : Stage s) :
    Nearer s := by
  have h := step_reply client replies rfl
  have hpaced : Paced s (.reply s.replies.length) := rfl
  refine ⟨_, _, hpaced, h, ⟨stage_step hs hpaced h, rfl⟩, ?_⟩
  have hwire : s.wire ++ (if u.opens console then file.content else []) = [] := by
    rw [wire, List.nil_append]
    split
    · exact nothing ‹_›
    · rfl
  simp only [Programs.rank, server, client, hwire, if_pos wire, if_true, Client.rank]
  decide

theorem lower_opened {file : LocalFile} {u : Kind} {console : Console}
    (filing : Filing s file u console []) (client : s.client = .waiting file)
    (replies : s.replies = (u.reply console).bytes) (hs : Stage s) :
    Nearer s := by
  obtain ⟨served, t, ops, -, -, -, -, server⟩ := filing.typed
  have h := step_reply client replies rfl
  have hpaced : Paced s (.reply s.replies.length) := rfl
  refine ⟨_, _, hpaced, h, ⟨stage_step hs hpaced h, rfl⟩, ?_⟩
  simp only [Programs.rank, server, client, Client.rank]
  decide

theorem lower_transfer {file : LocalFile} {u : Kind} {console : Console} {pieces : List (List Byte)}
    (filing : Filing s file u console pieces) (client : s.client = .prompt)
    (rest : pieces.flatten ++ s.wire = file.content) (wire : s.wire ≠ []) (hs : Stage s) :
    Nearer s := by
  obtain ⟨served, t, ops, -, -, -, -, server⟩ := filing.typed
  have hroom : 0 < s.wire.length ∧ s.wire.length ≤ s.wire.length :=
    ⟨List.length_pos_iff.mpr wire, le_rfl⟩
  have hpieces : ∀ p ∈ pieces ++ [s.wire], p ≠ [] := by
    intro p hp
    rcases List.mem_append.mp hp with hp | hp
    · exact filing.nonempty p hp
    · rw [List.mem_singleton.mp hp]
      exact wire
  have hall : (pieces ++ [s.wire]).flatten.length = file.content.length := by
    rw [List.flatten_append, List.flatten_singleton, rest]
  have h : s.step (.recv s.wire.length willing) = some { s with
      server := .receiving
      wire := []
      done := s.done ++ [⟨ops, [u.reply console], some (pieces ++ [s.wire]).flatten⟩] } := by
    simp only [Programs.step, if_pos hroom, server, List.take_length, List.drop_length]
    rw [file_done filing.reads hpieces hall]
  have hpaced : Paced s (.recv s.wire.length willing) := fun hreceiving => by
    rw [server] at hreceiving
    cases hreceiving
  refine ⟨_, _, hpaced, h, ⟨stage_step hs hpaced h, rfl⟩, ?_⟩
  simp only [Programs.rank, server, client, Client.rank, if_true]
  decide

/-- What is not settled has a step that brings it nearer to its end. -/
theorem lower (hs : Stage s) (hnot : ¬Settled s) : Nearer s := by
  cases hs with
  | quiet client server wire replies serves => exact absurd ⟨client, wire, replies, serves⟩ hnot
  | sent served t call typed serves sends client server wire replies =>
    exact lower_sent typed serves sends client server wire replies
  | answered file u console client server wire replies nothing serves =>
    exact lower_answered client replies server wire nothing
      (.answered file u console client server wire replies nothing serves)
  | opened file u console filing client wire replies something =>
    exact lower_opened filing client replies
      (.opened file u console filing client wire replies something)
  | transfer file u console pieces filing client rest wire replies =>
    exact lower_transfer filing client rest wire
      (.transfer file u console pieces filing client rest wire replies)

end Psp2Shell.Dialog
