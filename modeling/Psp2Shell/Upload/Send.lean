import Psp2Shell.Upload.Handshake

/-! The client's `send_file` over the results of its `send` calls, each of which may accept
less than it is offered. -/

namespace Psp2Shell.Upload

open CLib Cmd

/-- What a `send` comes to: it fails, or accepts the first `n` bytes that it is offered. -/
inductive SendResult
  | failed
  | accepted (n : Nat)

/-- A run of `send_file`: the progress that it returns, the bytes that the socket has accepted, and
whether a `send` has failed. -/
structure SendRun where
  progress : Nat
  accepted : List Byte
  failed : Bool

/-- The loop of `send_file` over what `fread` gives, where call number `i` of
`send` is the next one. -/
def sendLoop (results : Nat → SendResult) : List (List Byte) → Nat → SendRun
  | [], _ => ⟨0, [], false⟩
  | block :: blocks, i =>
    match results i with
    | .failed => ⟨0, [], true⟩
    | .accepted n =>
      let r := sendLoop results blocks (i + 1)
      { r with progress := block.length + r.progress, accepted := block.take n ++ r.accepted }

/-- `send_file`, which reads blocks of `P2S_SIZE_DATA` bytes. -/
def sendFileRun (content : List Byte) (results : Nat → SendResult) : SendRun :=
  sendLoop results (sendFile content) 0

/-- Every `send` that accepts bytes of its block, up to the first that
fails, meets the condition. -/
def EachSend (cond : List Byte → Nat → Prop) (results : Nat → SendResult) :
    List (List Byte) → Nat → Prop
  | [], _ => True
  | block :: blocks, i =>
    match results i with
    | .failed => True
    | .accepted n => cond block n ∧ EachSend cond results blocks (i + 1)

/-- A `send` accepts some of the bytes that it is offered. -/
abbrev Possible (content : List Byte) (results : Nat → SendResult) : Prop :=
  EachSend (fun block n => 0 < n ∧ n ≤ block.length) results (sendFile content) 0

/-- A `send` accepts all the bytes that it is offered. -/
abbrev Whole (content : List Byte) (results : Nat → SendResult) : Prop :=
  EachSend (fun block n => n = block.length) results (sendFile content) 0

/-- The bytes that the socket has accepted are the first bytes of the file, the progress is their
number, and when no `send` has failed they are the file. -/
structure SendsExactly (content : List Byte) (r : SendRun) : Prop where
  isPrefix : r.accepted <+: content
  counted : r.progress = r.accepted.length
  complete : r.failed = false → r.accepted = content

section

variable {results : Nat → SendResult} {block : List Byte} {blocks : List (List Byte)} {i n : Nat}

theorem sendLoop_failed (h : results i = .failed) :
    sendLoop results (block :: blocks) i = ⟨0, [], true⟩ := by
  simp only [sendLoop, h]

theorem sendLoop_accepted (h : results i = .accepted n) :
    sendLoop results (block :: blocks) i =
      ⟨block.length + (sendLoop results blocks (i + 1)).progress,
        block.take n ++ (sendLoop results blocks (i + 1)).accepted,
        (sendLoop results blocks (i + 1)).failed⟩ := by
  simp only [sendLoop, h]

theorem eachSend_failed {cond : List Byte → Nat → Prop} (h : results i = .failed) :
    EachSend cond results (block :: blocks) i := by
  simp only [EachSend, h]

theorem eachSend_accepted {cond : List Byte → Nat → Prop} (h : results i = .accepted n) :
    EachSend cond results (block :: blocks) i ↔ cond block n ∧
      EachSend cond results blocks (i + 1) := by
  simp only [EachSend, h]

end

variable {results : Nat → SendResult}

theorem sendLoop_whole {blocks : List (List Byte)} {i : Nat}
    (h : EachSend (fun block n => n = block.length) results blocks i) :
    SendsExactly blocks.flatten (sendLoop results blocks i) := by
  induction blocks generalizing i with
  | nil => exact ⟨List.nil_prefix, rfl, fun _ => rfl⟩
  | cons block blocks ih =>
    cases hres : results i with
    | failed =>
      rw [sendLoop_failed hres]
      exact ⟨List.nil_prefix, rfl, fun hok => by cases hok⟩
    | accepted n =>
      obtain ⟨rfl, hrest⟩ := (eachSend_accepted hres).mp h
      obtain ⟨hstart, hcounted, hcomplete⟩ := ih hrest
      rw [sendLoop_accepted hres, List.take_length, List.flatten_cons]
      refine ⟨(List.prefix_append_right_inj block).mpr hstart, ?_, fun hok => ?_⟩
      · rw [List.length_append, hcounted]
      · exact congrArg (block ++ ·) (hcomplete hok)

/-- A block that is accepted in part makes the progress exceed the bytes accepted. -/
theorem sendLoop_counted {blocks : List (List Byte)} {i : Nat}
    (h : EachSend (fun block n => 0 < n ∧ n ≤ block.length) results blocks i) :
    (sendLoop results blocks i).accepted.length ≤ (sendLoop results blocks i).progress ∧
      ((sendLoop results blocks i).progress = (sendLoop results blocks i).accepted.length →
        EachSend (fun block n => n = block.length) results blocks i) := by
  induction blocks generalizing i with
  | nil => exact ⟨le_rfl, fun _ => trivial⟩
  | cons block blocks ih =>
    cases hres : results i with
    | failed =>
      rw [sendLoop_failed hres]
      exact ⟨le_rfl, fun _ => eachSend_failed hres⟩
    | accepted n =>
      obtain ⟨⟨-, hn⟩, hrest⟩ := (eachSend_accepted hres).mp h
      obtain ⟨hle, hwhole⟩ := ih hrest
      rw [sendLoop_accepted hres, eachSend_accepted hres]
      simp only [List.length_append, List.length_take, min_eq_left hn]
      exact ⟨by omega, fun heq => ⟨by omega, hwhole (by omega)⟩⟩

/-- `send_file` sends the file exactly when every `send` that accepts bytes
accepts all of its block. -/
theorem send_file_exact_iff {content : List Byte} (h : Possible content results) :
    SendsExactly content (sendFileRun content results) ↔ Whole content results := by
  refine ⟨fun hexact => (sendLoop_counted h).2 hexact.counted, fun hwhole => ?_⟩
  have hexact := sendLoop_whole hwhole
  rwa [sendFile_flatten] at hexact

theorem sendFile_short {content : List Byte} (hne : content ≠ [])
    (hlen : content.length ≤ p2sSizeData) :
    sendFile content = [content] := by
  rw [sendFile, if_neg hne, List.take_of_length_le hlen, List.drop_of_length_le hlen,
    sendFile, if_pos rfl]

/-- A file of three bytes, accepted at once. -/
theorem send_file_exact_three :
    SendsExactly [1, 2, 3] (sendFileRun [1, 2, 3] fun _ => .accepted 3) := by
  have hblocks : sendFile [1, 2, 3] = [[1, 2, 3]] := sendFile_short (by decide) (by decide)
  refine (send_file_exact_iff ?_).mpr ?_
  · rw [Possible, hblocks]
    simp [EachSend]
  · rw [Whole, hblocks]
    simp [EachSend]

/-- The `send` of a file of three bytes accepts two; `send_file` returns
three and has dropped one. -/
theorem send_file_drops :
    Possible [1, 2, 3] (fun _ => .accepted 2) ∧
    sendFileRun [1, 2, 3] (fun _ => .accepted 2) = ⟨3, [1, 2], false⟩ ∧
    ¬SendsExactly [1, 2, 3] (sendFileRun [1, 2, 3] fun _ => .accepted 2) := by
  have hblocks : sendFile [1, 2, 3] = [[1, 2, 3]] := sendFile_short (by decide) (by decide)
  have hrun : sendFileRun [1, 2, 3] (fun _ => .accepted 2) = ⟨3, [1, 2], false⟩ := by
    rw [sendFileRun, hblocks]
    rfl
  refine ⟨?_, hrun, fun h => ?_⟩
  · rw [Possible, hblocks]
    simp [EachSend]
  · have hcounted := h.counted
    rw [hrun] at hcounted
    exact absurd hcounted (by decide)

end Psp2Shell.Upload
