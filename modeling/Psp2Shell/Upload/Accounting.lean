import Psp2Shell.Cmd.Receive
import Psp2Shell.Upload.Model

/-! The errors of a socket in the loops that fill a buffer, `p2s_recvall` and
`p2s_cmd_receive_buffer`. -/

namespace Psp2Shell.Upload

open CLib Cmd

/-- `p2s_recvall` by its calls of `sceNetRecv`; a `size_t` of the console has 32 bits. -/
def p2sRecvallCalls (size : Nat) (net : List Recv) : Receiving := receiveLoop 32 size net size 0

/-- The store that a call makes into the caller's buffer. -/
def storeOf (call : RecvCall) : Option (Int × List Byte) :=
  match call.result with
  | .bytes (b :: bs) => some (call.off, b :: bs)
  | _ => none

theorem recvallLoop_calls (size : Nat) (net : List Recv) (left : Nat) (off : Int) :
    (receiveLoop 32 size net left off).ret = (recvallLoop size net left off).map RecvAll.ret ∧
      ∀ r, recvallLoop size net left off = some r →
        r.stores = (receiveLoop 32 size net left off).calls.filterMap storeOf := by
  induction net generalizing left off with
  | nil =>
    cases left with
    | zero => exact ⟨rfl, fun r hr => by cases hr; rfl⟩
    | succ left => exact ⟨rfl, fun r hr => by cases hr⟩
  | cons e net ih =>
    cases left with
    | zero => exact ⟨rfl, fun r hr => by cases hr; rfl⟩
    | succ left =>
      match e with
      | .bytes [] => exact ⟨rfl, fun r hr => by cases hr; rfl⟩
      | .error code =>
        rw [receiveLoop, recvallLoop]
        split
        · exact ⟨rfl, fun r hr => by cases hr; rfl⟩
        · exact ih _ _
      | .bytes (b :: bs) =>
        rw [receiveLoop, recvallLoop]
        split
        · exact ⟨rfl, fun r hr => by cases hr; rfl⟩
        · obtain ⟨hret, hstores⟩ := ih (left - bs.length) (off + (bs.length + 1))
          cases h : recvallLoop size net (left - bs.length) (off + (bs.length + 1)) with
          | none => exact ⟨hret.trans (congrArg _ h), fun r hr => by cases hr⟩
          | some r =>
            rw [h] at hret
            refine ⟨hret, fun r' hr' => ?_⟩
            cases hr'
            exact congrArg (List.cons _) (hstores r h)

/-- The calls are those of `p2sRecvall`. -/
theorem p2sRecvall_calls {size : Nat} {net : List Recv} {r : RecvAll}
    (h : p2sRecvall size net = some r) :
    (p2sRecvallCalls size net).ret = some r.ret ∧
      r.stores = (p2sRecvallCalls size net).calls.filterMap storeOf := by
  obtain ⟨hret, hstores⟩ := recvallLoop_calls size net size 0
  have hloop : recvallLoop size net size 0 = some r := h
  rw [hloop] at hret
  exact ⟨hret, hstores r h⟩

/-- The two functions account for the results of `recv` exactly when no error comes before the bytes
that they are asked for have arrived or the peer has closed. -/
theorem errors_accounted_iff (size : Nat) (net : List Recv) :
    (Accounted size (p2sRecvallCalls size net) ↔ ¬Fails size net) ∧
      ∀ bits, Accounted size (p2sCmdReceiveBuffer bits size net) ↔ ¬Fails size net :=
  ⟨accountedFrom_iff 32 (Nat.zero_add size) net,
    fun bits => accountedFrom_iff bits (Nat.zero_add size) net⟩

/-- After one byte of four and the error -1 both functions return 4, and after another error they
ask for more than the buffer has, to be stored before it. -/
theorem errors_unaccounted :
    (p2sRecvallCalls 4 [.bytes [1], .error (-1)]).ret = some 4 ∧
    (p2sCmdReceiveBuffer 64 4 [.bytes [1], .error (-1)]).ret = some 4 ∧
    ¬Accounted 4 (p2sRecvallCalls 4 [.bytes [1], .error (-1)]) ∧
    ¬Accounted 4 (p2sCmdReceiveBuffer 64 4 [.bytes [1], .error (-1)]) ∧
    ((p2sRecvallCalls 4 [.bytes [1], .error (-2143223548), .bytes [2]]).calls.map fun c =>
      (c.off, c.asked)) = [(0, 4), (1, 3), (-2143223547, 2143223551)] := by
  have hfails : Fails 4 [.bytes [1], .error (-1)] := ⟨[[1]], -1, [], rfl, by simp, by simp⟩
  refine ⟨rfl, rfl, ?_, ?_, by decide +kernel⟩
  · exact fun h => (accountedFrom_iff 32 (Nat.zero_add 4) _).mp h hfails
  · exact fun h => (accountedFrom_iff 64 (Nat.zero_add 4) _).mp h hfails

end Psp2Shell.Upload
