import Psp2Shell.Upload.Model

/-! The receiving loops on a stream that arrives in pieces without errors: they take exactly the
bytes that they are asked for, however the stream is cut. -/

namespace Psp2Shell.Upload

open CLib Cmd

/-- `net` delivers `stream` in pieces, and then waits. -/
def Arrives (stream : List Byte) (net : List Recv) : Prop :=
  ∃ pieces : List (List Byte), net = pieces.map Recv.bytes ∧ (∀ p ∈ pieces, p ≠ []) ∧
    pieces.flatten = stream

theorem arrives_nil : Arrives [] [] := ⟨[], rfl, by simp, rfl⟩

theorem arrives_cons {piece rest : List Byte} {net : List Recv} (hne : piece ≠ [])
    (h : Arrives rest net) : Arrives (piece ++ rest) (.bytes piece :: net) := by
  obtain ⟨pieces, rfl, hpieces, rfl⟩ := h
  exact ⟨piece :: pieces, rfl, by simpa using ⟨hne, hpieces⟩, rfl⟩

theorem Arrives.cases {stream : List Byte} {net : List Recv} (h : Arrives stream net) :
    (stream = [] ∧ net = []) ∨ ∃ b bs rest more, stream = b :: (bs ++ rest) ∧
      net = .bytes (b :: bs) :: more ∧ Arrives rest more := by
  obtain ⟨pieces, rfl, hne, rfl⟩ := h
  cases pieces with
  | nil => exact Or.inl ⟨rfl, rfl⟩
  | cons p pieces =>
    obtain ⟨b, bs, rfl⟩ := List.exists_cons_of_ne_nil (hne p (by simp))
    exact Or.inr ⟨b, bs, pieces.flatten, pieces.map Recv.bytes, rfl, rfl, pieces, rfl,
      fun q hq => hne q (List.mem_cons_of_mem _ hq), rfl⟩

theorem Arrives.unique {s t : List Byte} {net : List Recv} (hs : Arrives s net)
    (ht : Arrives t net) : s = t := by
  obtain ⟨ps, rfl, -, rfl⟩ := hs
  obtain ⟨qs, hqs, -, rfl⟩ := ht
  rw [List.map_injective_iff.mpr (fun _ _ => Recv.bytes.inj) hqs]

/-! ### Receiving a block -/

variable {n : Nat}

/-- The buffer after the stores of `p2s_recvall`. -/
def storeAll (buffer : Buffer n) (stores : List (Int × List Byte)) : Buffer n :=
  stores.foldl (fun b s => b.store s.1 s.2) buffer

/-- What `p2s_recvall` makes of a piece of the stream. -/
theorem recvallLoop_bytes {size left : Nat} {off : Int} {b : Byte} {bs : List Byte}
    {net : List Recv} {r : RecvAll}
    (h : recvallLoop size (.bytes (b :: bs) :: net) (left + 1) off = some r) :
    (left < bs.length ∧ r =
      ⟨size, [(off, (b :: bs).take (left + 1))], .bytes (bs.drop left) :: net⟩) ∨
      bs.length ≤ left ∧ ∃ r', recvallLoop size net (left - bs.length)
        (off + (bs.length + 1)) = some r' ∧
        r = { r' with stores := (off, b :: bs) :: r'.stores } := by
  rw [recvallLoop] at h
  by_cases hlt : left < bs.length
  · rw [if_pos hlt] at h
    exact Or.inl ⟨hlt, (Option.some.inj h).symm⟩
  · rw [if_neg hlt] at h
    cases hrest : recvallLoop size net (left - bs.length) (off + (bs.length + 1)) with
    | none =>
      rw [hrest] at h
      cases h
    | some r' =>
      rw [hrest] at h
      exact Or.inr ⟨Nat.le_of_not_lt hlt, r', rfl, (Option.some.inj h).symm⟩

theorem recvallLoop_of_le {stream : List Byte} {net : List Recv} (h : Arrives stream net)
    (size : Nat) {left : Nat} (hle : left ≤ stream.length) (off : Nat) :
    ∃ r, recvallLoop size net left off = some r ∧ r.ret = size ∧
      Arrives (stream.drop left) r.rest ∧
      ∀ buffer : Buffer n, off + left ≤ n →
        storeAll buffer r.stores = buffer.blit off (stream.take left) := by
  induction net generalizing stream left off with
  | nil =>
    obtain ⟨rfl, -⟩ | ⟨_, _, _, _, -, hnet, -⟩ := h.cases
    · obtain rfl : left = 0 := by simpa using hle
      exact ⟨⟨size, [], []⟩, rfl, rfl, arrives_nil, by simp [storeAll]⟩
    · cases hnet
  | cons e net ih =>
    obtain ⟨-, hnet⟩ | ⟨b, bs, rest, more, rfl, hnet, hrest⟩ := h.cases
    · cases hnet
    · cases hnet
      cases left with
      | zero =>
        exact ⟨⟨size, [], .bytes (b :: bs) :: net⟩, rfl, rfl, h, by simp [storeAll]⟩
      | succ left =>
        by_cases hlt : left < bs.length
        · refine ⟨_, by rw [recvallLoop, if_pos hlt], rfl, ?_, fun buffer _ => ?_⟩
          · rw [List.drop_succ_cons, List.drop_append_of_le_length hlt.le]
            refine arrives_cons ?_ hrest
            exact fun hnil => by simp at hnil; omega
          · rw [storeAll, List.foldl_cons, List.foldl_nil, Buffer.store_ofNat, List.take_succ_cons,
              List.take_succ_cons, List.take_append_of_le_length hlt.le]
        · have hlen : left - bs.length ≤ rest.length := by
            simp only [List.length_cons, List.length_append] at hle
            omega
          obtain ⟨r, hr, hret, harr, hstores⟩ := ih hrest hlen (off + (bs.length + 1))
          push_cast at hr
          refine ⟨{ r with stores := ((off : Int), b :: bs) :: r.stores },
            by rw [recvallLoop, if_neg hlt, hr], hret, ?_, fun buffer hn => ?_⟩
          · rw [List.drop_succ_cons, List.drop_append]
            rwa [List.drop_of_length_le (by omega), List.nil_append]
          · have hfirst : storeAll buffer (((off : Int), b :: bs) :: r.stores) =
                storeAll (buffer.blit off (b :: bs)) r.stores := by
              rw [storeAll, List.foldl_cons, Buffer.store_ofNat]
              rfl
            have htake : (b :: (bs ++ rest)).take (left + 1) =
                (b :: bs) ++ rest.take (left - bs.length) := by
              rw [List.take_succ_cons, List.take_append, List.take_of_length_le (by omega)]
              rfl
            rw [hfirst, hstores _ (by omega), htake,
              show off + (bs.length + 1) = off + (b :: bs).length from rfl,
              Buffer.blit_blit]

/-- `p2s_recvall` on a stream that holds less than it asks for waits. -/
theorem recvallLoop_of_lt {stream : List Byte} {net : List Recv} (h : Arrives stream net)
    (size : Nat) {left : Nat} (hlt : stream.length < left) (off : Int) :
    recvallLoop size net left off = none := by
  induction net generalizing stream left off with
  | nil =>
    obtain ⟨left, rfl⟩ := Nat.exists_eq_succ_of_ne_zero (by omega : left ≠ 0)
    rfl
  | cons e net ih =>
    obtain ⟨-, hnet⟩ | ⟨b, bs, rest, more, rfl, hnet, hrest⟩ := h.cases
    · cases hnet
    · cases hnet
      obtain ⟨left, rfl⟩ := Nat.exists_eq_succ_of_ne_zero (by omega : left ≠ 0)
      simp only [List.length_cons, List.length_append] at hlt
      rw [recvallLoop, if_neg (by omega), ih hrest (by omega)]

/-! ### Receiving a file -/

section

variable {fuel left bufSize received : Nat} {buffer : Buffer p2sSizeData} {net : List Recv}

/-- One round of `p2s_recv_file`. -/
theorem recvFileLoop_succ (hleft : left ≠ 0) :
    recvFileLoop (fuel + 1) left bufSize received buffer net =
      (p2sRecvall (min left bufSize) net).bind fun r =>
        (recvFileLoop fuel (left - r.ret) (min left bufSize) (received + r.ret)
          (storeAll buffer r.stores) r.rest).map fun f =>
            { f with written := (storeAll buffer r.stores).bytes.take r.ret ++ f.written } := by
  have hmin : (if left < bufSize then left else bufSize) = min left bufSize := by
    split <;> omega
  rw [recvFileLoop, if_neg hleft]
  simp only [hmin]
  cases p2sRecvall (min left bufSize) net with
  | none => rfl
  | some r =>
    simp only [Option.bind_some, storeAll]
    cases recvFileLoop fuel (left - r.ret) (min left bufSize) (received + r.ret)
      (r.stores.foldl (fun b s => b.store s.1 s.2) buffer) r.rest <;> rfl

/-- How `p2s_recv_file` comes to return: there is nothing left, or a block has been received and it
returns for the rest. -/
theorem recvFileLoop_cases {r : RecvFile}
    (h : recvFileLoop fuel left bufSize received buffer net = some r) :
    (left = 0 ∧ r = ⟨received, [], net⟩) ∨
      ∃ fuel' block f, left ≠ 0 ∧ fuel = fuel' + 1 ∧
        p2sRecvall (min left bufSize) net = some block ∧
        recvFileLoop fuel' (left - block.ret) (min left bufSize) (received + block.ret)
          (storeAll buffer block.stores) block.rest = some f ∧
        r = { f with written := (storeAll buffer block.stores).bytes.take block.ret ++
          f.written } := by
  cases fuel with
  | zero => cases h
  | succ fuel =>
    by_cases hleft : left = 0
    · rw [recvFileLoop, if_pos hleft] at h
      exact Or.inl ⟨hleft, (Option.some.inj h).symm⟩
    · rw [recvFileLoop_succ hleft] at h
      obtain ⟨block, hblock, hrest⟩ := Option.bind_eq_some_iff.mp h
      obtain ⟨f, hf, hr⟩ := Option.map_eq_some_iff.mp hrest
      exact Or.inr ⟨fuel, block, f, hleft, rfl, hblock, hf, hr.symm⟩

end

/-- The first block of a file: what one round of `p2s_recv_file` stores and leaves. -/
theorem firstBlock {stream : List Byte} {net : List Recv} (h : Arrives stream net) {size : Nat}
    (hsize : size ≤ p2sSizeData) (hle : size ≤ stream.length) (buffer : Buffer p2sSizeData) :
    ∃ block, p2sRecvall size net = some block ∧ block.ret = size ∧
      (storeAll buffer block.stores).bytes.take block.ret = stream.take size ∧
      Arrives (stream.drop size) block.rest := by
  obtain ⟨block, hblock, hret, harr, hstores⟩ := recvallLoop_of_le (n := p2sSizeData) h size hle 0
  refine ⟨block, hblock, hret, ?_, harr⟩
  have hwidth : (stream.take size).length = size := by
    rw [List.length_take]
    omega
  have htake := Buffer.take_blit_zero buffer (s := stream.take size) (by omega)
  rw [hwidth] at htake
  rw [hstores buffer (by omega), hret, htake]

/-- `p2s_recv_file`, when it returns, has taken exactly the size that it was given. -/
theorem recvFileLoop_exact {fuel : Nat} {stream : List Byte} {net : List Recv}
    (h : Arrives stream net) {left bufSize received : Nat} (hbuf : 0 < bufSize)
    (hsize : bufSize ≤ p2sSizeData) {buffer : Buffer p2sSizeData} {r : RecvFile}
    (hr : recvFileLoop fuel left bufSize received buffer net = some r) :
    left ≤ stream.length ∧ r.received = received + left ∧ r.written = stream.take left ∧
      Arrives (stream.drop left) r.rest := by
  induction fuel generalizing stream net left bufSize received buffer r with
  | zero => cases hr
  | succ fuel ih =>
    rcases recvFileLoop_cases hr with ⟨rfl, rfl⟩ | ⟨fuel', block, f, hleft, hfuel, hblock, hf, rfl⟩
    · exact ⟨Nat.zero_le _, rfl, rfl, h⟩
    · cases hfuel
      have hle : min left bufSize ≤ stream.length := by
        by_contra hlt
        have hwait : p2sRecvall (min left bufSize) net = none := recvallLoop_of_lt h _ (by omega) 0
        rw [hwait] at hblock
        cases hblock
      obtain ⟨block', hblock', hret, htaken, harr⟩ := firstBlock h (by omega) hle buffer
      obtain rfl : block' = block := Option.some.inj (hblock'.symm.trans hblock)
      obtain ⟨hlen, hreceived, hwritten, hrest⟩ := ih harr (by omega) (by omega) hf
      have hsum : min left bufSize + (left - min left bufSize) = left := by omega
      rw [List.length_drop] at hlen
      rw [hret] at hlen hreceived hwritten hrest
      rw [List.drop_drop, hsum] at hrest
      refine ⟨by omega, by rw [hreceived]; omega, ?_, hrest⟩
      show _ ++ f.written = _
      rw [htaken, hwritten, ← List.take_add, hsum]

theorem recvFileLoop_returns {fuel : Nat} {stream : List Byte} {net : List Recv}
    (h : Arrives stream net) {left bufSize : Nat} (hbuf : 0 < bufSize)
    (hsize : bufSize ≤ p2sSizeData) (hle : left ≤ stream.length) (hfuel : left < fuel)
    (received : Nat) (buffer : Buffer p2sSizeData) :
    ∃ r, recvFileLoop fuel left bufSize received buffer net = some r := by
  induction fuel generalizing stream net left bufSize received buffer with
  | zero => omega
  | succ fuel ih =>
    by_cases hleft : left = 0
    · exact ⟨⟨received, [], net⟩, by rw [recvFileLoop, if_pos hleft]⟩
    · obtain ⟨block, hblock, hret, -, harr⟩ :=
        firstBlock h (by omega : min left bufSize ≤ p2sSizeData) (by omega) buffer
      have hmin : 0 < min left bufSize := by omega
      have hrest : left - min left bufSize ≤ (stream.drop (min left bufSize)).length := by
        rw [List.length_drop]
        omega
      obtain ⟨f, hf⟩ := ih harr hmin (by omega) hrest (by omega) (received + min left bufSize)
        (storeAll buffer block.stores)
      exact ⟨_, by
        rw [recvFileLoop_succ hleft, hblock, Option.bind_some, hret, hf, Option.map_some]⟩

end Psp2Shell.Upload
