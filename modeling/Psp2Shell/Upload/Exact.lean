import Psp2Shell.Cmd.Receive
import Psp2Shell.Upload.Receive

/-! `p2s_recv_file` on a whole stream: that it takes exactly the file when the file
arrives, and when it ends. -/

namespace Psp2Shell.Upload

open CLib Cmd

/-- The stores into the buffer of `p2s_recv_file`, by offset, in at most `fuel` rounds. -/
def recvFileStores : Nat → Nat → Nat → List Recv → List (Int × List Byte)
  | 0, _, _, _ => []
  | fuel + 1, left, bufSize, net =>
    if left = 0 then []
    else
      let bufSize := if left < bufSize then left else bufSize
      match p2sRecvall bufSize net with
      | none => []
      | some r => r.stores ++ recvFileStores fuel (left - r.ret) bufSize r.rest

/-- What the calls of `p2s_recvall` return in the loop of `p2s_recv_file`, for
at most `fuel` rounds. -/
def recvFileCalls : Nat → Nat → Nat → List Recv → List RecvAll
  | 0, _, _, _ => []
  | fuel + 1, left, bufSize, net =>
    if left = 0 then []
    else
      let bufSize := if left < bufSize then left else bufSize
      match p2sRecvall bufSize net with
      | none => []
      | some r => r :: recvFileCalls fuel (left - r.ret) bufSize r.rest

/-- What is written of the buffer behind each of the calls. -/
def writtenOf (buffer : Buffer p2sSizeData) : List RecvAll → List Byte
  | [] => []
  | r :: rs =>
    let buffer := r.stores.foldl (fun b s => b.store s.1 s.2) buffer
    buffer.bytes.take r.ret ++ writtenOf buffer rs

theorem recvFileStores_eq (fuel left bufSize : Nat) (net : List Recv) :
    recvFileStores fuel left bufSize net =
      (recvFileCalls fuel left bufSize net).flatMap RecvAll.stores := by
  induction fuel generalizing left bufSize net with
  | zero => rfl
  | succ fuel ih =>
    rw [recvFileStores, recvFileCalls]
    split
    · rfl
    · dsimp only
      cases p2sRecvall (if left < bufSize then left else bufSize) net with
      | none => rfl
      | some r => simp only [ih, List.flatMap_cons]

/-- The loop of `p2s_recv_file` makes these calls, and writes what they store. -/
theorem recvFileLoop_calls {fuel left bufSize received : Nat} {buffer : Buffer p2sSizeData}
    {net : List Recv} {f : RecvFile}
    (h : recvFileLoop fuel left bufSize received buffer net = some f) :
    f.received = received + ((recvFileCalls fuel left bufSize net).map RecvAll.ret).sum ∧
      f.written = writtenOf buffer (recvFileCalls fuel left bufSize net) := by
  induction fuel generalizing left bufSize received buffer net f with
  | zero => cases h
  | succ fuel ih =>
    rw [recvFileLoop] at h
    rw [recvFileCalls]
    split at h
    · next hleft =>
      cases h
      simp [hleft, writtenOf]
    · next hleft =>
      rw [if_neg hleft]
      dsimp only at h ⊢
      cases hall : p2sRecvall (if left < bufSize then left else bufSize) net with
      | none => rw [hall] at h; cases h
      | some r =>
        rw [hall] at h
        dsimp only at h ⊢
        split at h
        · cases h
        · next f' hrest =>
          cases h
          obtain ⟨hreceived, hwritten⟩ := ih hrest
          refine ⟨?_, by rw [writtenOf, ← hwritten]⟩
          rw [List.map_cons, List.sum_cons, hreceived, Nat.add_assoc]

/-- Without errors `p2s_recvall` stores into the bytes that it is asked for. -/
theorem recvallLoop_inside {size left : Nat} {off : Int} {net : List Recv} {r : RecvAll}
    (hnet : ∀ code, .error code ∉ net) (h : recvallLoop size net left off = some r) :
    ∀ s ∈ r.stores, off ≤ s.1 ∧ s.1 + s.2.length ≤ off + left := by
  induction net generalizing left off r with
  | nil =>
    cases left with
    | zero => cases h; simp
    | succ left => cases h
  | cons e net ih =>
    have htail : ∀ code, .error code ∉ net :=
      fun code hmem => hnet code (List.mem_cons_of_mem _ hmem)
    cases left with
    | zero => cases h; simp
    | succ left =>
      match e with
      | .error code => exact absurd List.mem_cons_self (hnet code)
      | .bytes [] => cases h; simp
      | .bytes (b :: bs) =>
        rcases recvallLoop_bytes h with ⟨hlt, rfl⟩ | ⟨hge, r', hr', rfl⟩
        · intro s hs
          obtain rfl := List.mem_singleton.mp hs
          simp only [List.length_take, List.length_cons]
          omega
        · intro s hs
          rcases List.mem_cons.mp hs with rfl | hs
          · simp only [List.length_cons]
            omega
          · have := ih htail hr' s hs
            omega

theorem Arrives.no_error {stream : List Byte} {net : List Recv}
    (h : Arrives stream net) (code : Int) :
    .error code ∉ net := by
  obtain ⟨pieces, rfl, -, -⟩ := h
  simp

theorem mem_recvFileCalls {stream : List Byte} {net : List Recv} (h : Arrives stream net)
    {fuel left bufSize : Nat} {r : RecvAll} (hr : r ∈ recvFileCalls fuel left bufSize net) :
    ∃ block net', block ≤ bufSize ∧ (∀ code, .error code ∉ net') ∧
      p2sRecvall block net' = some r := by
  induction fuel generalizing stream net left bufSize with
  | zero => simp [recvFileCalls] at hr
  | succ fuel ih =>
    rw [recvFileCalls] at hr
    split at hr
    · cases hr
    generalize hblock : (if left < bufSize then left else bufSize) = block at hr
    have hle : block ≤ bufSize := by
      split at hblock <;> omega
    by_cases hstream : block ≤ stream.length
    · obtain ⟨first, hfirst, -, harr, -⟩ := recvallLoop_of_le (n := p2sSizeData) h block hstream 0
      have hall : p2sRecvall block net = some first := hfirst
      simp only [hall] at hr
      rcases List.mem_cons.mp hr with rfl | hmem
      · exact ⟨block, net, hle, h.no_error, hall⟩
      · obtain ⟨block', net', hle', hnet', hcall⟩ := ih harr hmem
        exact ⟨block', net', hle'.trans hle, hnet', hcall⟩
    · have hnone : p2sRecvall block net = none := recvallLoop_of_lt h block (by omega) 0
      simp [hnone] at hr

theorem recvFileStores_inside {stream : List Byte} {net : List Recv} (h : Arrives stream net)
    {left bufSize : Nat} (hsize : bufSize ≤ p2sSizeData) (fuel : Nat) :
    ∀ s ∈ recvFileStores fuel left bufSize net, 0 ≤ s.1 ∧ s.1 + s.2.length ≤ p2sSizeData := by
  intro s hs
  rw [recvFileStores_eq] at hs
  obtain ⟨r, hr, hs⟩ := List.mem_flatMap.mp hs
  obtain ⟨block, net', hblock, hnet, hcall⟩ := mem_recvFileCalls h hr
  have hinside := recvallLoop_inside hnet hcall s hs
  omega

theorem p2sRecvFile_exact {stream : List Byte} {net : List Recv}
    (h : Arrives stream net) {size : Nat} (hle : size ≤ stream.length) {fuel : Nat}
    (hfuel : size < fuel) :
    ∃ r, p2sRecvFile true size fuel net = some r ∧ r.received = size ∧
      r.written = stream.take size ∧ Arrives (stream.drop size) r.rest := by
  have hbuf : 0 < p2sSizeData := by decide
  obtain ⟨r, hr⟩ := recvFileLoop_returns h hbuf le_rfl hle hfuel 0 (Buffer.zero _)
  obtain ⟨-, hreceived, hwritten, hrest⟩ := recvFileLoop_exact h hbuf le_rfl hr
  exact ⟨r, hr, by rw [hreceived, Nat.zero_add], hwritten, hrest⟩

/-- A file that arrives is received: `p2s_recv_file` writes its bytes, returns its size and leaves
the bytes behind it, and its stores are in the buffer. -/
theorem recv_file_exact {stream : List Byte} {net : List Recv} (h : Arrives stream net) {size : Nat}
    (hle : size ≤ stream.length) {fuel : Nat} (hfuel : size < fuel) :
    (∃ r, p2sRecvFile true size fuel net = some r ∧ r.received = size ∧
      r.written = stream.take size ∧ Arrives (stream.drop size) r.rest) ∧
    ∀ s ∈ recvFileStores fuel size p2sSizeData net, 0 ≤ s.1 ∧ s.1 + s.2.length ≤ p2sSizeData :=
  ⟨p2sRecvFile_exact h hle hfuel, recvFileStores_inside h le_rfl fuel⟩

/-- A file of three bytes, in two pieces of which the second brings one more. -/
theorem recv_file_exact_three :
    ∃ r, p2sRecvFile true 3 4 [.bytes [1], .bytes [2, 3, 4]] = some r ∧ r.received = 3 ∧
      r.written = [1, 2, 3] ∧ Arrives [4] r.rest := by
  have h : Arrives [1, 2, 3, 4] [.bytes [1], .bytes [2, 3, 4]] :=
    ⟨[[1], [2, 3, 4]], rfl, by simp, rfl⟩
  obtain ⟨⟨r, hr, hreceived, hwritten, hrest⟩, -⟩ :=
    recv_file_exact h (by decide : 3 ≤ 4) (by decide : 3 < 4)
  exact ⟨r, hr, hreceived, hwritten, hrest⟩

/-! ### When it ends -/

/-- The bytes that are still to be received. -/
def pending (net : List Recv) : Nat := (net.map Recv.stored).sum

/-- `p2s_recv_file` returns, and less than `size` when fewer bytes have arrived. -/
def Ends (malloc : Bool) (size : Nat) (net : List Recv) : Prop :=
  ∃ fuel r, p2sRecvFile malloc size fuel net = some r ∧
    (pending net - pending r.rest < size → r.received < size)

/-- `size` bytes arrive before the first result that is not positive. -/
def Delivers (size : Nat) (net : List Recv) : Prop :=
  ∃ (pieces : List (List Byte)) (later : List Recv), net = pieces.map Recv.bytes ++ later ∧
    (∀ p ∈ pieces, p ≠ []) ∧ size ≤ pieces.flatten.length

theorem delivers_zero (net : List Recv) : Delivers 0 net := ⟨[], net, rfl, by simp, Nat.zero_le _⟩

theorem delivers_bytes {piece : List Byte} (hpiece : piece ≠ []) (net : List Recv) (size : Nat) :
    Delivers size (.bytes piece :: net) ↔ Delivers (size - piece.length) net := by
  constructor
  · rintro ⟨pieces, later, h, hne, hlen⟩
    rcases pieces_cases h with ⟨rfl, -⟩ | ⟨rest, rfl, rfl⟩
    · obtain rfl : size = 0 := by simpa using hlen
      rw [Nat.zero_sub]
      exact delivers_zero net
    · refine ⟨rest, later, rfl, fun q hq => hne q (List.mem_cons_of_mem _ hq), ?_⟩
      rw [List.flatten_cons, List.length_append] at hlen
      omega
  · rintro ⟨pieces, later, rfl, hne, hlen⟩
    refine ⟨piece :: pieces, later, rfl, by simpa using ⟨hpiece, hne⟩, ?_⟩
    rw [List.flatten_cons, List.length_append]
    omega

theorem Arrives.pending {stream : List Byte} {net : List Recv} (h : Arrives stream net) :
    pending net = stream.length := by
  obtain ⟨pieces, rfl, -, rfl⟩ := h
  simp [Upload.pending, Function.comp_def, Recv.stored, List.length_flatten]

theorem pending_append (net later : List Recv) :
    pending (net ++ later) = pending net + pending later := by
  simp [pending]

/-! #### More to receive -/

theorem recvallLoop_append {size left : Nat} {off : Int} {net : List Recv} {r : RecvAll}
    (h : recvallLoop size net left off = some r) (later : List Recv) :
    recvallLoop size (net ++ later) left off = some { r with rest := r.rest ++ later } := by
  induction net generalizing left off r with
  | nil =>
    cases left with
    | zero =>
      cases h
      cases later <;> rfl
    | succ left => cases h
  | cons e net ih =>
    cases left with
    | zero => cases h; rfl
    | succ left =>
      match e with
      | .bytes [] => cases h; rfl
      | .error code =>
        rw [List.cons_append, recvallLoop]
        rw [recvallLoop] at h
        split at h
        · cases h
          rw [if_pos ‹_›]
        · rw [if_neg ‹_›]
          exact ih h
      | .bytes (b :: bs) =>
        rw [List.cons_append, recvallLoop]
        rcases recvallLoop_bytes h with ⟨hlt, rfl⟩ | ⟨hge, r', hr', rfl⟩
        · rw [if_pos hlt]
          rfl
        · rw [if_neg (Nat.not_lt.mpr hge), ih hr']

theorem recvFileLoop_append {fuel left bufSize received : Nat} {buffer : Buffer p2sSizeData}
    {net : List Recv} {r : RecvFile}
    (h : recvFileLoop fuel left bufSize received buffer net = some r)
    (later : List Recv) :
    recvFileLoop fuel left bufSize received buffer (net ++ later) =
      some { r with rest := r.rest ++ later } := by
  induction fuel generalizing left bufSize received buffer net r with
  | zero => cases h
  | succ fuel ih =>
    rcases recvFileLoop_cases h with ⟨rfl, rfl⟩ | ⟨fuel', block, f, hleft, hfuel, hblock, hf, rfl⟩
    · rfl
    · cases hfuel
      have happend : p2sRecvall (min left bufSize) (net ++ later) =
          some { block with rest := block.rest ++ later } := recvallLoop_append hblock later
      rw [recvFileLoop_succ hleft, happend, Option.bind_some, ih hf]
      rfl

theorem ends_of_delivers {size : Nat} {net : List Recv} (h : Delivers size net) :
    Ends true size net := by
  obtain ⟨pieces, later, rfl, hne, hlen⟩ := h
  have harr : Arrives pieces.flatten (pieces.map Recv.bytes) := ⟨pieces, rfl, hne, rfl⟩
  obtain ⟨r, hr, hreceived, -, hrest⟩ := p2sRecvFile_exact harr hlen (Nat.lt_succ_self size)
  refine ⟨size + 1, _, recvFileLoop_append hr later, fun hfew => ?_⟩
  have hdrop := hrest.pending
  rw [List.length_drop] at hdrop
  rw [pending_append, pending_append, harr.pending, hdrop] at hfew
  omega

theorem ends_without_buffer (size : Nat) (net : List Recv) : Ends false size net := by
  refine ⟨0, ⟨0, [], net⟩, rfl, fun hfew => ?_⟩
  dsimp only at hfew ⊢
  omega

/-! #### Fewer bytes than the size -/

/-- How `p2s_recvall` ends when the only errors are -1: with all the bytes,
with fewer, or closed. -/
inductive RecvallEnds (size left : Nat) (net : List Recv) (r : RecvAll) : Prop
  | full (hret : r.ret = size) (hbytes : pending net = left + pending r.rest)
    (hmore : ∀ more, Delivers more r.rest → Delivers (left + more) net)
  | error (hret : r.ret = size) (hbytes : pending net < left + pending r.rest)
  | closed (hret : r.ret = 0) (hrest : ∃ net', r.rest = .bytes [] :: net')

theorem recvallLoop_ends {size left : Nat} {off : Int} {net : List Recv} {r : RecvAll}
    (hcodes : ∀ code, .error code ∈ net → code = -1) (h : recvallLoop size net left off = some r) :
    RecvallEnds size left net r ∧ ∀ code, .error code ∈ r.rest → code = -1 := by
  induction net generalizing left off r with
  | nil =>
    cases left with
    | zero =>
      cases h
      exact ⟨.full rfl (by simp) (fun more hmore => by simpa using hmore), hcodes⟩
    | succ left => cases h
  | cons e net ih =>
    have htail : ∀ code, .error code ∈ net → code = -1 := fun code hmem =>
      hcodes code (List.mem_cons_of_mem _ hmem)
    cases left with
    | zero =>
      cases h
      exact ⟨.full rfl (by simp) (fun more hmore => by simpa using hmore), hcodes⟩
    | succ left =>
      match e with
      | .bytes [] =>
        cases h
        exact ⟨.closed rfl ⟨net, rfl⟩, hcodes⟩
      | .error code =>
        obtain rfl := hcodes code List.mem_cons_self
        rw [recvallLoop, if_pos rfl] at h
        cases h
        refine ⟨.error rfl ?_, htail⟩
        simp only [pending, List.map_cons, List.sum_cons, Recv.stored]
        omega
      | .bytes (b :: bs) =>
        have hpending : pending (.bytes (b :: bs) :: net) = bs.length + 1 + pending net := rfl
        rcases recvallLoop_bytes h with ⟨hlt, rfl⟩ | ⟨hge, r', hr', rfl⟩
        · have hne : bs.drop left ≠ [] := fun hnil => by
            simp at hnil
            omega
          have hrest : pending (.bytes (bs.drop left) :: net) = bs.length - left + pending net := by
            simp [pending, Recv.stored]
          refine ⟨.full rfl (by rw [hpending, hrest]; omega) (fun more hmore => ?_), ?_⟩
          · rw [delivers_bytes hne, List.length_drop] at hmore
            rw [delivers_bytes (by simp), List.length_cons]
            rwa [show left + 1 + more - (bs.length + 1) = more - (bs.length - left) by omega]
          · intro code hmem
            exact htail code (by simpa using hmem)
        · obtain ⟨hends, hrest⟩ := ih htail hr'
          refine ⟨?_, hrest⟩
          cases hends with
          | full hret hbytes hmore =>
            refine .full hret (by rw [hpending]; dsimp only; omega) fun more hm => ?_
            rw [delivers_bytes (by simp), List.length_cons]
            have := hmore more hm
            rwa [show left + 1 + more - (bs.length + 1) = left - bs.length + more by omega]
          | error hret hbytes => exact .error hret (by rw [hpending]; dsimp only; omega)
          | closed hret hclosed => exact .closed hret hclosed

/-- A connection that the peer has closed keeps `p2s_recv_file` from returning. -/
theorem recvFileLoop_closed {left bufSize : Nat} (hleft : 0 < left) (hbuf : 0 < bufSize)
    (net : List Recv) (fuel received : Nat) (buffer : Buffer p2sSizeData) :
    recvFileLoop fuel left bufSize received buffer (.bytes [] :: net) = none := by
  induction fuel generalizing bufSize buffer with
  | zero => rfl
  | succ fuel ih =>
    rw [recvFileLoop_succ hleft.ne']
    have hpos : 0 < min left bufSize := by omega
    obtain ⟨k, hk⟩ := Nat.exists_eq_succ_of_ne_zero hpos.ne'
    have hall : p2sRecvall (min left bufSize) (.bytes [] :: net) =
        some ⟨0, [], .bytes [] :: net⟩ := by
      rw [hk]
      rfl
    simp only [hall, Option.bind_some, Nat.sub_zero, Nat.add_zero, ih hpos, Option.map_none]

/-- When the only errors are -1, `p2s_recv_file` returns the size that it was given, and when all of
it has arrived it has arrived at once. -/
theorem recvFileLoop_ends {fuel left bufSize received : Nat} (hbuf : 0 < bufSize)
    {buffer : Buffer p2sSizeData} {net : List Recv} {r : RecvFile}
    (hcodes : ∀ code, .error code ∈ net → code = -1)
    (h : recvFileLoop fuel left bufSize received buffer net = some r) :
    r.received = received + left ∧ pending net ≤ left + pending r.rest ∧
      (pending net = left + pending r.rest → Delivers left net) := by
  induction fuel generalizing left bufSize received buffer net r with
  | zero => cases h
  | succ fuel ih =>
    rcases recvFileLoop_cases h with ⟨rfl, rfl⟩ | ⟨fuel', block, f, hleft, hfuel, hblock, hf, rfl⟩
    · exact ⟨rfl, by simp, fun _ => delivers_zero net⟩
    cases hfuel
    have hpos : 0 < min left bufSize := by omega
    obtain ⟨hends, hrest⟩ := recvallLoop_ends hcodes hblock
    cases hends with
    | full hret hbytes hmore =>
      rw [hret] at hf
      obtain ⟨hreceived, hfew, hall⟩ := ih hpos hrest hf
      refine ⟨by rw [hreceived]; omega, by dsimp only; omega, fun heq => ?_⟩
      have := hmore _ (hall (by dsimp only at heq; omega))
      rwa [show min left bufSize + (left - min left bufSize) = left by omega] at this
    | error hret hbytes =>
      rw [hret] at hf
      obtain ⟨hreceived, hfew, -⟩ := ih hpos hrest hf
      exact ⟨by rw [hreceived]; omega, by dsimp only; omega, fun heq => by dsimp only at heq; omega⟩
    | closed hret hclosed =>
      obtain ⟨net', hnet'⟩ := hclosed
      rw [hret, hnet', recvFileLoop_closed (by omega) hpos] at hf
      cases hf

/-- `p2s_recv_file` ends as it should when it gets no buffer or when the file arrives before the
first result that is not positive; and when the only error is -1, in no other case. -/
theorem recv_file_ends (malloc : Bool) (size : Nat) (net : List Recv) :
    (malloc = false ∨ Delivers size net → Ends malloc size net) ∧
      ((∀ code, .error code ∈ net → code = -1) → Ends malloc size net →
        malloc = false ∨ Delivers size net) := by
  constructor
  · rintro (rfl | h)
    · exact ends_without_buffer size net
    · cases malloc with
      | false => exact ends_without_buffer size net
      | true => exact ends_of_delivers h
  · rintro hcodes ⟨fuel, r, hr, hfew⟩
    cases malloc with
    | false => exact Or.inl rfl
    | true =>
      right
      obtain ⟨hreceived, hle, hall⟩ := recvFileLoop_ends (by decide) hcodes hr
      by_cases hzero : size = 0
      · rw [hzero]
        exact delivers_zero net
      · apply hall
        by_contra hne
        have := hfew (by omega)
        omega

/-- The peer closes after three bytes of four, and `p2s_recv_file` runs on; and after an error it
returns four when one byte has arrived. -/
theorem recv_file_runs_on :
    (∀ fuel, p2sRecvFile true 4 fuel [.bytes [1, 2, 3], .bytes []] = none) ∧
    ¬Ends true 4 [.bytes [1, 2, 3], .bytes []] ∧
    (p2sRecvFile true 4 2 [.bytes [1], .error (-1)]).map RecvFile.received = some 4 := by
  have hnone : ∀ fuel, p2sRecvFile true 4 fuel [.bytes [1, 2, 3], .bytes []] = none := by
    intro fuel
    cases fuel with
    | zero => rfl
    | succ fuel =>
      have hall : p2sRecvall 4 [.bytes [1, 2, 3], .bytes []] =
          some ⟨0, [(0, [1, 2, 3])], [.bytes []]⟩ := rfl
      have hmin : (if 4 < p2sSizeData then 4 else p2sSizeData) = 4 := by decide
      rw [p2sRecvFile, if_pos rfl, recvFileLoop, if_neg (by decide)]
      simp only [hmin, hall, Nat.sub_zero, Nat.add_zero,
        recvFileLoop_closed (by decide : 0 < 4) (by decide : 0 < 4)]
  refine ⟨hnone, ?_, by decide +kernel⟩
  rintro ⟨fuel, r, hr, -⟩
  rw [hnone] at hr
  cases hr

end Psp2Shell.Upload
