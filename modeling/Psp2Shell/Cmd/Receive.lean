import Psp2Shell.Cmd.Model

/-! The loop that fills a caller's buffer from a socket, which `p2s_cmd_receive_buffer` of
`common/p2s_cmd.c` and `p2s_recvall` of `psp2shell_m/source/utility.c` share: its calls of `recv`,
and when it accounts for their results. -/

namespace Psp2Shell.Cmd

open CLib

/-- A call `recv(sock, buffer, left, 0)`: where `buffer` points in the caller's buffer, the bytes
that it asks for, and what it gives. -/
structure RecvCall where
  off : Int
  asked : Nat
  result : Recv

/-- What the loop returns, `none` while it waits for more, and the calls that it has made. -/
structure Receiving where
  ret : Option Nat
  calls : List RecvCall

def Receiving.after (call : RecvCall) (r : Receiving) : Receiving :=
  { r with calls := call :: r.calls }

/-- The loop with `left` bytes to go and `buffer` moved by `off`, where `size_t` has `bits` bits.  A
negative result other than -1 is subtracted from `left` and added to `buffer` like any other.  A
call for fewer bytes than a piece of the stream ends the loop. -/
def receiveLoop (bits size : Nat) : List Recv → Nat → Int → Receiving
  | _, 0, _ => ⟨some size, []⟩
  | [], _ + 1, _ => ⟨none, []⟩
  | .bytes [] :: _, left + 1, off => ⟨some 0, [⟨off, left + 1, .bytes []⟩]⟩
  | .bytes (b :: bs) :: net, left + 1, off =>
    if left < bs.length then ⟨some size, [⟨off, left + 1, .bytes ((b :: bs).take (left + 1))⟩]⟩
    else
      (receiveLoop bits size net (left - bs.length) (off + (bs.length + 1))).after
        ⟨off, left + 1, .bytes (b :: bs)⟩
  | .error code :: net, left + 1, off =>
    if code = -1 then ⟨some size, [⟨off, left + 1, .error code⟩]⟩
    else
      (receiveLoop bits size net ((left + 1 - code) % 2 ^ bits).toNat (off + code)).after
        ⟨off, left + 1, .error code⟩

def p2sCmdReceiveBuffer (bits size : Nat) (net : List Recv) : Receiving :=
  receiveLoop bits size net size 0

/-! ### Results that are accounted for -/

/-- The number of bytes that a result stores. -/
def Recv.stored : Recv → Nat
  | .error _ => 0
  | .bytes bs => bs.length

def Receiving.stored (r : Receiving) : Nat := (r.calls.map fun c => c.result.stored).sum

/-- The pointer and the bytes asked for stay in the caller's buffer, the loop returns at
the first result that is not positive, and it returns no more than it has stored.  `done`
bytes were stored before. -/
structure AccountedFrom (size done : Nat) (r : Receiving) : Prop where
  inside : ∀ c ∈ r.calls, 0 ≤ c.off ∧ c.off + c.asked ≤ size
  stops : ∀ before c after, r.calls = before ++ c :: after → c.result.stored = 0 →
    after = [] ∧ r.ret.isSome
  counted : ∀ n, r.ret = some n → n ≤ done + r.stored

abbrev Accounted (size : Nat) (r : Receiving) : Prop := AccountedFrom size 0 r

/-- An error comes before `left` bytes have arrived, and before the peer has closed. -/
def Fails (left : Nat) (net : List Recv) : Prop :=
  ∃ (pieces : List (List Byte)) (code : Int) (later : List Recv),
    net = pieces.map Recv.bytes ++ .error code :: later ∧ (∀ p ∈ pieces, p ≠ []) ∧
      pieces.flatten.length < left

theorem not_fails_zero (net : List Recv) : ¬Fails 0 net := by
  rintro ⟨pieces, code, later, -, -, hlen⟩
  omega

theorem not_fails_nil (left : Nat) : ¬Fails left [] := by
  rintro ⟨pieces, code, later, h, -, -⟩
  simp at h

theorem fails_error (code : Int) (net : List Recv) (left : Nat) :
    Fails (left + 1) (.error code :: net) :=
  ⟨[], code, net, rfl, by simp, by simp⟩

/-- A first result with bytes is the first piece, or there are no pieces. -/
theorem pieces_cases {piece : List Byte} {net later : List Recv} {pieces : List (List Byte)}
    (h : .bytes piece :: net = pieces.map Recv.bytes ++ later) :
    pieces = [] ∧ later = .bytes piece :: net ∨
      ∃ rest, pieces = piece :: rest ∧ net = rest.map Recv.bytes ++ later := by
  cases pieces with
  | nil => exact Or.inl ⟨rfl, h.symm⟩
  | cons p rest =>
    simp only [List.map_cons, List.cons_append, List.cons.injEq, Recv.bytes.injEq] at h
    exact Or.inr ⟨rest, by rw [h.1], h.2⟩

theorem not_fails_closed (net : List Recv) (left : Nat) : ¬Fails left (.bytes [] :: net) := by
  rintro ⟨pieces, code, later, h, hne, -⟩
  rcases pieces_cases h with ⟨-, h⟩ | ⟨rest, rfl, -⟩
  · cases h
  · exact hne [] List.mem_cons_self rfl

theorem fails_bytes {piece : List Byte} (hpiece : piece ≠ []) (net : List Recv) (left : Nat) :
    Fails left (.bytes piece :: net) ↔ Fails (left - piece.length) net := by
  constructor
  · rintro ⟨pieces, code, later, h, hne, hlen⟩
    rcases pieces_cases h with ⟨-, h⟩ | ⟨rest, rfl, rfl⟩
    · cases h
    · refine ⟨rest, code, later, rfl, fun q hq => hne q (List.mem_cons_of_mem _ hq), ?_⟩
      rw [List.flatten_cons, List.length_append] at hlen
      omega
  · rintro ⟨pieces, code, later, rfl, hne, hlen⟩
    refine ⟨piece :: pieces, code, later, rfl, by simpa using ⟨hpiece, hne⟩, ?_⟩
    rw [List.flatten_cons, List.length_append]
    omega

/-- A positive result that stays in the buffer leaves the rest to be accounted for. -/
theorem accountedFrom_after {size done asked : Nat} {off : Int} {result : Recv} {r : Receiving}
    (hpos : 0 < result.stored) (hin : 0 ≤ off ∧ off + asked ≤ size) :
    AccountedFrom size done (r.after ⟨off, asked, result⟩) ↔
      AccountedFrom size (done + result.stored) r := by
  have hstored : (r.after ⟨off, asked, result⟩).stored = result.stored + r.stored := rfl
  constructor
  · intro h
    refine ⟨fun c hc => h.inside c (List.mem_cons_of_mem _ hc),
      fun before c after hcalls hzero => ?_, fun n hn => ?_⟩
    · exact h.stops (⟨off, asked, result⟩ :: before) c after (congrArg (List.cons _) hcalls) hzero
    · have := h.counted n hn
      omega
  · intro h
    refine ⟨fun c hc => ?_, fun before c after hcalls hzero => ?_, fun n hn => ?_⟩
    · rcases List.mem_cons.mp hc with rfl | hc
      · exact hin
      · exact h.inside c hc
    · cases before with
      | nil =>
        obtain rfl := (List.cons.inj hcalls).1
        exact absurd hzero hpos.ne'
      | cons b before => exact h.stops before c after (List.cons.inj hcalls).2 hzero
    · have := h.counted n hn
      omega

/-- The loop that returns without a call returns the size. -/
theorem ret_of_no_calls {bits size left : Nat} {off : Int} {net : List Recv}
    (hcalls : (receiveLoop bits size net left off).calls = [])
    (hret : (receiveLoop bits size net left off).ret.isSome) :
    (receiveLoop bits size net left off).ret = some size := by
  unfold receiveLoop at hcalls hret ⊢
  split
  · rfl
  · simp at hret
  · simp at hcalls
  · split
    · rfl
    · simp_all [Receiving.after]
  · split
    · rfl
    · simp_all [Receiving.after]

/-- An error with bytes left to receive is not accounted for. -/
theorem not_accounted_error {bits size done left : Nat}
    (hdone : done + (left + 1) = size) (code : Int) (net : List Recv) :
    ¬AccountedFrom size done (receiveLoop bits size (.error code :: net) (left + 1) done) := by
  intro h
  rw [receiveLoop] at h
  split at h
  · have := h.counted size rfl
    simp only [Receiving.stored, List.map_cons, List.map_nil, List.sum_cons, List.sum_nil,
      Recv.stored] at this
    omega
  · obtain ⟨hcalls, hret⟩ := h.stops [] _ _ rfl rfl
    have hsize := ret_of_no_calls hcalls hret
    have := h.counted size hsize
    simp only [Receiving.stored, Receiving.after, hcalls, List.map_cons,
      List.map_nil, List.sum_cons, List.sum_nil, Recv.stored] at this
    omega

/-- A call after which the loop returns. -/
theorem accountedFrom_last {size done n : Nat} {call : RecvCall}
    (hin : 0 ≤ call.off ∧ call.off + call.asked ≤ size) (hn : n ≤ done + call.result.stored) :
    AccountedFrom size done ⟨some n, [call]⟩ := by
  refine ⟨by simpa using hin, fun before c after hcalls hzero => ?_, fun m hm => ?_⟩
  · cases before with
    | nil => exact ⟨(List.cons.inj hcalls).2.symm, rfl⟩
    | cons b before => simp at hcalls
  · obtain rfl : n = m := Option.some.inj hm
    simpa [Receiving.stored] using hn

theorem accountedFrom_iff (bits : Nat) {size done left : Nat} (hdone : done + left = size)
    (net : List Recv) :
    AccountedFrom size done (receiveLoop bits size net left done) ↔ ¬Fails left net := by
  induction net generalizing done left with
  | nil =>
    refine iff_of_true ?_ (not_fails_nil left)
    cases left with
    | zero => exact ⟨by simp [receiveLoop], by simp [receiveLoop], by simp [receiveLoop]; omega⟩
    | succ left => exact ⟨by simp [receiveLoop], by simp [receiveLoop], by simp [receiveLoop]⟩
  | cons e net ih =>
    cases left with
    | zero =>
      refine iff_of_true ?_ (not_fails_zero _)
      exact ⟨by simp [receiveLoop], by simp [receiveLoop], by simp [receiveLoop]; omega⟩
    | succ left =>
      match e with
      | .error code =>
        exact iff_of_false (not_accounted_error hdone code net)
          (not_not.mpr (fails_error code net left))
      | .bytes [] =>
        refine iff_of_true ?_ (not_fails_closed net _)
        rw [receiveLoop]
        exact accountedFrom_last ⟨Int.natCast_nonneg done, by push_cast; omega⟩ (Nat.zero_le _)
      | .bytes (b :: bs) =>
        rw [fails_bytes (by simp), receiveLoop]
        by_cases hlt : left < bs.length
        · have hzero : left + 1 - (b :: bs).length = 0 := by
            rw [List.length_cons]
            omega
          have hlen : ((b :: bs).take (left + 1)).length = left + 1 := by
            rw [List.length_take, List.length_cons]
            omega
          rw [if_pos hlt, hzero]
          refine iff_of_true (accountedFrom_last ⟨Int.natCast_nonneg done, by push_cast; omega⟩ ?_)
            (not_fails_zero net)
          rw [Recv.stored, hlen]
          omega
        · have hoff : (done : Int) + (bs.length + 1) = ((done + (b :: bs).length : Nat) : Int) := by
            push_cast [List.length_cons]
            rfl
          have hleft : left + 1 - (b :: bs).length = left - bs.length := by
            rw [List.length_cons]
            omega
          have hstored : (Recv.bytes (b :: bs)).stored = bs.length + 1 := rfl
          rw [if_neg hlt,
            accountedFrom_after (by omega) ⟨Int.natCast_nonneg done, by push_cast; omega⟩,
            hoff, hleft]
          exact ih (by omega)

end Psp2Shell.Cmd
