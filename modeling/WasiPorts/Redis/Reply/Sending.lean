import WasiPorts.Redis.Reply.Invariant

/-!
# Sending conserves the reply stream

The two loops of `_writevToClient` walk over the reply list independently of each other — one to
build the vector, one to release what was sent. Both are specified against the same function
`remainingFrom`, the bytes of a block list after `sentlen` bytes of its head. From there:
`_writevToClient`, `_writeToClient` and the loop of `writeToClient` conserve the stream, and the
loop ends.
-/

namespace WasiPorts.Redis.Reply

/-! ## The vectored write -/

/-- The WASI loop takes a prefix of the concatenated segments and reports its length; it fails
only if nothing was taken. -/
theorem writevLoop_spec (iov : List (List Byte)) (ret : Nat) (s : Socket) :
    match writevLoop iov ret s with
    | (.ok n, s') => ret ≤ n ∧ n - ret ≤ iov.flatten.length ∧
        s'.accepted = s.accepted ++ iov.flatten.take (n - ret)
    | (.error _, s') => ret = 0 ∧ s'.accepted = s.accepted := by
  induction iov generalizing ret s with
  | nil => simp [writevLoop]
  | cons seg iov ih =>
      by_cases hseg : seg = []
      · simpa [writevLoop, hseg] using ih ret s
      rw [writevLoop, if_neg hseg]
      rcases hw : s.write seg with ⟨_ | rc, s'⟩
      · have hacc := (Socket.write_error hw).1
        by_cases hret : ret = 0 <;> simp [hret, hacc]
      · obtain ⟨hle, hacc, -⟩ := Socket.write_ok hw
        by_cases hlt : rc < seg.length
        · simp only [if_pos hlt]
          refine ⟨by omega, ?_, ?_⟩
          · rw [List.flatten_cons, List.length_append]
            omega
          rw [hacc, Nat.add_sub_cancel_left, List.flatten_cons, List.take_append_of_le_length hle]
        · have hrc : rc = seg.length := by omega
          simp only [if_neg hlt]
          have htake : seg.take rc = seg := by rw [hrc, List.take_length]
          have := ih (ret + rc) s'
          rcases hl : writevLoop iov (ret + rc) s' with ⟨_ | n, s''⟩
          · rw [hl] at this
            have hpos : seg.length ≠ 0 := by simpa using hseg
            omega
          · rw [hl] at this
            obtain ⟨h1, h2, h3⟩ := this
            refine ⟨by omega, ?_, ?_⟩
            · rw [List.flatten_cons, List.length_append]
              omega
            rw [h3, hacc, htake, List.flatten_cons, List.append_assoc]
            have : n - ret = seg.length + (n - (ret + rc)) := by omega
            rw [this, List.take_length_add_append]

@[simp] theorem noteResult_sock (conn : Connection) (r : Except Errno Nat) :
    (conn.noteResult r).sock = conn.sock := by
  cases r with
  | ok => rfl
  | error e =>
      simp only [Connection.noteResult]
      split <;> rfl

/-- `connSocketWritev` returns the number of bytes the socket accepted, and `-1` only when it
accepted none; the accepted bytes are a prefix of the segments. -/
theorem connSocketWritev_spec (conn : Connection) (iov : List (List Byte)) :
    match connSocketWritev conn iov with
    | (.ok n, conn') => n ≤ iov.flatten.length ∧
        conn'.sock.accepted = conn.sock.accepted ++ iov.flatten.take n
    | (.error _, conn') => conn'.sock.accepted = conn.sock.accepted := by
  have h := writevLoop_spec iov 0 conn.sock
  unfold connSocketWritev
  rcases hw : writevLoop iov 0 conn.sock with ⟨_ | n, s'⟩
  · rw [hw] at h
    simpa using h.2
  · rw [hw] at h
    simpa using h.2

/-! ## The two walks over the reply list -/

/-- Building the vector drops empty blocks only: what remains to be sent, and the size of the
list against `reply_bytes`, stay as they were; the vector is the start of what remains. -/
theorem gather_spec (blocks : List ReplyBlock) (offset iovcnt len : Nat) (rb : Int)
    (hhead : HeadOk offset blocks) :
    let g := gather blocks offset iovcnt len rb
    HeadOk offset g.reply ∧ remainingFrom offset g.reply = remainingFrom offset blocks ∧
      g.iov.flatten <+: remainingFrom offset blocks ∧
      g.replyBytes - blockSize g.reply = rb - blockSize blocks := by
  induction blocks generalizing offset iovcnt len rb with
  | nil => simpa [gather] using hhead
  | cons o rest ih =>
      rw [gather]
      split
      · split
        · next hempty =>
            have hoff : offset = 0 := by
              rcases hhead with h | h <;> omega
            subst hoff
            have hbuf : o.buf = [] := List.eq_nil_of_length_eq_zero hempty
            obtain ⟨h1, h2, h3, h4⟩ := ih 0 iovcnt len (rb - o.size) (headOk_zero _)
            refine ⟨h1, ?_, ?_, ?_⟩
            · simpa [hbuf] using h2
            · simpa [hbuf] using h3
            · rw [h4, blockSize_cons]
              ring
        · obtain ⟨-, h2, h3, h4⟩ :=
            ih 0 (iovcnt + 1) (len + (o.buf.drop offset).length) rb (headOk_zero _)
          rw [remainingFrom_zero, remainingFrom_zero] at h2
          rw [remainingFrom_zero] at h3
          refine ⟨hhead, ?_, ?_, ?_⟩
          · rw [remainingFrom, h2, remainingFrom]
          · rw [List.flatten_cons, remainingFrom]
            exact List.prefix_append_right_inj _ |>.mpr h3
          · simp only [blockSize_cons]
            omega
      · exact ⟨hhead, rfl, List.nil_prefix, rfl⟩

/-- Releasing `n` sent bytes leaves exactly the bytes after them. -/
theorem releaseSent_spec (blocks : List ReplyBlock) (n sentlen : Nat) (rb : Int)
    (hhead : HeadOk sentlen blocks) (hn : n ≤ (remainingFrom sentlen blocks).length) :
    let r := releaseSent blocks n sentlen rb
    HeadOk r.sentlen r.reply ∧
      remainingFrom r.sentlen r.reply = (remainingFrom sentlen blocks).drop n ∧
      r.replyBytes - blockSize r.reply = rb - blockSize blocks := by
  induction blocks generalizing n sentlen rb with
  | nil => simpa [releaseSent, remainingFrom] using hhead
  | cons o rest ih =>
      rw [releaseSent]
      split
      · next h0 => exact ⟨hhead, by simp [h0], rfl⟩
      split
      · next hlt =>
          have hpos : sentlen + n < o.used := by omega
          refine ⟨Or.inr hpos, ?_, rfl⟩
          have hle : n ≤ (o.buf.drop sentlen).length := by
            simp only [List.length_drop]
            exact Nat.le_of_lt hlt
          rw [remainingFrom, remainingFrom, List.drop_append_of_le_length hle, List.drop_drop]
      · next hge =>
          have hlen : (o.buf.drop sentlen).length = o.used - sentlen := by
            simp [ReplyBlock.used]
          have hn' : n - (o.used - sentlen) ≤ (remainingFrom 0 rest).length := by
            simp only [remainingFrom, List.length_append, hlen] at hn
            rw [remainingFrom_zero]
            omega
          obtain ⟨h1, h2, h3⟩ :=
            ih (n - (o.used - sentlen)) 0 (rb - o.size) (headOk_zero _) hn'
          have hnil : (o.buf.drop sentlen).drop n = [] :=
            List.drop_eq_nil_of_le (by omega)
          refine ⟨h1, ?_, ?_⟩
          · rw [h2, remainingFrom_zero, remainingFrom, List.drop_append, hlen, hnil,
              List.nil_append]
          · rw [h3, blockSize_cons]
            ring

/-! ## One round of sending -/

@[simp] theorem accountWritten_conn (c : Client) (n : Nat) : (accountWritten c n).conn = c.conn := by
  unfold accountWritten
  split
  · rfl
  · simp only
    split <;> rfl

/-- Accounting for `n` sent bytes drops them from what remains. -/
theorem accountWritten_spec {c : Client} (hc : ClientOk c) {n : Nat}
    (hn : n ≤ (remaining c).length) :
    ClientOk (accountWritten c n) ∧ remaining (accountWritten c n) = (remaining c).drop n := by
  obtain ⟨hsent, hbytes⟩ := hc
  unfold accountWritten
  split
  · next hbuf =>
      simp only [SentOk, hbuf, if_true] at hsent
      simp only [remaining, hbuf, if_true] at hn ⊢
      obtain ⟨h1, h2, h3⟩ := releaseSent_spec c.reply n c.sentlen c.replyBytes hsent hn
      refine ⟨⟨by simpa [SentOk, hbuf] using h1, ?_⟩, h2⟩
      simp only
      omega
  · next hbuf =>
      simp only [SentOk, hbuf, if_false] at hsent
      simp only [remaining, hbuf, if_false] at hn ⊢
      have hlen : (c.buf.drop c.sentlen).length = c.buf.length - c.sentlen := List.length_drop
      split
      · next hlt =>
          refine ⟨⟨?_, hbytes⟩, ?_⟩
          · simp only [SentOk, hbuf, if_false]
            omega
          · rw [List.drop_append_of_le_length (by omega), List.drop_drop]
      · next hge =>
          have hn' : n - (c.buf.length - c.sentlen) ≤ (remainingFrom 0 c.reply).length := by
            rw [List.length_append, hlen] at hn
            rw [remainingFrom_zero]
            omega
          obtain ⟨h1, h2, h3⟩ := releaseSent_spec c.reply (n - (c.buf.length - c.sentlen)) 0
            c.replyBytes (headOk_zero _) hn'
          have hnil : (c.buf.drop c.sentlen).drop n = [] :=
            List.drop_eq_nil_of_le (by omega)
          refine ⟨⟨by simpa [SentOk] using h1, ?_⟩, ?_⟩
          · simp only
            omega
          · simp only [if_true]
            rw [h2, remainingFrom_zero, List.drop_append, hlen, hnil, List.nil_append]

/-- What a round of sending keeps: nothing is lost between the socket and the client. -/
def Conserves (c c' : Client) : Prop :=
  ClientOk c' ∧
    c'.conn.sock.accepted ++ remaining c' = c.conn.sock.accepted ++ remaining c

theorem Conserves.refl {c : Client} (hc : ClientOk c) : Conserves c c := ⟨hc, rfl⟩

theorem Conserves.trans {a b c : Client} (hab : Conserves a b) (hbc : Conserves b c) :
    Conserves a c :=
  ⟨hbc.1, hbc.2.trans hab.2⟩

/-- If the socket takes nothing, a client with the same queue conserves the stream. -/
theorem conserves_of_not_taken {c c₁ : Client} {conn : Connection} (hc₁ : ClientOk c₁)
    (hrem : remaining c₁ = remaining c) (hacc : conn.sock.accepted = c.conn.sock.accepted) :
    Conserves c { c₁ with conn := conn } := by
  refine ⟨⟨hc₁.sent, hc₁.bytes⟩, ?_⟩
  have : remaining { c₁ with conn := conn } = remaining c₁ := rfl
  rw [this, hrem]
  exact congrArg (· ++ remaining c) hacc

/-- If the socket takes the first `n` bytes of what remains, accounting for them conserves the
stream. -/
theorem conserves_of_taken {c c₁ : Client} {conn : Connection} {n : Nat} (hc₁ : ClientOk c₁)
    (hrem : remaining c₁ = remaining c) (hn : n ≤ (remaining c).length)
    (hacc : conn.sock.accepted = c.conn.sock.accepted ++ (remaining c).take n) :
    Conserves c (accountWritten { c₁ with conn := conn } n) := by
  have hrem' : remaining { c₁ with conn := conn } = remaining c := hrem
  have hok : ClientOk { c₁ with conn := conn } := ⟨hc₁.sent, hc₁.bytes⟩
  obtain ⟨h1, h2⟩ := accountWritten_spec hok (n := n) (by rwa [hrem'])
  refine ⟨h1, ?_⟩
  rw [accountWritten_conn, h2, hrem', hacc, List.append_assoc, List.take_append_drop]

/-- The first half of `_writevToClient` keeps what remains, and the vector is a start of it. -/
theorem gatherReplies_spec {c c₁ : Client} {iov : List (List Byte)} (hc : ClientOk c)
    (hg : gatherReplies c = (iov, c₁)) :
    ClientOk c₁ ∧ remaining c₁ = remaining c ∧ c₁.conn = c.conn ∧
      iov.flatten <+: remaining c := by
  obtain ⟨hsent, hbytes⟩ := hc
  by_cases hbuf : c.buf = []
  · simp only [SentOk, if_pos hbuf] at hsent
    simp only [gatherReplies, if_pos hbuf, Prod.mk.injEq] at hg
    obtain ⟨rfl, rfl⟩ := hg
    obtain ⟨h1, h2, h3, h4⟩ := gather_spec c.reply c.sentlen [].length
      ([] : List (List Byte)).flatten.length c.replyBytes hsent
    refine ⟨⟨?_, ?_⟩, ?_, rfl, ?_⟩
    · simpa only [SentOk, if_pos hbuf] using h1
    · dsimp only at h4 ⊢
      omega
    · simpa only [remaining, if_pos hbuf] using h2
    · simpa only [remaining, if_pos hbuf, List.nil_append] using h3
  · simp only [gatherReplies, if_neg hbuf, Prod.mk.injEq] at hg
    obtain ⟨rfl, rfl⟩ := hg
    obtain ⟨-, h2, h3, h4⟩ := gather_spec c.reply 0 [c.buf.drop c.sentlen].length
      [c.buf.drop c.sentlen].flatten.length c.replyBytes (headOk_zero _)
    rw [remainingFrom_zero, remainingFrom_zero] at h2
    rw [remainingFrom_zero] at h3
    refine ⟨⟨?_, ?_⟩, ?_, rfl, ?_⟩
    · simpa only [SentOk, if_neg hbuf] using hsent
    · dsimp only at h4 ⊢
      omega
    · simp only [remaining, if_neg hbuf, h2]
    · simp only [remaining, if_neg hbuf, List.singleton_append, List.flatten_cons]
      exact (List.prefix_append_right_inj _).mpr h3

/-- `_writevToClient` conserves the stream. -/
theorem writevToClientOnce_conserves {c : Client} (hc : ClientOk c) :
    Conserves c (writevToClientOnce c).2.2 := by
  unfold writevToClientOnce
  rcases hg : gatherReplies c with ⟨iov, c₁⟩
  obtain ⟨hok, hrem, hconn, hpre⟩ := gatherReplies_spec hc hg
  simp only [hconn]
  split
  · exact ⟨hok, by rw [hrem, hconn]⟩
  have hw := connSocketWritev_spec c.conn iov
  split
  · next e conn heq =>
      rw [heq] at hw
      exact conserves_of_not_taken hok hrem hw
  · next conn heq =>
      rw [heq] at hw
      exact conserves_of_not_taken hok hrem (by simpa using hw)
  · next n conn heq =>
      rw [heq] at hw
      obtain ⟨hle, hacc⟩ := hw
      refine conserves_of_taken hok hrem (hle.trans hpre.length_le) ?_
      rw [hacc]
      obtain ⟨tl, htl⟩ := hpre
      rw [← htl, List.take_append_of_le_length hle]

/-- `_writeToClient` conserves the stream. -/
theorem writeToClientOnce_conserves {c : Client} (hc : ClientOk c) :
    Conserves c (writeToClientOnce c).2.2 := by
  unfold writeToClientOnce
  split
  · exact writevToClientOnce_conserves hc
  next hreply =>
  have hnil : c.reply = [] := by simpa using hreply
  split
  · next hbuf =>
      have hrem : remaining c = c.buf.drop c.sentlen := by simp [remaining, hbuf, hnil]
      have hsent : c.sentlen < c.buf.length := by simpa [SentOk, hbuf] using hc.sent
      simp only [connSocketWrite]
      rcases hw : c.conn.sock.write (c.buf.drop c.sentlen) with ⟨_ | n, s⟩
      · exact conserves_of_not_taken hc rfl (by simpa using (Socket.write_error hw).1)
      · obtain ⟨hle, hacc, -⟩ := Socket.write_ok hw
        cases n with
        | zero => exact conserves_of_not_taken hc rfl (by simpa using hacc)
        | succ n =>
            have hlen : (c.buf.drop c.sentlen).length = c.buf.length - c.sentlen :=
              List.length_drop
            simp only
            -- the buffer is left empty exactly when all of it was taken
            split
            · next hall =>
                refine ⟨⟨by simp [SentOk, hnil], by simpa [hnil] using hc.bytes⟩, ?_⟩
                have htake : (c.buf.drop c.sentlen).take (n + 1) = c.buf.drop c.sentlen :=
                  List.take_of_length_le (by omega)
                simp [remaining, hnil, remainingFrom, hacc, htake, hbuf]
            · next hpart =>
                refine ⟨⟨?_, hc.bytes⟩, ?_⟩
                · simp only [SentOk, hbuf, if_false]
                  omega
                · have hrem' : ∀ conn, remaining { c with
                      sentlen := c.sentlen + (n + 1), conn := conn } =
                      (c.buf.drop c.sentlen).drop (n + 1) := by
                    intro conn
                    simp [remaining, hbuf, hnil]
                  rw [hrem', hrem]
                  simp [hacc]
  · exact Conserves.refl hc

/-! ## Whole calls -/

theorem writeToClientLoop_conserves (overLimit : Nat → Bool) (fuel tot : Nat) (nw : Int)
    {c : Client} (hc : ClientOk c) :
    Conserves c (writeToClientLoop overLimit fuel tot nw c).2 := by
  induction fuel generalizing tot nw c with
  | zero => exact Conserves.refl hc
  | succ fuel ih =>
      rw [writeToClientLoop]
      split
      · have h := writeToClientOnce_conserves hc
        rcases hw : writeToClientOnce c with ⟨st, n, c'⟩
        rw [hw] at h
        cases st with
        | err => exact h
        | ok =>
            simp only
            split
            · exact h
            · exact h.trans (ih _ _ h.1)
      · exact Conserves.refl hc

/-! ## The loop ends -/

/-- A vectored write that sends something uses up an outcome of the socket. -/
theorem writevLoop_outcomes (iov : List (List Byte)) (ret : Nat) (s : Socket) :
    (writevLoop iov ret s).2.outcomes.length ≤ s.outcomes.length ∧
      ∀ n, (writevLoop iov ret s).1 = .ok n → ret < n →
        (writevLoop iov ret s).2.outcomes.length < s.outcomes.length := by
  induction iov generalizing ret s with
  | nil =>
      refine ⟨Nat.le_refl _, ?_⟩
      intro n hn hlt
      cases hn
      omega
  | cons seg iov ih =>
      by_cases hseg : seg = []
      · simpa [writevLoop, hseg] using ih ret s
      rw [writevLoop, if_neg hseg]
      rcases hw : s.write seg with ⟨_ | rc, s'⟩
      · refine ⟨(Socket.write_error hw).2, ?_⟩
        intro n hn hlt
        by_cases hret : ret = 0 <;> simp [hret] at hn
        omega
      · have hlt := (Socket.write_ok hw).2.2
        simp only
        split
        · exact ⟨Nat.le_of_lt hlt, fun _ _ _ => hlt⟩
        · have h := (ih (ret + rc) s').1
          exact ⟨by omega, fun _ _ _ => by omega⟩

/-- A vector is empty only when there is nothing but empty blocks. -/
theorem gather_iov_nil {blocks : List ReplyBlock} {offset iovcnt len : Nat} {rb : Int}
    (hcnt : iovcnt < iovMax) (hlen : len < netMaxWritesPerEvent)
    (h : (gather blocks offset iovcnt len rb).iov = []) :
    (gather blocks offset iovcnt len rb).reply = [] := by
  induction blocks generalizing offset rb with
  | nil => rfl
  | cons o rest ih =>
      rw [gather, if_pos ⟨hcnt, hlen⟩] at h ⊢
      split
      · next hempty =>
          rw [if_pos hempty] at h
          exact ih h
      · next hfull =>
          rw [if_neg hfull] at h
          cases h

/-- A round that succeeds leaves nothing to send or uses up an outcome of the socket. -/
theorem writeToClientOnce_progress {c c' : Client} {n : Int}
    (h : writeToClientOnce c = (.ok, n, c')) (hpend : clientHasPendingReplies c = true) :
    clientHasPendingReplies c' = false ∨
      c'.conn.sock.outcomes.length < c.conn.sock.outcomes.length := by
  unfold writeToClientOnce at h
  split at h
  · rcases hg : gatherReplies c with ⟨iov, c₁⟩
    have hconn : c₁.conn = c.conn := by rw [← (Prod.mk.inj hg).2]
    simp only [writevToClientOnce, hg, hconn] at h
    split at h
    · next hnil =>
        cases h
        left
        simp only [gatherReplies, Prod.mk.injEq] at hg
        obtain ⟨hiov, rfl⟩ := hg
        rw [hnil, List.append_eq_nil_iff] at hiov
        have hbuf : c.buf = [] := by
          by_contra hne
          simp [hne] at hiov
        have hreply := gather_iov_nil (by simp [hbuf, iovMax])
          (by simp [hbuf, netMaxWritesPerEvent]) hiov.2
        simp [clientHasPendingReplies, hbuf] at hreply ⊢
        exact hreply
    · split at h
      · cases h
      · cases h
      · next k conn hw =>
          cases h
          right
          have hout := (writevLoop_outcomes iov 0 c.conn.sock).2 (k + 1)
          obtain ⟨hr, hs⟩ := Prod.mk.inj hw
          rw [accountWritten_conn, ← hs, noteResult_sock]
          exact hout hr (Nat.succ_pos k)
  · next hreply =>
      split at h
      · simp only [connSocketWrite] at h
        rcases hw : c.conn.sock.write (c.buf.drop c.sentlen) with ⟨_ | k, s⟩
        · rw [hw] at h
          cases h
        · have hlt := (Socket.write_ok hw).2.2
          rw [hw] at h
          cases k with
          | zero => cases h
          | succ k =>
              right
              simp only at h
              split at h <;> cases h <;> simpa using hlt
      · next hbuf =>
          simp [clientHasPendingReplies] at hpend
          simp_all

/-- More rounds than the socket has outcomes make no difference: the loop has ended by then. -/
theorem writeToClientLoop_fuel (overLimit : Nat → Bool) {fuel fuel' tot : Nat} {nw : Int}
    {c : Client} (hfuel : c.conn.sock.outcomes.length + 2 ≤ fuel)
    (hfuel' : c.conn.sock.outcomes.length + 2 ≤ fuel') :
    writeToClientLoop overLimit fuel tot nw c = writeToClientLoop overLimit fuel' tot nw c := by
  induction fuel generalizing fuel' tot nw c with
  | zero => omega
  | succ fuel ih =>
      obtain ⟨fuel', rfl⟩ : ∃ k, fuel' = k + 1 := ⟨fuel' - 1, by omega⟩
      rw [writeToClientLoop, writeToClientLoop]
      split
      · next hpend =>
          rcases hw : writeToClientOnce c with ⟨st, n, c'⟩
          cases st with
          | err => rfl
          | ok =>
              simp only
              split
              · rfl
              · rcases writeToClientOnce_progress hw hpend with hdone | hlt
                · obtain ⟨k, rfl⟩ : ∃ k, fuel = k + 1 := ⟨fuel - 1, by omega⟩
                  obtain ⟨k', rfl⟩ : ∃ k, fuel' = k + 1 := ⟨fuel' - 1, by omega⟩
                  simp [writeToClientLoop, hdone]
                · exact ih (by omega) (by omega)
      · rfl

end WasiPorts.Redis.Reply
