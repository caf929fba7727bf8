import WasiPorts.Redis.Reply.Sending
import WasiPorts.Redis.Reply.Queueing

/-!
# Replies are delivered exactly once and in order

A session runs one client that is not a replica: replies are queued in any of the ways of
`networking.c`, flags change, and `writeToClient` is called, in any order and with any outcomes of
the socket. Beside the client it records `stream`, the concatenation of the replies queued so far.
-/

namespace WasiPorts.Redis.Reply

open WasiPorts.Run

structure Session where
  client : Client
  stream : List Byte

/-- A connected client without replies. `outcomes` is what the socket will do, `usable` the size
of the static buffer. -/
def Session.start (outcomes : List WriteOutcome) (usable : Nat) : Session where
  client :=
    { buf := [], bufUsableSize := usable, sentlen := 0, reply := [], replyBytes := 0
      closeAfterReply := false, closeAsap := false, replyOff := false
      conn := ⟨.connected, none, ⟨outcomes, []⟩⟩ }
  stream := []

inductive Op where
  | addReply (s : List Byte) (slack : Nat)
  | addDeferred (header : List Byte) (body : List ReplyBlock) (trimSlack slack : Nat)
  | addFromClient (buf : List Byte) (blocks : List ReplyBlock) (slack : Nat)
  | joinBlocks (blocks : List ReplyBlock)
  | setReplyOff (off : Bool)
  | setCloseAfterReply
  | freeClientAsync
  | write (overLimit : Nat → Bool)

/-- The client after an operation. -/
def Op.apply (c : Client) : Op → Client
  | .addReply s slack => addReplyProto c s slack
  | .addDeferred header body trimSlack slack => addReplyDeferred c header body trimSlack slack
  | .addFromClient buf blocks slack => addReplyFromClient c buf blocks slack
  | .joinBlocks blocks => joinReplyBlocks c blocks
  | .setReplyOff off => { c with replyOff := off }
  | .setCloseAfterReply => { c with closeAfterReply := true }
  | .freeClientAsync => { c with closeAsap := true }
  | .write overLimit => (writeToClient overLimit c).2

/-- The bytes an operation adds to the reply stream. -/
def Op.added (c : Client) : Op → List Byte
  | .addReply s _ => queued c s
  | .addDeferred header body _ _ =>
    if prepareClientToWrite c then header ++ blockBytes body else []
  | .addFromClient buf blocks slack =>
    queued c buf ++ queued (addReplyProto c buf slack) (blockBytes blocks)
  | .joinBlocks blocks => blockBytes blocks
  | .setReplyOff _ | .setCloseAfterReply | .freeClientAsync | .write _ => []

def Session.step (x : Session) (op : Op) : Session :=
  ⟨op.apply x.client, x.stream ++ op.added x.client⟩

/-- The socket has accepted a prefix of the stream, the client holds the rest of it, and
`reply_bytes` is the size of the listed blocks. -/
structure Delivered (x : Session) : Prop where
  accepted : x.client.conn.sock.accepted <+: x.stream
  rest : x.client.conn.sock.accepted ++ remaining x.client = x.stream
  bytes : x.client.replyBytes = blockSize x.client.reply

/-! ## Steps -/

structure Inv (x : Session) : Prop where
  ok : ClientOk x.client
  rest : x.client.conn.sock.accepted ++ remaining x.client = x.stream

theorem Inv.delivered {x : Session} (h : Inv x) : Delivered x :=
  ⟨⟨_, h.rest⟩, h.rest, h.ok.bytes⟩

theorem inv_of_appends {x : Session} (hx : Inv x) {c : Client} {s : List Byte}
    (h : Appends x.client c s) : Inv ⟨c, x.stream ++ s⟩ := by
  refine ⟨h.ok, ?_⟩
  change c.conn.sock.accepted ++ remaining c = x.stream ++ s
  rw [h.rest, h.conn, ← hx.rest, List.append_assoc]

/-- Flags are not part of the stream. -/
theorem appends_of_flags {c c' : Client} (hc : ClientOk c)
    (h : c' = { c with
      closeAfterReply := c'.closeAfterReply, closeAsap := c'.closeAsap, replyOff := c'.replyOff }) :
    Appends c c' [] := by
  rw [h]
  exact ⟨⟨hc.sent, hc.bytes⟩, (List.append_nil _).symm, rfl⟩

theorem inv_of_conserves {x : Session} (hx : Inv x) {c : Client} (h : Conserves x.client c) :
    Inv ⟨c, x.stream⟩ :=
  ⟨h.1, h.2.trans hx.rest⟩

theorem writeToClient_conserves (overLimit : Nat → Bool) {c : Client} (hc : ClientOk c) :
    Conserves c (writeToClient overLimit c).2 := by
  have h := writeToClientLoop_conserves overLimit (c.conn.sock.outcomes.length + 2) 0 0 hc
  unfold writeToClient
  rcases hl : writeToClientLoop overLimit (c.conn.sock.outcomes.length + 2) 0 0 c with ⟨n, c'⟩
  rw [hl] at h
  simp only
  split
  · exact ⟨⟨h.1.sent, h.1.bytes⟩, h.2⟩
  split
  · exact h
  · next hpend =>
      -- nothing is pending, so `sentlen` is 0 already
      have hnil : c'.buf = [] ∧ c'.reply = [] := by
        simpa [clientHasPendingReplies] using hpend
      have hzero : c'.sentlen = 0 := by
        simpa only [SentOk, hnil.1, hnil.2, if_true, HeadOk] using h.1.sent
      have hsent : ∀ asap, { c' with sentlen := 0, closeAsap := asap } =
          { c' with closeAsap := asap } := by
        intro asap
        rw [← hzero]
      split
      · rw [hsent]
        exact ⟨⟨h.1.sent, h.1.bytes⟩, h.2⟩
      · exact hsent c'.closeAsap ▸ h

theorem step_inv (x : Session) (op : Op) (hx : Inv x) : Inv (x.step op) := by
  cases op with
  | addReply s slack => exact inv_of_appends hx (addReplyProto_appends hx.ok s slack)
  | addDeferred header body trimSlack slack =>
      exact inv_of_appends hx (addReplyDeferred_appends hx.ok header body trimSlack slack)
  | addFromClient buf blocks slack =>
      exact inv_of_appends hx (addReplyFromClient_appends hx.ok buf blocks slack)
  | joinBlocks blocks => exact inv_of_appends hx (joinReplyBlocks_appends hx.ok blocks)
  | setReplyOff off => exact inv_of_appends hx (appends_of_flags hx.ok rfl)
  | setCloseAfterReply => exact inv_of_appends hx (appends_of_flags hx.ok rfl)
  | freeClientAsync => exact inv_of_appends hx (appends_of_flags hx.ok rfl)
  | write overLimit =>
      change Inv ⟨_, x.stream ++ []⟩
      rw [List.append_nil]
      exact inv_of_conserves hx (writeToClient_conserves overLimit hx.ok)

theorem start_inv (outcomes : List WriteOutcome) (usable : Nat) :
    Inv (Session.start outcomes usable) :=
  ⟨⟨rfl, rfl⟩, rfl⟩

/-! ## Runs -/

/-- In every run of a session the socket has accepted a prefix of the reply stream and the client
holds exactly the rest of it — between operations and after any number of rounds of a
`writeToClient` call; and the vectored write reports what the socket accepted. -/
theorem replies_delivered (outcomes : List WriteOutcome) (usable : Nat) (ops : List Op) :
    Always Session.step
      (fun x => Delivered x ∧ ∀ overLimit rounds, Delivered
        ⟨(writeToClientLoop overLimit rounds 0 0 x.client).2, x.stream⟩)
      (Session.start outcomes usable) ops ∧
    ∀ (conn : Connection) (iov : List (List Byte)),
      match connSocketWritev conn iov with
      | (.ok n, conn') => n ≤ iov.flatten.length ∧
          conn'.sock.accepted = conn.sock.accepted ++ iov.flatten.take n
      | (.error _, conn') => conn'.sock.accepted = conn.sock.accepted := by
  refine ⟨?_, connSocketWritev_spec⟩
  refine (Always.of_step step_inv (start_inv outcomes usable) ops).mono ?_
  intro x hx
  refine ⟨hx.delivered, ?_⟩
  intro overLimit rounds
  exact (inv_of_conserves hx (writeToClientLoop_conserves overLimit rounds 0 0 hx.ok)).delivered

end WasiPorts.Redis.Reply
