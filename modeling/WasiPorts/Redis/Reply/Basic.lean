import Mathlib.Algebra.BigOperators.Group.List.Basic
import Mathlib.Tactic.Ring
import WasiPorts.Lib.Run
import WasiPorts.Lib.Socket

/-!
# Client replies

The output side of a Redis client: `networking.c` queues replies in a static buffer followed by a
list of blocks, and drains both through `socket.c`. On WASI a vectored write is done segment by
segment (`connSocketWritev`), because the host's `writev` only sends the first segment.

The model follows `_addReplyToBuffer`, `_addReplyProtoToList`, `_writevToClient`,
`_writeToClient` and `writeToClient` for a client that is not a replica. The static buffer is the
list of its first `bufpos` bytes. `sentlen` counts bytes of the static buffer while that is not
empty, and bytes of the first block of the list afterwards.
-/

namespace WasiPorts.Redis.Reply

open WasiPorts.Run

/-! ## Data -/

/-- `IOV_MAX` of wasi-libc; every socket connection sets `conn->iovcnt` to it. -/
def iovMax : Nat := 1024

/-- `NET_MAX_WRITES_PER_EVENT`. -/
def netMaxWritesPerEvent : Nat := 1024 * 64

/-- `PROTO_REPLY_CHUNK_BYTES`. -/
def protoReplyChunkBytes : Nat := 16 * 1024

inductive ConnState where
  | none | connecting | accepting | connected | closed | error
  deriving DecidableEq, Repr

structure Connection where
  state : ConnState
  lastErrno : Option Errno
  sock : Socket
  deriving DecidableEq, Repr

/-- `clientReplyBlock`: `buf` holds the `used` bytes of an allocation of `size` bytes. -/
structure ReplyBlock where
  buf : List Byte
  size : Nat
  used_le_size : buf.length ≤ size

def ReplyBlock.used (o : ReplyBlock) : Nat := o.buf.length

structure Client where
  buf : List Byte
  bufUsableSize : Nat
  sentlen : Nat
  reply : List ReplyBlock
  replyBytes : Int
  closeAfterReply : Bool
  closeAsap : Bool
  /-- `CLIENT_REPLY_OFF` or `CLIENT_REPLY_SKIP` is set. -/
  replyOff : Bool
  conn : Connection

/-- `C_OK` and `C_ERR`. -/
inductive Status where
  | ok | err
  deriving DecidableEq, Repr

/-! ## The socket connection (`socket.c`) -/

/-- The common tail of `connSocketWrite` and `connSocketWritev`: remember an error other than
`EAGAIN`, and take a connected socket out of that state unless it was `EINTR`. -/
def Connection.noteResult (conn : Connection) : Except Errno Nat → Connection
  | .ok _ => conn
  | .error e =>
    if e = .eagain then conn
    else
      { conn with
        lastErrno := some e
        state := if e ≠ .eintr ∧ conn.state = .connected then .error else conn.state }

def connSocketWrite (conn : Connection) (data : List Byte) : Except Errno Nat × Connection :=
  let (r, s) := conn.sock.write data
  (r, { conn with sock := s }.noteResult r)

/-- The WASI loop of `connSocketWritev`; `ret` counts the bytes taken by earlier segments. -/
def writevLoop : List (List Byte) → Nat → Socket → Except Errno Nat × Socket
  | [], ret, s => (.ok ret, s)
  | seg :: iov, ret, s =>
    if seg = [] then writevLoop iov ret s
    else
      match s.write seg with
      | (.error e, s') => (if ret = 0 then .error e else .ok ret, s')
      | (.ok rc, s') =>
        -- a partial write is left to the next event
        if rc < seg.length then (.ok (ret + rc), s') else writevLoop iov (ret + rc) s'

def connSocketWritev (conn : Connection) (iov : List (List Byte)) :
    Except Errno Nat × Connection :=
  let (r, s) := writevLoop iov 0 conn.sock
  (r, { conn with sock := s }.noteResult r)

/-! ## Queueing replies (`networking.c`) -/

/-- `_addReplyToBuffer`: the count of bytes that went into the static buffer, and the client. -/
def addReplyToBuffer (c : Client) (s : List Byte) : Nat × Client :=
  let available := c.bufUsableSize - c.buf.length
  if c.reply ≠ [] then (0, c)
  else
    let replyLen := min s.length available
    (replyLen, { c with buf := c.buf ++ s.take replyLen })

/-- Fill the free space of a block; what does not fit is returned. -/
def ReplyBlock.fill (o : ReplyBlock) (s : List Byte) : ReplyBlock × List Byte :=
  let copy := min s.length (o.size - o.used)
  (⟨o.buf ++ s.take copy, o.size, by
      have := o.used_le_size
      simp only [copy, ReplyBlock.used, List.length_append, List.length_take]
      omega⟩,
    s.drop copy)

/-- A new block for `s`. `slack` is the internal fragmentation `zmalloc_usable` hands out on top
of the requested size. -/
def ReplyBlock.alloc (s : List Byte) (slack : Nat) : ReplyBlock :=
  ⟨s, max s.length protoReplyChunkBytes + slack, by omega⟩

/-- `_addReplyProtoToList` on the client's own reply list. -/
def addReplyProtoToList (c : Client) (s : List Byte) (slack : Nat) : Client :=
  match c.reply.getLast? with
  | none =>
    if s = [] then c
    else
      let tail := ReplyBlock.alloc s slack
      { c with reply := c.reply ++ [tail], replyBytes := c.replyBytes + tail.size }
  | some tail =>
    let (tail', rest) := tail.fill s
    let reply' := c.reply.dropLast ++ [tail']
    if rest = [] then { c with reply := reply' }
    else
      let fresh := ReplyBlock.alloc rest slack
      { c with reply := reply' ++ [fresh], replyBytes := c.replyBytes + fresh.size }

/-- `_addReplyToBufferOrList`. -/
def addReplyToBufferOrList (c : Client) (s : List Byte) (slack : Nat) : Client :=
  if c.closeAfterReply then c
  else
    let (replyLen, c') := addReplyToBuffer c s
    if replyLen < s.length then addReplyProtoToList c' (s.drop replyLen) slack else c'

/-- `prepareClientToWrite` for a client with a connection that is neither a master nor owned by a
script: whether data may be appended. -/
def prepareClientToWrite (c : Client) : Bool := !c.closeAsap && !c.replyOff

/-- `addReplyProto`. -/
def addReplyProto (c : Client) (s : List Byte) (slack : Nat) : Client :=
  if prepareClientToWrite c then addReplyToBufferOrList c s slack else c

/-- The block with its allocation cut down to the used part. -/
def ReplyBlock.trim (o : ReplyBlock) (slack : Nat) : ReplyBlock :=
  ⟨o.buf, o.used + slack, Nat.le_add_right _ _⟩

/-- `trimReplyUnusedTailSpace`. -/
def trimReplyUnusedTailSpace (c : Client) (slack : Nat) : Client :=
  match c.reply.getLast? with
  | none => c
  | some tail =>
    if tail.size / 4 < tail.size - tail.used ∧ tail.used < protoReplyChunkBytes then
      let tail' := tail.trim slack
      { c with
        reply := c.reply.dropLast ++ [tail']
        replyBytes := c.replyBytes + tail'.size - tail.size }
    else c

/-- The second half of `setDeferredReply`: put `s` in front of the blocks after the placeholder,
into the first of them if it has room, else into a block of its own. The blocks and the sizes
added to `reply_bytes` are returned. -/
def glueDeferred (s : List Byte) (slack : Nat) : List ReplyBlock → List ReplyBlock × Nat
  | [] => ([⟨s, s.length + slack, by omega⟩], s.length + slack)
  | next :: after =>
    if h : s.length ≤ next.size - next.used ∧ next.used < protoReplyChunkBytes * 4 then
      (⟨s ++ next.buf, next.size, by
          have := next.used_le_size
          have := h.1
          simp only [ReplyBlock.used, List.length_append] at *
          omega⟩ :: after, 0)
    else (⟨s, s.length + slack, by omega⟩ :: next :: after, s.length + slack)

/-- `setDeferredReply` for a placeholder at the end of `c.reply` with the blocks `next` after it. -/
def setDeferredReply (c : Client) (s : List Byte) (slack : Nat) (next : List ReplyBlock) :
    Client :=
  match c.reply.getLast? with
  | none =>
    let (blocks, added) := glueDeferred s slack next
    { c with reply := blocks, replyBytes := c.replyBytes + added }
  | some prev =>
    if 0 < prev.size - prev.used then
      let (prev', rest) := prev.fill s
      let reply' := c.reply.dropLast ++ [prev']
      if rest = [] then { c with reply := reply' ++ next }
      else
        let (blocks, added) := glueDeferred rest slack next
        { c with reply := reply' ++ blocks, replyBytes := c.replyBytes + added }
    else
      let (blocks, added) := glueDeferred s slack next
      { c with reply := c.reply ++ blocks, replyBytes := c.replyBytes + added }

/-- A reply whose length is known only at its end: `addReplyDeferredLen`, which trims the tail and
adds a placeholder, the blocks `body` that the command appends behind it, and `setDeferredReply`
with the header `s`. The placeholder never outlives the command. -/
def addReplyDeferred (c : Client) (s : List Byte) (body : List ReplyBlock)
    (trimSlack slack : Nat) : Client :=
  if prepareClientToWrite c then
    let c := trimReplyUnusedTailSpace c trimSlack
    let c := { c with replyBytes := c.replyBytes + (body.map (·.size)).sum }
    setDeferredReply c s slack body
  else c

/-- Ready-made blocks, some of them possibly empty, linked to the end of the list: this is what
happens to the pending push messages at the end of a command. -/
def joinReplyBlocks (c : Client) (blocks : List ReplyBlock) : Client :=
  { c with
    reply := c.reply ++ blocks
    replyBytes := c.replyBytes + (blocks.map (·.size)).sum }

/-- `AddReplyFromClient`, for a source client with static buffer `buf` and reply list `blocks`. -/
def addReplyFromClient (c : Client) (buf : List Byte) (blocks : List ReplyBlock) (slack : Nat) :
    Client :=
  let c := addReplyProto c buf slack
  if prepareClientToWrite c && !c.closeAfterReply then joinReplyBlocks c blocks else c

/-! ## Sending replies (`networking.c`) -/

/-- `clientHasPendingReplies`. -/
def clientHasPendingReplies (c : Client) : Bool := c.buf ≠ [] ∨ c.reply ≠ []

/-- What the first loop of `_writevToClient` leaves behind. -/
structure Gathered where
  iov : List (List Byte)
  reply : List ReplyBlock
  replyBytes : Int

/-- The first loop of `_writevToClient`: collect segments from the reply list until the vector is
full or long enough, releasing the empty blocks met on the way. -/
def gather : List ReplyBlock → (offset iovcnt iovBytesLen : Nat) → Int → Gathered
  | [], _, _, _, replyBytes => ⟨[], [], replyBytes⟩
  | o :: rest, offset, iovcnt, iovBytesLen, replyBytes =>
    if iovcnt < iovMax ∧ iovBytesLen < netMaxWritesPerEvent then
      if o.used = 0 then gather rest 0 iovcnt iovBytesLen (replyBytes - o.size)
      else
        let seg := o.buf.drop offset
        let g := gather rest 0 (iovcnt + 1) (iovBytesLen + seg.length) replyBytes
        ⟨seg :: g.iov, o :: g.reply, g.replyBytes⟩
    else ⟨[], o :: rest, replyBytes⟩

/-- What the second loop of `_writevToClient` leaves behind. -/
structure Released where
  reply : List ReplyBlock
  sentlen : Nat
  replyBytes : Int

/-- The second loop of `_writevToClient`: release the blocks that were sent completely. -/
def releaseSent : List ReplyBlock → (remaining sentlen : Nat) → Int → Released
  | [], _, sentlen, replyBytes => ⟨[], sentlen, replyBytes⟩
  | o :: rest, remaining, sentlen, replyBytes =>
    if remaining = 0 then ⟨o :: rest, sentlen, replyBytes⟩
    else if remaining < o.used - sentlen then ⟨o :: rest, sentlen + remaining, replyBytes⟩
    else releaseSent rest (remaining - (o.used - sentlen)) 0 (replyBytes - o.size)

/-- The second half of `_writevToClient`, after `n` bytes were taken by the socket. -/
def accountWritten (c : Client) (n : Nat) : Client :=
  if c.buf = [] then
    let r := releaseSent c.reply n c.sentlen c.replyBytes
    { c with reply := r.reply, sentlen := r.sentlen, replyBytes := r.replyBytes }
  else
    let bufLen := c.buf.length - c.sentlen
    if n < bufLen then { c with sentlen := c.sentlen + n }
    else
      let r := releaseSent c.reply (n - bufLen) 0 c.replyBytes
      { c with buf := [], reply := r.reply, sentlen := r.sentlen, replyBytes := r.replyBytes }

/-- The first half of `_writevToClient`: the vector, and the client with the empty blocks met on
the way released. -/
def gatherReplies (c : Client) : List (List Byte) × Client :=
  let iov := if c.buf = [] then [] else [c.buf.drop c.sentlen]
  -- `sentlen` refers to the first block only while the static buffer is empty
  let offset := if c.buf = [] then c.sentlen else 0
  let g := gather c.reply offset iov.length iov.flatten.length c.replyBytes
  (iov ++ g.iov, { c with reply := g.reply, replyBytes := g.replyBytes })

/-- `_writevToClient`: the status, `nwritten` and the client. -/
def writevToClientOnce (c : Client) : Status × Int × Client :=
  let (iov, c) := gatherReplies c
  if iov = [] then (.ok, 0, c)
  else
    match connSocketWritev c.conn iov with
    | (.error _, conn) => (.err, -1, { c with conn := conn })
    | (.ok 0, conn) => (.err, 0, { c with conn := conn })
    | (.ok (n + 1), conn) => (.ok, n + 1, accountWritten { c with conn := conn } (n + 1))

/-- `_writeToClient` for a client that is not a replica. -/
def writeToClientOnce (c : Client) : Status × Int × Client :=
  if c.reply ≠ [] then writevToClientOnce c
  else if c.buf ≠ [] then
    match connSocketWrite c.conn (c.buf.drop c.sentlen) with
    | (.error _, conn) => (.err, -1, { c with conn := conn })
    | (.ok 0, conn) => (.err, 0, { c with conn := conn })
    | (.ok (n + 1), conn) =>
      let sentlen := c.sentlen + (n + 1)
      if sentlen = c.buf.length then (.ok, n + 1, { c with buf := [], sentlen := 0, conn := conn })
      else (.ok, n + 1, { c with sentlen := sentlen, conn := conn })
  else (.ok, 0, c)

/-- The loop of `writeToClient`: the last `nwritten` and the client. `overLimit` says, for a total
written so far, that the server is above `maxmemory`, in which case the loop goes on past
`NET_MAX_WRITES_PER_EVENT`. Every round that goes on uses up an outcome of the socket, which
bounds the number of rounds (`writeToClientLoop_fuel`). -/
def writeToClientLoop (overLimit : Nat → Bool) : (fuel totwritten : Nat) → Int → Client →
    Int × Client
  | 0, _, nwritten, c => (nwritten, c)
  | fuel + 1, totwritten, nwritten, c =>
    if clientHasPendingReplies c then
      match writeToClientOnce c with
      | (.err, n, c') => (n, c')
      | (.ok, n, c') =>
        let totwritten := totwritten + n.toNat
        if netMaxWritesPerEvent < totwritten ∧ overLimit totwritten = false then (n, c')
        else writeToClientLoop overLimit fuel totwritten n c'
    else (nwritten, c)

/-- `writeToClient`, with the memory accounting and the removal of the write handler left out. -/
def writeToClient (overLimit : Nat → Bool) (c : Client) : Status × Client :=
  let (nwritten, c) :=
    writeToClientLoop overLimit (c.conn.sock.outcomes.length + 2) 0 0 c
  if nwritten = -1 ∧ c.conn.state ≠ .connected then (.err, { c with closeAsap := true })
  else if clientHasPendingReplies c then (.ok, c)
  else
    let c := { c with sentlen := 0 }
    if c.closeAfterReply then (.err, { c with closeAsap := true }) else (.ok, c)

end WasiPorts.Redis.Reply
