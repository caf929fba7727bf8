import WasiPorts.Redis.Reply.Basic

/-!
# The invariant of a client's output

What the socket has accepted, followed by what the client still holds (`remaining`), is the stream
of replies appended so far. The two other parts of the invariant make that meaningful: `sentlen`
points into the piece it refers to (`SentOk`), and `replyBytes` is the total size of the listed
blocks.
-/

namespace WasiPorts.Redis.Reply

/-! ## What is still to be sent -/

/-- The bytes of a block list. -/
def blockBytes (blocks : List ReplyBlock) : List Byte := (blocks.map (·.buf)).flatten

/-- The bytes of a block list of which the first `sent` bytes of the head have gone out. -/
def remainingFrom (sent : Nat) : List ReplyBlock → List Byte
  | [] => []
  | o :: rest => o.buf.drop sent ++ blockBytes rest

/-- The part of the reply stream a client still holds: the static buffer from `sentlen` on and
then the list, or the list with `sentlen` applied to its head when the buffer is empty. -/
def remaining (c : Client) : List Byte :=
  if c.buf = [] then remainingFrom c.sentlen c.reply
  else c.buf.drop c.sentlen ++ blockBytes c.reply

/-- The total size of a block list. -/
def blockSize (blocks : List ReplyBlock) : Int := ((blocks.map (·.size)).sum : Nat)

/-- `sent` is a position in the head of the list (position 0 always is). -/
def HeadOk (sent : Nat) : List ReplyBlock → Prop
  | [] => sent = 0
  | o :: _ => sent = 0 ∨ sent < o.used

/-- `sentlen` is a position in the piece it refers to. -/
def SentOk (c : Client) : Prop :=
  if c.buf = [] then HeadOk c.sentlen c.reply else c.sentlen < c.buf.length

/-- The client invariant, without the stream. -/
structure ClientOk (c : Client) : Prop where
  sent : SentOk c
  bytes : c.replyBytes = blockSize c.reply

@[simp] theorem blockBytes_nil : blockBytes [] = [] := rfl

@[simp] theorem blockBytes_cons (o : ReplyBlock) (l : List ReplyBlock) :
    blockBytes (o :: l) = o.buf ++ blockBytes l := rfl

@[simp] theorem blockBytes_append (l₁ l₂ : List ReplyBlock) :
    blockBytes (l₁ ++ l₂) = blockBytes l₁ ++ blockBytes l₂ := by
  simp [blockBytes]

@[simp] theorem blockSize_nil : blockSize [] = 0 := rfl

@[simp] theorem blockSize_cons (o : ReplyBlock) (l : List ReplyBlock) :
    blockSize (o :: l) = o.size + blockSize l := by
  simp [blockSize]

@[simp] theorem blockSize_append (l₁ l₂ : List ReplyBlock) :
    blockSize (l₁ ++ l₂) = blockSize l₁ + blockSize l₂ := by
  simp [blockSize]

@[simp] theorem remainingFrom_zero (l : List ReplyBlock) : remainingFrom 0 l = blockBytes l := by
  cases l <;> simp [remainingFrom]

@[simp] theorem headOk_zero (l : List ReplyBlock) : HeadOk 0 l := by
  cases l <;> simp [HeadOk]

end WasiPorts.Redis.Reply
