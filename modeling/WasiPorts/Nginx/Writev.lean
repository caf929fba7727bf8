import WasiPorts.Lib.Memory
import WasiPorts.Lib.Socket

/-!
# Sending an output chain

`ngx_writev_chain` with the functions it calls: `ngx_output_chain_to_iovec` describes the start of
the chain by at most 64 pieces of memory, joining neighbours, `ngx_writev` writes them, and
`ngx_chain_update_sent` takes what was sent off the chain. The WASI build of `ngx_writev` has no
`writev`: it copies small vectors into one buffer, and writes the others piece by piece.

A chain is a list of buffers, a buffer is a range of memory. A call that is interrupted again and
again does not return; `fuel` bounds the work of a call, and `none` is a call that needs more.
-/

namespace WasiPorts.Nginx

open WasiPorts.Memory

/-! ## Buffers -/

/-- `ngx_buf_t`, as far as the output functions read it. -/
structure Buf where
  pos : Nat
  last : Nat
  filePos : Nat
  fileLast : Nat
  temporary : Bool
  memory : Bool
  mmap : Bool
  inFile : Bool
  flush : Bool
  sync : Bool
  lastBuf : Bool
  deriving DecidableEq, Repr

/-- `ngx_buf_in_memory`. -/
def ngxBufInMemory (b : Buf) : Bool := b.temporary || b.memory || b.mmap

/-- `ngx_buf_special`. -/
def ngxBufSpecial (b : Buf) : Bool :=
  (b.flush || b.lastBuf || b.sync) && !ngxBufInMemory b && !b.inFile

/-- `ngx_buf_size`. -/
def ngxBufSize (b : Buf) : Nat :=
  if ngxBufInMemory b then b.last - b.pos else b.fileLast - b.filePos

/-- `n` bytes of the buffer were sent. -/
def Buf.advance (b : Buf) (n : Nat) : Buf :=
  { b with
    pos := if ngxBufInMemory b then b.pos + n else b.pos
    filePos := if b.inFile then b.filePos + n else b.filePos }

/-- `ngx_chain_update_sent`: the chain from the first buffer on that is not sent completely. -/
def ngxChainUpdateSent : List Buf → Nat → List Buf
  | [], _ => []
  | b :: chain, sent =>
    if ngxBufSpecial b then ngxChainUpdateSent chain sent
    else if sent = 0 then b :: chain
    else if ngxBufSize b ≤ sent then ngxChainUpdateSent chain (sent - ngxBufSize b)
    else b.advance sent :: chain

/-! ## The vector -/

/-- `struct iovec`. -/
structure Iovec where
  base : Nat
  len : Nat
  deriving DecidableEq, Repr

/-- `NGX_IOVS_PREALLOCATE`. -/
def ngxIovsPreallocate : Nat := 64

/-- The local variables of the loop of `ngx_output_chain_to_iovec`. The latest piece is the first
of `iovs`; `prev` is its end. -/
structure Coalesce where
  iovs : List Iovec
  prev : Option Nat
  total : Nat
  deriving DecidableEq, Repr

def Coalesce.start : Coalesce := ⟨[], none, 0⟩

/-- The latest piece grows by `n`. -/
def Coalesce.grow (v : Coalesce) (pos n : Nat) : Coalesce :=
  ⟨match v.iovs with
    | [] => []
    | iov :: iovs => { iov with len := iov.len + n } :: iovs,
    some (pos + n), v.total + n⟩

/-- A new piece. -/
def Coalesce.push (v : Coalesce) (pos n : Nat) : Coalesce :=
  ⟨⟨pos, n⟩ :: v.iovs, some (pos + n), v.total + n⟩

/-- `ngx_output_chain_to_iovec`: the vector, and the buffers after it. The result is `none` for
`NGX_CHAIN_ERROR`. -/
def ngxOutputChainToIovec (nalloc limit : Nat) : List Buf → Coalesce → Option (Coalesce × List Buf)
  | [], v => some (v, [])
  | b :: chain, v =>
    if v.total < limit then
      if ngxBufSpecial b then ngxOutputChainToIovec nalloc limit chain v
      else if b.inFile then some (v, b :: chain)
      else if !ngxBufInMemory b then none
      else
        let size := min (b.last - b.pos) (limit - v.total)
        if v.prev = some b.pos then ngxOutputChainToIovec nalloc limit chain (v.grow b.pos size)
        else if v.iovs.length = nalloc then some (v, b :: chain)
        else ngxOutputChainToIovec nalloc limit chain (v.push b.pos size)
    else some (v, b :: chain)

/-! ## Writing -/

/-- The connection, as far as its writing side goes. -/
structure Conn where
  socket : Outlet
  sent : Nat
  /-- `c->write->ready`. -/
  ready : Bool
  /-- `c->write->error`. -/
  error : Bool
  /-- History: the copy of `ngx_writev` went beyond its buffer, or the buffer was written further
  than it was filled. -/
  overrun : Bool

/-- The size of the buffer of `ngx_writev`. -/
def writevBufferSize : Nat := 4096

variable (mem : Nat → Byte)

/-- The bytes of the pieces, in the order in which they are written. -/
def piecesBytes (iovs : List Iovec) : List Byte := iovs.flatMap fun v => load mem v.base v.len

/-- The loop of `ngx_writev` that writes piece by piece. -/
def writeSegments : List Iovec → Nat → Outlet → Except Errno Nat × Outlet
  | [], total, s => (.ok total, s)
  | v :: iovs, total, s =>
    match s.write (load mem v.base v.len) with
    | (.error e, s) => if total ≠ 0 then (.ok total, s) else (.error e, s)
    | (.ok rc, s) =>
      if rc < v.len then (.ok (total + rc), s) else writeSegments iovs (total + rc) s

/-- `ngx_writev` from the label `eintr` to the label `eintr_done`. -/
def writeOnce (vec : Coalesce) (c : Conn) : Except Errno Nat × Conn :=
  if 1 < vec.iovs.length ∧ vec.total ≤ writevBufferSize then
    let buffer := piecesBytes mem vec.iovs.reverse
    let (r, s) := c.socket.write (buffer.take vec.total)
    (r, { c with
      socket := s
      overrun := c.overrun || decide (writevBufferSize < buffer.length) ||
        decide (buffer.length < vec.total) })
  else
    let (r, s) := writeSegments mem vec.iovs.reverse 0 c.socket
    (r, { c with socket := s })

/-- The results of `ngx_writev`. -/
inductive SendResult where
  | sent (n : Nat)
  | again
  | error
  deriving DecidableEq, Repr

/-- `ngx_writev`. -/
def ngxWritev (vec : Coalesce) : Nat → Conn → Option (SendResult × Conn)
  | 0, _ => none
  | fuel + 1, c =>
    match writeOnce mem vec c with
    | (.ok n, c) => some (.sent n, c)
    | (.error .eagain, c) => some (.again, c)
    | (.error .eintr, c) => ngxWritev vec fuel c
    | (.error (.other _), c) => some (.error, { c with error := true })

/-- The part of a result that counts as sent. -/
def SendResult.count : SendResult → Nat
  | .sent n => n
  | .again | .error => 0

/-- The loop of `ngx_writev_chain`. The chain it returns is `none` for `NGX_CHAIN_ERROR`. -/
def writevLoop (limit : Nat) : Nat → Conn → List Buf → Nat → Option (Option (List Buf) × Conn)
  | 0, _, _, _ => none
  | fuel + 1, c, chain, send =>
    match ngxOutputChainToIovec ngxIovsPreallocate (limit - send) chain .start with
    | none => some (none, c)
    | some (vec, cl) =>
      if cl.head?.any (·.inFile) then some (none, c)
      else
        match ngxWritev mem vec fuel c with
        | none => none
        | some (.error, c) => some (none, c)
        | some (r, c) =>
          let c := { c with sent := c.sent + r.count }
          let chain := ngxChainUpdateSent chain r.count
          if vec.total ≠ r.count then some (some chain, { c with ready := false })
          else if limit ≤ send + vec.total ∨ chain = [] then some (some chain, c)
          else writevLoop limit fuel c chain (send + vec.total)

/-- `NGX_MAX_SIZE_T_VALUE` of a target with 32-bit pointers. -/
def ngxMaxSizeTValue : Nat := 2147483647

/-- The limit in effect. Below it the counts of bytes fit into `ssize_t`. -/
def effectiveLimit (pagesize limit : Nat) : Nat :=
  if limit = 0 ∨ ngxMaxSizeTValue - pagesize < limit then ngxMaxSizeTValue - pagesize else limit

/-- `ngx_writev_chain`. -/
def ngxWritevChain (pagesize fuel : Nat) (c : Conn) (chain : List Buf) (limit : Nat) :
    Option (Option (List Buf) × Conn) :=
  if !c.ready then some (some chain, c)
  else writevLoop mem (effectiveLimit pagesize limit) fuel c chain 0

end WasiPorts.Nginx
