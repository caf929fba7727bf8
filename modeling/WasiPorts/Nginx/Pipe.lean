import WasiPorts.Nginx.Readv

/-!
# Reading from an upstream server

`ngx_event_pipe_read_upstream`, with `ngx_event_pipe_add_free_buf`. One call runs a loop that reads
into the free raw buffers and hands the full ones to the input filter, and then hands over what is
left in certain cases. A call is modelled as a sequence of events: it is entered, its loop runs turn
by turn, and it ends. Between calls raw buffers come back, the socket becomes readable and the timer
of a delay expires.

What the rest of nginx decides is an input: the clock, allocations, the state of the downstream
connection, the temporary file, and the input filter.
-/

namespace WasiPorts.Nginx

open WasiPorts.Memory

/-! ## State -/

/-- What one call of the input filter does. -/
structure FilterOutcome where
  /-- It returns `NGX_ERROR`. -/
  error : Bool
  /-- It gives the buffer back. -/
  recycle : Bool
  /-- `p->length` after it, `none` for -1. -/
  length : Option Nat
  /-- It sets `p->upstream_done`. -/
  done : Bool
  deriving DecidableEq, Repr

/-- Where a call of `ngx_event_pipe_read_upstream` is. -/
inductive Phase where
  /-- Between calls. -/
  | idle
  /-- In the loop. -/
  | loop
  /-- After the loop. -/
  | fin
  /-- Before the last write to the temporary file. -/
  | save
  /-- The call returned `NGX_ABORT`, or an error of the temporary file. -/
  | aborted
  /-- The call does not return. -/
  | hung
  deriving DecidableEq, Repr

/-- `ngx_event_pipe_t`, as far as reading goes. An empty chain is a null pointer. -/
structure Pipe where
  up : Upstream
  upstreamEof : Bool
  upstreamError : Bool
  upstreamDone : Bool
  upstreamBlocked : Bool
  prereadBufs : List RawBuf
  prereadSize : Nat
  freeRawBufs : List RawBuf
  /-- `start` and `last` of `p->buf_to_file`. -/
  bufToFile : Option (Nat × Nat)
  singleBuf : Bool
  cacheable : Bool
  allocated : Nat
  bufsNum : Nat
  bufsSize : Nat
  limitRate : Nat
  /-- `p->upstream->read->delayed`. -/
  delayed : Bool
  readLength : Nat
  length : Option Nat
  read : Bool
  filter : Nat → FilterOutcome
  /-- The calls of the input filter so far. -/
  filterCalls : Nat
  /-- History: the bytes handed to the input filter. -/
  filtered : List Byte
  phase : Phase

/-- A buffer without data. -/
def RawBuf.fresh (start stop : Nat) : RawBuf := ⟨start, start, start, stop⟩

/-- The bytes of a buffer. -/
def RawBuf.bytes (mem : Nat → Byte) (b : RawBuf) : List Byte := load mem b.pos (b.last - b.pos)

/-- The buffer as `ngx_event_pipe_add_free_buf` leaves it. -/
def Pipe.emptied (p : Pipe) (b : RawBuf) : RawBuf :=
  match p.bufToFile with
  | some (start, last) =>
    if b.start = start then { b with pos := last, last := last } else .fresh b.start b.stop
  | none => .fresh b.start b.stop

/-- `ngx_event_pipe_add_free_buf`. -/
def addFreeBuf (p : Pipe) (b : RawBuf) : Pipe :=
  let b := p.emptied b
  { p with
    freeRawBufs :=
      match p.freeRawBufs with
      | [] => [b]
      | head :: rest => if head.pos = head.last then b :: head :: rest else head :: b :: rest }

/-- `p->input_filter`, without the return of the buffer. -/
def inputFilter (p : Pipe) (b : RawBuf) : FilterOutcome × Pipe :=
  let o := p.filter p.filterCalls
  (o, { p with
    filterCalls := p.filterCalls + 1
    filtered := p.filtered ++ b.bytes p.up.mem
    length := o.length
    upstreamDone := p.upstreamDone || o.done })

/-! ## The loop -/

/-- The loop that hands out `n` bytes that were read into the chain: the rest of the chain, and the
pipe. The first component is `false` if the input filter failed. -/
def distribute : List RawBuf → Nat → Pipe → Bool × List RawBuf × Pipe
  | [], _, p => (true, [], p)
  | b :: chain, n, p =>
    if n = 0 then (true, b :: chain, p)
    else if b.stop - b.last ≤ n then
      let (o, p) := inputFilter p { b with last := b.stop }
      let p := if o.recycle then addFreeBuf p b else p
      if o.error then (false, chain, p) else distribute chain (n - (b.stop - b.last)) p
    else (true, { b with last := b.last + n } :: chain, p)

/-- A turn of the loop from `delay` on, with `n` bytes read into `chain`. -/
def deliver (chain : List RawBuf) (n : Nat) (p : Pipe) : Pipe :=
  let delay := if p.limitRate = 0 then 0 else n * 1000 / p.limitRate
  let p := { p with readLength := p.readLength + n, freeRawBufs := [] }
  match distribute chain n p with
  | (false, _, p) => { p with phase := .aborted }
  | (true, cl, p) =>
    let p := { p with freeRawBufs := cl ++ p.freeRawBufs }
    if 0 < delay then { p with delayed := true, phase := .fin } else p

/-- The result of `ngx_event_pipe_write_chain_to_temp_file`: the memory of the raw buffers that were
saved, or no success. -/
inductive TempWrite where
  | saved (bufs : List (Nat × Nat))
  | busy
  | fail
  deriving DecidableEq, Repr

/-- The raw buffers of `ngx_event_pipe_write_chain_to_temp_file` are free again. -/
def savedToFile (p : Pipe) (bufs : List (Nat × Nat)) : Pipe :=
  { p with
    bufToFile := none
    freeRawBufs := p.freeRawBufs ++ bufs.map fun r => .fresh r.1 r.2 }

/-- What is decided outside during a turn of the loop. -/
structure TurnEnv where
  /-- `ngx_time() - p->start_sec`. -/
  elapsed : Nat
  /-- The address of a new buffer. -/
  alloc : Option Nat
  /-- The downstream connection takes data. -/
  downstreamReady : Bool
  /-- The temporary file is not full. -/
  tempFileRoom : Bool
  tempWrite : TempWrite
  deriving DecidableEq, Repr

/-- The chain to read into. -/
inductive Pick where
  | into (chain rest : List RawBuf) (p : Pipe)
  | stop (p : Pipe)

/-- The first free buffer, or all of them. -/
def pickFree (p : Pipe) : Pick :=
  if p.singleBuf then .into (p.freeRawBufs.take 1) (p.freeRawBufs.drop 1) p
  else .into p.freeRawBufs [] p

/-- The choice of the chain. -/
def pickChain (env : TurnEnv) (p : Pipe) : Pick :=
  if p.freeRawBufs ≠ [] then pickFree p
  else if p.allocated < p.bufsNum then
    match env.alloc with
    | none => .stop { p with phase := .aborted }
    | some a => .into [.fresh a (a + p.bufsSize)] [] { p with allocated := p.allocated + 1 }
  else if !p.cacheable && env.downstreamReady then
    .stop { p with upstreamBlocked := true, phase := .fin }
  else if p.cacheable || env.tempFileRoom then
    match env.tempWrite with
    | .busy => .stop { p with phase := .fin }
    | .fail => .stop { p with phase := .aborted }
    | .saved bufs => pickFree (savedToFile p bufs)
  else .stop { p with phase := .fin }

/-- A turn of the loop from `recv_chain` on. -/
def recvInto (fuel limit : Nat) (chain rest : List RawBuf) (p : Pipe) : Pipe :=
  -- the code would follow a null pointer
  if chain = [] then { p with phase := .hung }
  else
    match ngxReadvChain fuel chain limit p.up with
    | none => { p with phase := .hung }
    | some (r, up) =>
      let p := { p with up := up, freeRawBufs := chain ++ rest }
      match r with
      | .error => { p with upstreamError := true, phase := .fin }
      | .again => { p with phase := .fin }
      | .bytes n =>
        let p := { p with read := true }
        if n = 0 then { p with upstreamEof := true, phase := .fin }
        else deliver (chain ++ rest) n p

/-- What `limit_rate` allows to read: no limit for 0, and nothing if not positive. -/
def rateLimit (p : Pipe) (elapsed : Nat) : Int := p.limitRate * (elapsed + 1) - p.readLength

/-- A turn of the loop. -/
def turn (fuel : Nat) (env : TurnEnv) (p : Pipe) : Pipe :=
  if p.upstreamEof || p.upstreamError || p.upstreamDone then { p with phase := .fin }
  else if p.prereadBufs = [] ∧ p.up.ready = false then { p with phase := .fin }
  else if p.prereadBufs ≠ [] then
    deliver p.prereadBufs p.prereadSize { p with
      prereadBufs := []
      read := p.read || decide (p.prereadSize ≠ 0) }
  else if p.limitRate ≠ 0 ∧ p.delayed then { p with phase := .fin }
  else if p.limitRate ≠ 0 ∧ rateLimit p env.elapsed ≤ 0 then
    { p with delayed := true, phase := .fin }
  else
    let limit := if p.limitRate = 0 then 0 else (rateLimit p env.elapsed).toNat
    match pickChain env p with
    | .stop p => p
    | .into chain rest p => recvInto fuel limit chain rest p

/-! ## The end of a call -/

/-- The first free buffer holds the rest of the response. -/
def finishLength (p : Pipe) : Pipe :=
  match p.freeRawBufs, p.length with
  | b :: rest, some length =>
    if length ≤ b.last - b.pos then
      let (o, p) := inputFilter { p with freeRawBufs := rest } b
      let p := if o.recycle then addFreeBuf p b else p
      if o.error then { p with phase := .aborted } else p
    else p
  | _, _ => p

/-- The response is complete. -/
def finishDone (p : Pipe) : Pipe :=
  if p.length = some 0 then { p with upstreamDone := true, read := true } else p

/-- The connection has ended: the first free buffer goes to the input filter. If it comes back, it is
the first free buffer again. -/
def finishEnd (p : Pipe) : Pipe :=
  match p.freeRawBufs with
  | [] => p
  | b :: rest =>
    if p.upstreamEof || p.upstreamError then
      let (o, p) := inputFilter p b
      if o.error then { p with phase := .aborted }
      else { p with freeRawBufs := if o.recycle then p.emptied b :: rest else rest }
    else p

/-- Goes on unless the call was aborted. -/
def unlessAborted (p : Pipe) (f : Pipe → Pipe) : Pipe := if p.phase = .aborted then p else f p

/-- `ngx_event_pipe_read_upstream` after its loop, up to the temporary file. -/
def finish (p : Pipe) : Pipe :=
  unlessAborted (finishLength p) fun p =>
    unlessAborted (finishEnd (finishDone p)) fun p => { p with phase := .save }

/-- The end of the call: a cacheable response is saved; `write` is `none` if there is nothing to
save. -/
def save (write : Option TempWrite) (p : Pipe) : Pipe :=
  match write with
  | none => { p with phase := .idle }
  | some write =>
    if p.cacheable then
      match write with
      | .saved bufs => { savedToFile p bufs with phase := .idle }
      | .busy => { p with phase := .idle }
      | .fail => { p with phase := .aborted }
    else { p with phase := .idle }

/-! ## Events -/

inductive PipeEvent where
  /-- `ngx_event_pipe_read_upstream` is called. -/
  | enter
  | turn (env : TurnEnv)
  | finish
  | save (write : Option TempWrite)
  /-- A raw buffer comes back from downstream. -/
  | recycle (b : RawBuf)
  /-- The socket is readable. -/
  | ready
  /-- The timer of a delay expires. -/
  | timer
  deriving DecidableEq, Repr

/-- `ngx_event_pipe` clears two flags and calls `ngx_event_pipe_read_upstream`. -/
def enter (p : Pipe) : Pipe :=
  let p := { p with read := false, upstreamBlocked := false }
  if p.upstreamEof || p.upstreamError || p.upstreamDone then p else { p with phase := .loop }

/-- One event; events that cannot happen in the phase are ignored. -/
def pipeStep (fuel : Nat) (p : Pipe) (ev : PipeEvent) : Pipe :=
  match p.phase, ev with
  | .idle, .enter => enter p
  | .loop, .turn env => turn fuel env p
  | .fin, .finish => finish p
  | .save, .save write => save write p
  | .idle, .recycle b => addFreeBuf p b
  | .idle, .ready => { p with up := { p.up with ready := true } }
  | .idle, .timer => { p with delayed := false }
  | _, _ => p

end WasiPorts.Nginx
