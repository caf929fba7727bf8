import WasiPorts.Redis.Commands.Dispatch

/-!
# Background jobs and the flush commands

`bio.c` on WASI runs every job inside `bioSubmitJob`. A completion request is a job whose run only
puts its callback on `bio_comp_list` and writes to a pipe; the callbacks are run by
`bioPipeReadJobCompList`, the handler of the pipe's read event. The flush commands of `db.c` use
it: a synchronous FLUSHALL or FLUSHDB is turned into a blocking asynchronous one, whose client is
unblocked by the callback `flushallSyncBgDone`.

The model has any number of clients. It records every job in the order of submission (`jobs`) and,
by their index there, the jobs that have run and the callbacks that were executed (`finished`).
-/

namespace WasiPorts.Redis.Bio

open WasiPorts.Text (Bytes bytes caseKey)

/-! ## Data -/

inductive Worker where
  | closeFile | aofFsync | lazyFree
  deriving DecidableEq, Repr

/-- A submitted job; `comp` is the client to be notified by a completion request. `iteration` is
the number of event-loop iterations that were complete at the submission. -/
structure Job where
  worker : Worker
  comp : Option Nat
  iteration : Nat
  deriving DecidableEq, Repr

/-- An item of `bio_comp_list`: the callback is `flushallSyncBgDone` with a client id. -/
structure CompItem where
  serial : Nat
  clientId : Nat
  deriving DecidableEq, Repr

/-- The commands of a client, as far as jobs go: flushes with their arguments, the transaction
commands, and all other commands with the jobs they submit. `lazyJobs` is the number of lazy-free
jobs an asynchronous flush makes (one for each database with keys). -/
inductive Cmd where
  | flush (isFlushAll : Bool) (args : List Bytes) (lazyJobs : Nat)
  | multi
  | exec
  | discard
  | other (jobs : List Worker)

structure Client where
  connected : Bool
  multi : Bool
  dirtyCas : Bool
  denyBlocking : Bool
  luaDebug : Bool
  module : Bool
  queue : List Cmd
  /-- `BLOCKED_LAZYFREE`, with the completion request the client waits for. -/
  blockedLazyfree : Option Nat

/-- `CLIENT_AVOID_BLOCKING_ASYNC_FLUSH`. -/
def Client.avoidsBlockingFlush (c : Client) : Bool :=
  c.denyBlocking || c.multi || c.luaDebug || c.module

structure Server where
  clients : Nat → Client
  lazyfreeLazyUserFlush : Bool
  /-- The write end of `job_comp_pipe` is a descriptor. -/
  pipeOpen : Bool
  /-- `bioPipeReadJobCompList` is registered with the event loop. -/
  pipeEvent : Bool
  pipeBytes : Nat
  bioCompList : List CompItem
  jobs : List Job
  finished : List Nat
  iterations : Nat

def Client.absent : Client := ⟨false, false, false, false, false, false, [], none⟩

/-- The server after `bioInit` of the WASI build: the pipe is set to -1 and no event is
registered. -/
def bioInit (lazyUserFlush : Bool) : Server :=
  { clients := fun _ => .absent, lazyfreeLazyUserFlush := lazyUserFlush
    pipeOpen := false, pipeEvent := false, pipeBytes := 0
    bioCompList := [], jobs := [], finished := [], iterations := 0 }

def Server.setClient (s : Server) (id : Nat) (c : Client) : Server :=
  { s with clients := fun i => if i = id then c else s.clients i }

/-! ## Jobs (`bio.c`) -/

/-- `bioSubmitJob` for a job that does its work in `bioProcessJob`. -/
def bioSubmitJob (s : Server) (w : Worker) : Server :=
  { s with
    jobs := s.jobs ++ [⟨w, none, s.iterations⟩]
    finished := s.finished ++ [s.jobs.length] }

/-- `bioCreateCompRq`, run inline by `bioSubmitJob`: the request goes to the completion list, and
the write to the pipe fails silently when there is none. -/
def bioCreateCompRq (s : Server) (w : Worker) (clientId : Nat) : Server :=
  { s with
    jobs := s.jobs ++ [⟨w, some clientId, s.iterations⟩]
    bioCompList := s.bioCompList ++ [⟨s.jobs.length, clientId⟩]
    pipeBytes := if s.pipeOpen then s.pipeBytes + 1 else s.pipeBytes }

/-- `flushallSyncBgDone`: unblock the client if it is still there. -/
def flushallSyncBgDone (s : Server) (clientId : Nat) : Server :=
  let c := s.clients clientId
  if c.connected && c.blockedLazyfree.isSome then
    s.setClient clientId { c with blockedLazyfree := none }
  else s

/-- The callbacks of `bioPipeReadJobCompList`. -/
def runCallbacks : List CompItem → Server → Server
  | [], s => s
  | item :: rest, s =>
    let s := flushallSyncBgDone s item.clientId
    runCallbacks rest { s with finished := s.finished ++ [item.serial] }

def bioPipeReadJobCompList (s : Server) : Server :=
  runCallbacks s.bioCompList { s with bioCompList := [], pipeBytes := 0 }

/-! ## The flush commands (`db.c`) -/

/-- `getFlushCommandFlags`: whether `EMPTYDB_ASYNC` is set, `none` for a syntax error. -/
def getFlushCommandFlags (lazyUserFlush : Bool) : List Bytes → Option Bool
  | [] => some lazyUserFlush
  | [opt] =>
    if caseKey opt = bytes "sync" then some false
    else if caseKey opt = bytes "async" then some true
    else none
  | _ => none

/-- The lazy-free jobs of an asynchronous flush. -/
def submitLazyFree (s : Server) : Nat → Server
  | 0 => s
  | n + 1 => submitLazyFree (bioSubmitJob s .lazyFree) n

/-- `flushCommandCommon`. -/
def flushCommandCommon (s : Server) (id : Nat) (args : List Bytes) (lazyJobs : Nat) : Server :=
  match getFlushCommandFlags s.lazyfreeLazyUserFlush args with
  | none => s
  | some async =>
    let c := s.clients id
    let blockingAsync := !async && !c.avoidsBlockingFlush
    let s := if async || blockingAsync then submitLazyFree s lazyJobs else s
    if blockingAsync then
      let s := s.setClient id { c with blockedLazyfree := some s.jobs.length }
      bioCreateCompRq s .lazyFree id
    else s

/-! ## Commands and the event loop -/

def submitAll (s : Server) (ws : List Worker) : Server := ws.foldl bioSubmitJob s

/-- A command that is executed now. -/
def execute (s : Server) (id : Nat) : Cmd → Server
  | .flush _ args lazyJobs => flushCommandCommon s id args lazyJobs
  | .other jobs => submitAll s jobs
  | .multi | .exec | .discard => s

/-- The queued commands of a transaction, one after the other. -/
def executeAll (s : Server) (id : Nat) (cmds : List Cmd) : Server :=
  cmds.foldl (fun s cmd => execute s id cmd) s

def clearTransaction (c : Client) : Client :=
  { c with multi := false, dirtyCas := false, queue := [] }

/-- `execCommand`: the client denies blocking while its queue is run. -/
def execCommand (s : Server) (id : Nat) : Server :=
  let c := s.clients id
  if c.dirtyCas then s.setClient id (clearTransaction c)
  else
    let s := s.setClient id { c with denyBlocking := true }
    let s := executeAll s id c.queue
    s.setClient id { clearTransaction (s.clients id) with denyBlocking := c.denyBlocking }

/-- A command sent by a client. A blocked client is not served. -/
def processCommand (s : Server) (id : Nat) (cmd : Cmd) : Server :=
  let c := s.clients id
  if !c.connected || c.blockedLazyfree.isSome then s
  else
    match cmd with
    | .multi => s.setClient id { c with multi := true }
    | .exec => if c.multi then execCommand s id else s
    | .discard => if c.multi then s.setClient id (clearTransaction c) else s
    | cmd =>
      if c.multi then s.setClient id { c with queue := c.queue ++ [cmd] } else execute s id cmd

inductive Event where
  | connect (id : Nat) (luaDebug module : Bool)
  | disconnect (id : Nat)
  | command (id : Nat) (cmd : Cmd)
  | touchWatched (id : Nat)
  | configLazyUserFlush (on : Bool)
  /-- The end of an event-loop iteration, in which the registered and readable events are fired. -/
  | endIteration

def Event.isEnd : Event → Bool
  | .endIteration => true
  | _ => false

def step (s : Server) : Event → Server
  | .connect id luaDebug module =>
    if (s.clients id).connected then s
    else s.setClient id ⟨true, false, false, false, luaDebug, module, [], none⟩
  | .disconnect id => s.setClient id .absent
  | .command id cmd => processCommand s id cmd
  | .touchWatched id => s.setClient id { s.clients id with dirtyCas := true }
  | .configLazyUserFlush on => { s with lazyfreeLazyUserFlush := on }
  | .endIteration =>
    let s := if s.pipeEvent && 0 < s.pipeBytes then bioPipeReadJobCompList s else s
    { s with iterations := s.iterations + 1 }

end WasiPorts.Redis.Bio
