import Mathlib
import WasiPorts.Lib.Run
import WasiPorts.Redis.Bio.Basic

/-!
# Background jobs in the two builds

`bio.c` with worker threads and `bio.c` on WASI, and the callers of `lazyfree.c`. What a job does is
the same in both (`bioProcessJob`). The threaded build puts it on the queue of its worker, which takes
it from there (`bioProcessBackgroundJobs`); the WASI build runs it inside `bioSubmitJob`.

The main thread is arbitrary: a step of it sees the state and what `bioPendingJobsOfType` and
`bioDrainWorker` say, changes the state, and may call one of the functions that submit a job. The
results of `fsync`, `close` and `posix_fadvise` are inputs.
-/

namespace WasiPorts.Redis.Workers

open WasiPorts.Redis.Bio (Worker)

/-! ## Data -/

inductive JobType where
  | closeFile | aofFsync | lazyFree | closeAof | compRqCloseFile | compRqAofFsync | compRqLazyFree
  deriving DecidableEq, Repr

/-- `bio_job_to_worker`. -/
def bioJobToWorker : JobType → Worker
  | .closeFile | .compRqCloseFile => .closeFile
  | .aofFsync | .closeAof | .compRqAofFsync => .aofFsync
  | .lazyFree | .compRqLazyFree => .lazyFree

abbrev SizeT := BitVec 32

/-- The value of an object, as far as `lazyfreeGetFreeEffort` looks at it. `groups` is the number of
consumer groups of a stream and the size of the first one's list of pending entries. -/
inductive Value where
  | quicklist (len : Nat)
  | setHt (size : Nat)
  | zsetSkiplist (length : Nat)
  | hashHt (size : Nat)
  | stream (numnodes : Nat) (groups : Option (Nat × Nat))
  | module (freeEffort : SizeT)
  | other
  deriving DecidableEq, Repr

structure Robj where
  refcount : Nat
  value : Value
  deriving DecidableEq, Repr

/-- `OBJ_SHARED_REFCOUNT`. -/
def objSharedRefcount : Nat := 2 ^ 31 - 1

/-- A dictionary, radix tree or list of which only the size matters here. -/
structure Container where
  id : Nat
  len : Nat
  deriving DecidableEq, Repr

/-- A `kvstore` of objects. A value is null while it is freed lazily. -/
structure KvStore where
  id : Nat
  values : List (Option Nat)
  deriving DecidableEq, Repr

structure RedisDb where
  keys : KvStore
  expires : Container
  hexpires : Container
  deriving DecidableEq, Repr

/-- `errno` of a failed `fsync`. -/
inductive FsyncErrno where
  | ebadf | einval | other (code : Nat)
  deriving DecidableEq, Repr

inductive LogLine where
  /-- "Fail to fsync the AOF file: %s" -/
  | fsyncFailed (errno : Nat)
  /-- "Unable to reclaim page cache: %s" -/
  | reclaimFailed (errno : Nat)
  deriving DecidableEq, Repr

inductive Freed where
  | object (id : Nat)
  | container (id : Nat)
  deriving DecidableEq, Repr

/-- What the main thread and the workers share. -/
structure Shared where
  /-- The open descriptors. -/
  fds : Nat → Bool
  fsyncResult : Nat → Option FsyncErrno
  fsyncs : Nat
  reclaimResult : Nat → Option Nat
  reclaims : Nat
  /-- Whether the descriptor is gone after the call of `close`. -/
  closeReleases : Nat → Bool
  closes : Nat
  /-- `C_OK`. -/
  aofBioFsyncStatus : Bool
  aofBioFsyncErrno : Nat
  fsyncedReploffPending : Int
  objects : Nat → Robj
  dbs : Nat → RedisDb
  /-- The id of the next container. -/
  nextContainer : Nat
  lazyfreeObjects : SizeT
  lazyfreedObjects : SizeT
  freed : List Freed
  log : List LogLine
  panicked : Bool
  /-- Callback and argument of each completed completion request. -/
  bioCompList : List (Nat × Nat)
  /-- The writes to `job_comp_pipe`. -/
  compWrites : Nat

/-- The arguments of the functions of `lazyfree.c` that free. -/
inductive FreeArgs where
  | object (o : Nat)
  | database (keys : KvStore) (expires hexpires : Container)
  | trackingTable (rt : Container)
  | errors (rax : Container)
  | luaScripts (scripts lruList lua : Container)
  | functionsCtx (ctx engs : Container)
  | replicationBacklog (blocks index : Container)
  deriving DecidableEq, Repr

/-- `bio_job`. -/
inductive Job where
  | closeFile (fd : Nat) (needFsync needReclaimCache : Bool)
  | aofFsync (fd : Nat) (offset : Int) (needReclaimCache : Bool)
  | closeAof (fd : Nat) (offset : Int) (needReclaimCache : Bool)
  | lazyFree (args : FreeArgs)
  | compRq (worker : Worker) (func arg : Nat)
  deriving DecidableEq, Repr

def Job.type : Job → JobType
  | .closeFile .. => .closeFile
  | .aofFsync .. => .aofFsync
  | .closeAof .. => .closeAof
  | .lazyFree _ => .lazyFree
  | .compRq .closeFile .. => .compRqCloseFile
  | .compRq .aofFsync .. => .compRqAofFsync
  | .compRq .lazyFree .. => .compRqLazyFree

/-! ## System calls -/

/-- `redis_fsync`. -/
def fsync (fd : Nat) (s : Shared) : Option FsyncErrno × Shared :=
  (if s.fds fd then s.fsyncResult s.fsyncs else some .ebadf, { s with fsyncs := s.fsyncs + 1 })

def close (fd : Nat) (s : Shared) : Shared :=
  { s with
    fds := fun i => if i = fd ∧ s.closeReleases s.closes then false else s.fds i
    closes := s.closes + 1 }

/-- `reclaimFilePageCache`, and the log line of its callers. -/
def reclaimFilePageCache (need : Bool) (s : Shared) : Shared :=
  if need then
    let s' := { s with reclaims := s.reclaims + 1 }
    match s.reclaimResult s.reclaims with
    | some errno => { s' with log := s.log ++ [.reclaimFailed errno] }
    | none => s'
  else s

/-! ## Freeing (`object.c`, `lazyfree.c`) -/

def decrRefCount (o : Nat) (s : Shared) : Shared :=
  let refcount := (s.objects o).refcount
  if refcount = 1 then { s with freed := s.freed ++ [.object o] }
  else if refcount = 0 then { s with panicked := true }
  else if refcount ≠ objSharedRefcount then
    { s with objects := fun i =>
        if i = o then { s.objects o with refcount := refcount - 1 } else s.objects i }
  else s

def release (c : Container) (s : Shared) : Shared :=
  { s with freed := s.freed ++ [.container c.id] }

def kvstoreRelease (kv : KvStore) (s : Shared) : Shared :=
  let s := kv.values.foldl (fun s v => v.elim s fun o => decrRefCount o s) s
  { s with freed := s.freed ++ [.container kv.id] }

/-- `n` objects are no longer pending. -/
def countFreed (n : Nat) (s : Shared) : Shared :=
  { s with
    lazyfreeObjects := s.lazyfreeObjects - BitVec.ofNat 32 n
    lazyfreedObjects := s.lazyfreedObjects + BitVec.ofNat 32 n }

/-- `n` objects are pending. -/
def countPending (n : Nat) (s : Shared) : Shared :=
  { s with lazyfreeObjects := s.lazyfreeObjects + BitVec.ofNat 32 n }

/-- The objects that a lazy-free job counts. -/
def FreeArgs.count : FreeArgs → Nat
  | .object _ => 1
  | .database keys _ _ => keys.values.length
  | .trackingTable rt => rt.len
  | .errors rax => rax.len
  | .luaScripts scripts _ _ => scripts.len
  | .functionsCtx ctx engs => ctx.len + engs.len
  | .replicationBacklog blocks index => blocks.len + index.len

/-- What a lazy-free job frees. -/
def FreeArgs.release : FreeArgs → Shared → Shared
  | .object o, s => decrRefCount o s
  | .database keys expires hexpires, s =>
    Workers.release expires (kvstoreRelease keys (Workers.release hexpires s))
  | .trackingTable rt, s => Workers.release rt s
  | .errors rax, s => Workers.release rax s
  | .luaScripts scripts lruList lua, s =>
    Workers.release lua (Workers.release lruList (Workers.release scripts s))
  | .functionsCtx ctx engs, s => Workers.release engs (Workers.release ctx s)
  | .replicationBacklog blocks index, s => Workers.release index (Workers.release blocks s)

/-- `lazyfreeFreeObject`, `lazyfreeFreeDatabase` and the others. -/
def FreeArgs.free (args : FreeArgs) (s : Shared) : Shared := countFreed args.count (args.release s)

/-- `lazyfreeGetFreeEffort`. -/
def lazyfreeGetFreeEffort : Value → SizeT
  | .quicklist len => BitVec.ofNat 32 len
  | .setHt size => BitVec.ofNat 32 size
  | .zsetSkiplist length => BitVec.ofNat 32 length
  | .hashHt size => BitVec.ofNat 32 size
  | .stream numnodes none => BitVec.ofNat 32 numnodes
  | .stream numnodes (some (groups, pel)) => BitVec.ofNat 32 (numnodes + groups * (1 + pel))
  -- `ULONG_MAX`
  | .module effort => if effort = 0 then BitVec.allOnes 32 else effort
  | .other => 1

def lazyfreeThreshold : Nat := 64

/-! ## Jobs (`bio.c`) -/

/-- The `fsync` of the AOF jobs. -/
def fsyncAof (fd : Nat) (offset : Int) (s : Shared) : Shared :=
  match fsync fd s with
  | (some (.other errno), s) =>
    { s with
      aofBioFsyncStatus := false
      aofBioFsyncErrno := errno
      log := if s.aofBioFsyncStatus then s.log ++ [.fsyncFailed errno] else s.log }
  | (_, s) => { s with aofBioFsyncStatus := true, fsyncedReploffPending := offset }

/-- `bioProcessJob`. -/
def bioProcessJob : Job → Shared → Shared
  | .closeFile fd needFsync needReclaimCache, s =>
    let s :=
      if needFsync then
        match fsync fd s with
        | (some (.other errno), s) => { s with log := s.log ++ [.fsyncFailed errno] }
        | (_, s) => s
      else s
    close fd (reclaimFilePageCache needReclaimCache s)
  | .aofFsync fd offset needReclaimCache, s =>
    reclaimFilePageCache needReclaimCache (fsyncAof fd offset s)
  | .closeAof fd offset needReclaimCache, s =>
    close fd (reclaimFilePageCache needReclaimCache (fsyncAof fd offset s))
  | .lazyFree args, s => args.free s
  | .compRq _ func arg, s =>
    { s with bioCompList := s.bioCompList ++ [(func, arg)], compWrites := s.compWrites + 1 }

/-- The state of `bio.c` and what it shares with the rest. -/
structure Bio where
  shared : Shared
  bioJobs : Worker → List Job
  bioJobsCounter : JobType → Nat

/-- After `bioInit`. -/
def Bio.init (shared : Shared) : Bio := ⟨shared, fun _ => [], fun _ => 0⟩

/-- `bioSubmitJob` of the WASI build. -/
def bioSubmitJobInline (job : Job) (b : Bio) : Bio :=
  { b with shared := bioProcessJob job b.shared }

/-- `bioSubmitJob` of the threaded build. -/
def bioSubmitJobThreaded (job : Job) (b : Bio) : Bio :=
  let worker := bioJobToWorker job.type
  { b with
    bioJobs := fun w => if w = worker then b.bioJobs w ++ [job] else b.bioJobs w
    bioJobsCounter := fun t =>
      if t = job.type then b.bioJobsCounter t + 1 else b.bioJobsCounter t }

/-- One iteration of the loop of `bioProcessBackgroundJobs`; the worker waits if its queue is
empty. -/
def bioProcessBackgroundJobs (b : Bio) (worker : Worker) : Bio :=
  match b.bioJobs worker with
  | [] => b
  | job :: rest =>
    { shared := bioProcessJob job b.shared
      bioJobs := fun w => if w = worker then rest else b.bioJobs w
      bioJobsCounter := fun t =>
        if t = job.type then b.bioJobsCounter t - 1 else b.bioJobsCounter t }

def bioPendingJobsOfType (b : Bio) (type : JobType) : Nat := b.bioJobsCounter type

/-- `bioDrainWorker` returns without waiting. -/
def bioDrainWorkerReturns (b : Bio) (type : JobType) : Bool :=
  (b.bioJobs (bioJobToWorker type)).isEmpty

/-! ## The main thread -/

/-- The functions that submit jobs, with their arguments. -/
inductive Call where
  | createCloseJob (fd : Nat) (needFsync needReclaimCache : Bool)
  | createCloseAofJob (fd : Nat) (offset : Int) (needReclaimCache : Bool)
  | createFsyncJob (fd : Nat) (offset : Int) (needReclaimCache : Bool)
  | freeObjAsync (obj : Nat)
  | emptyDbAsync (db : Nat)
  | freeTrackingRadixTreeAsync (numnodes : Nat) (tracking : Container)
  | freeErrorsRadixTreeAsync (numnodes : Nat) (errors : Container)
  | freeLuaScriptsAsync (scripts lruList lua : Container)
  | freeFunctionsAsync (ctx engs : Container)
  | freeReplicationBacklogRefMemAsync (blocks index : Container)
  deriving DecidableEq, Repr

/-- Enough work is submitted, and little work is done at once. -/
def submitIf (submit : Bool) (args : FreeArgs) (s : Shared) : Shared × Option Job :=
  if submit then (countPending args.count s, some (.lazyFree args)) else (args.release s, none)

/-- `emptyDbAsync` up to its job: the database gets new tables. -/
def emptyDbAsync (db : Nat) (s : Shared) : Shared × Option Job :=
  let old := s.dbs db
  let fresh : RedisDb :=
    ⟨⟨s.nextContainer, []⟩, ⟨s.nextContainer + 1, 0⟩, ⟨s.nextContainer + 2, 0⟩⟩
  let s := { s with
    dbs := fun i => if i = db then fresh else s.dbs i
    nextContainer := s.nextContainer + 3 }
  submitIf true (.database old.keys old.expires old.hexpires) s

/-- A call up to `bioSubmitJob`, and the job it submits. -/
def Call.prepare : Call → Shared → Shared × Option Job
  | .createCloseJob fd needFsync reclaim, s => (s, some (.closeFile fd needFsync reclaim))
  | .createCloseAofJob fd offset reclaim, s => (s, some (.closeAof fd offset reclaim))
  | .createFsyncJob fd offset reclaim, s => (s, some (.aofFsync fd offset reclaim))
  | .freeObjAsync obj, s =>
    let effort := lazyfreeGetFreeEffort (s.objects obj).value
    submitIf (decide (lazyfreeThreshold < effort.toNat) && decide ((s.objects obj).refcount = 1))
      (.object obj) s
  | .emptyDbAsync db, s => Workers.emptyDbAsync db s
  | .freeTrackingRadixTreeAsync numnodes tracking, s =>
    submitIf (lazyfreeThreshold < numnodes) (.trackingTable tracking) s
  | .freeErrorsRadixTreeAsync numnodes errors, s =>
    submitIf (lazyfreeThreshold < numnodes) (.errors errors) s
  | .freeLuaScriptsAsync scripts lruList lua, s =>
    submitIf (lazyfreeThreshold < scripts.len) (.luaScripts scripts lruList lua) s
  | .freeFunctionsAsync ctx engs, s =>
    submitIf (lazyfreeThreshold < ctx.len) (.functionsCtx ctx engs) s
  | .freeReplicationBacklogRefMemAsync blocks index, s =>
    submitIf (decide (lazyfreeThreshold < blocks.len) || decide (lazyfreeThreshold < index.len))
      (.replicationBacklog blocks index) s

/-- A call, with the `bioSubmitJob` of the build. -/
def Call.perform (submit : Job → Bio → Bio) (call : Call) (b : Bio) : Bio :=
  match call.prepare b.shared with
  | (s, none) => { b with shared := s }
  | (s, some job) => submit job { b with shared := s }

/-- A step of the main thread: what it does with the state, given what `bioPendingJobsOfType` and
`bioDrainWorker` say, and the call it then makes. In the threaded build the workers go through their
loops as `wakeups` says before the main thread goes on. -/
structure MainStep where
  act : (JobType → Nat) → (JobType → Bool) → Shared → Shared × Option Call
  wakeups : List Worker

def mainStep (submit : Job → Bio → Bio) (b : Bio) (step : MainStep) : Bio :=
  match step.act (bioPendingJobsOfType b) (bioDrainWorkerReturns b) b.shared with
  | (s, none) => { b with shared := s }
  | (s, some call) => call.perform submit { b with shared := s }

/-- The WASI build. -/
def inlineStep (b : Bio) (step : MainStep) : Bio := mainStep bioSubmitJobInline b step

/-- The threaded build. -/
def threadedStep (b : Bio) (step : MainStep) : Bio :=
  step.wakeups.foldl bioProcessBackgroundJobs (mainStep bioSubmitJobThreaded b step)

end WasiPorts.Redis.Workers
