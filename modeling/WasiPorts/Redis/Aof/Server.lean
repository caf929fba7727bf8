import WasiPorts.Redis.Aof.World

/-!
# Writing, rewriting and switching the AOF

The functions of `aof.c` that append to the AOF, open a new INCR file, attempt a rewrite and turn
the AOF on and off, as the WASI build compiles them. The results of system calls are arguments,
one record for each function.
-/

namespace WasiPorts.Redis.Aof

open WasiPorts.Posix

variable {D A δ : Type} [AofFormat D A δ]

/-! ## Feeding `aof_buf` -/

/-- `genAofTimestampAnnotationIfNeeded(0)`, if timestamps are enabled. -/
def timestampNeeded (sv : Server D A δ) : Bool :=
  sv.aofTimestampEnabled && decide (sv.aofCurTimestamp < sv.unixtime)

/-- The command targets another database than the last one fed. -/
def selectNeeded (sv : Server D A δ) (dictid : Option Nat) : Bool :=
  dictid.isSome && decide (dictid ≠ sv.aofSelectedDb)

/-- The records that `feedAppendOnlyFile` makes of a command. -/
def feedRecs (sv : Server D A δ) (dictid : Option Nat) (cmd : Rec A δ) : List (Rec A δ) :=
  (if timestampNeeded sv then [.timestamp] else []) ++
    (if selectNeeded sv dictid then [.select (dictid.getD 0)] else []) ++ [cmd]

/-- The condition under which `feedAppendOnlyFile` keeps what it made. -/
def feedAppends (sv : Server D A δ) : Bool :=
  decide (sv.aofState = .on) ||
    (decide (sv.aofState = .waitRewrite) && decide (sv.childType = some .aof))

/-- `feedAppendOnlyFile`. -/
def feedAppendOnlyFile (dictid : Option Nat) (cmd : Rec A δ) (w : World D A δ) : World D A δ :=
  let sv := w.sv
  let sv' := { sv with
    aofCurTimestamp := if timestampNeeded sv then sv.unixtime else sv.aofCurTimestamp
    aofSelectedDb := if selectNeeded sv dictid then dictid else sv.aofSelectedDb
    aofBuf := if feedAppends sv then sv.aofBuf ++ (feedRecs sv dictid cmd).flatMap AofFormat.enc
      else sv.aofBuf }
  { w with
    sv := sv'
    feeds := w.feeds ++ [⟨cmd, sv.aofBuf, sv'.aofBuf, w.ackTicks⟩] }

/-! ## Flushing -/

/-- What the system calls of one `flushAppendOnlyFile` return. -/
structure FlushEnv where
  /-- How much `aofWrite` stored before an error, `none` if there was no error. -/
  written : Option Nat
  ftruncate : Bool
  fsync : Bool
  deriving DecidableEq, Repr

def FlushEnv.success : FlushEnv := ⟨none, true, true⟩

/-- `bioProcessJob` on a `BIO_AOF_FSYNC` job, and on a `BIO_CLOSE_AOF` one before it closes. -/
def bioAofFsync (fsyncOk : Bool) (fd : Nat) (w : World D A δ) : World D A δ :=
  if fsyncOk then
    (w.onFs (·.fsync fd)).set fun sv => { sv with
      aofBioFsyncStatus := .ok
      fsyncedReploffPending := sv.masterReplOffset }
  else w.set fun sv => { sv with aofBioFsyncStatus := .err }

/-- The label `try_fsync` of `flushAppendOnlyFile`. -/
def tryFsync (env : FlushEnv) (w : World D A δ) : World D A δ :=
  let sv := w.sv
  if sv.aofNoFsyncOnRewrite && hasActiveChildProcess sv then w
  else if sv.aofFsync = .always then
    match sv.aofFd with
    | none => w.exit
    | some fd =>
      if env.fsync then
        (w.onFs (·.fsync fd)).set fun sv => { sv with
          aofLastIncrFsyncOffset := sv.aofLastIncrSize
          aofLastFsync := sv.mstime
          fsyncedReploffPending := sv.masterReplOffset }
      else w.exit
  else if sv.aofFsync = .everysec ∧ 1000 ≤ sv.mstime - sv.aofLastFsync then
    let w :=
      if aofFsyncInProgress then w
      else
        let w :=
          match sv.aofFd with
          -- `fsync(-1)` fails with EBADF, which the job takes for success
          | none => w.set fun sv => { sv with
              aofBioFsyncStatus := .ok
              fsyncedReploffPending := sv.masterReplOffset }
          | some fd => bioAofFsync env.fsync fd w
        w.set fun sv => { sv with aofLastIncrFsyncOffset := sv.aofLastIncrSize }
    w.set fun sv => { sv with aofLastFsync := sv.mstime }
  else w

/-- What `aofWrite` stores of a buffer of length `len`: all of it, a part, or nothing. -/
def aofWrite (env : FlushEnv) (len : Nat) : Nat :=
  match env.written with
  | none => len
  | some n => min n len

/-- A short write is undone by `ftruncate`. -/
def shortUndone (env : FlushEnv) (n : Nat) : Bool := decide (0 < n) && env.ftruncate

/-- A write of `n` units, undone if possible. -/
def writeShort (env : FlushEnv) (n : Nat) (w : World D A δ) : World D A δ :=
  match w.sv.aofFd with
  | none => w
  | some fd =>
    if n = 0 then w
    else
      let w := w.onFs (·.write fd (w.sv.aofBuf.take n))
      if shortUndone env n then w.onFs (·.ftruncate fd w.sv.aofLastIncrSize) else w

/-- The write of `flushAppendOnlyFile` stored `n` units, less than all of the buffer. -/
def writeFailed (env : FlushEnv) (n : Nat) (w : World D A δ) : World D A δ :=
  let kept := if shortUndone env n then 0 else n
  if w.sv.aofFsync = .always then (writeShort env n w).exit
  else
    (writeShort env n w).set fun sv => { sv with
      aofFlushPostponedStart := 0
      aofLastWriteStatus := .err
      aofCurrentSize := sv.aofCurrentSize + kept
      aofLastIncrSize := sv.aofLastIncrSize + kept
      aofBuf := sv.aofBuf.drop kept }

/-- The write of `flushAppendOnlyFile` stored the whole buffer. -/
def writeDone (fd : Nat) (w : World D A δ) : World D A δ :=
  (w.onFs (·.write fd w.sv.aofBuf)).set fun sv => { sv with
    aofFlushPostponedStart := 0
    aofLastWriteStatus := .ok
    aofCurrentSize := sv.aofCurrentSize + sv.aofBuf.length
    aofLastIncrSize := sv.aofLastIncrSize + sv.aofBuf.length
    aofBuf := [] }

/-- `flushAppendOnlyFile` has something to write, and postpones it. -/
def flushPostponed (force : Bool) (sv : Server D A δ) : Bool :=
  decide (sv.aofFsync = .everysec) && !force && aofFsyncInProgress &&
    (decide (sv.aofFlushPostponedStart = 0) ||
      decide (sv.mstime - sv.aofFlushPostponedStart < 2000))

/-- `flushAppendOnlyFile`. -/
def flushAppendOnlyFile (force : Bool) (env : FlushEnv) (w : World D A δ) : World D A δ :=
  let sv := w.sv
  if sv.aofBuf = [] then
    if sv.aofLastIncrFsyncOffset = sv.aofLastIncrSize then
      if aofFsyncInProgress then w
      else w.set fun sv => { sv with fsyncedReploffPending := sv.masterReplOffset }
    else if sv.aofFsync = .everysec ∧ 1000 ≤ sv.mstime - sv.aofLastFsync ∧
        aofFsyncInProgress = false then tryFsync env w
    else if sv.aofFsync = .always then tryFsync env w
    else w
  else if flushPostponed force sv then
    w.set fun sv => { sv with
      aofFlushPostponedStart :=
        if sv.aofFlushPostponedStart = 0 then sv.mstime else sv.aofFlushPostponedStart }
  else
    match sv.aofFd with
    | some fd =>
      let nwritten := aofWrite env sv.aofBuf.length
      if nwritten = sv.aofBuf.length then tryFsync env (writeDone fd w)
      else writeFailed env nwritten w
    | none => writeFailed env 0 w

/-! ## Opening a new INCR file -/

/-- What the system calls of one `openNewIncrAofForAppend` return. -/
structure OpenIncrEnv where
  openNew : Bool
  persist : ManifestWrite
  /-- The fsync of the old file, before it is closed. -/
  closeFsync : Bool
  deriving DecidableEq, Repr

def OpenIncrEnv.success : OpenIncrEnv := ⟨true, .success, true⟩

/-- `aof_background_fsync_and_close` on the old `aof_fd`, if there is one. -/
def closeOldAof (fsyncOk : Bool) (w : World D A δ) : World D A δ :=
  match w.sv.aofFd with
  | none => w
  | some fd =>
    ((bioAofFsync fsyncOk fd w).onFs (·.close fd)).set fun sv => { sv with
      aofLastFsync := sv.mstime }

/-- The end of `openNewIncrAofForAppend`, with the file `newfd` open and the new manifest
persisted. -/
def switchIncr (fsyncOk : Bool) (newfd : Nat) (am : AofManifest String) (w : World D A δ) :
    World D A δ :=
  (closeOldAof fsyncOk w).set fun sv => { sv with
    aofFd := some newfd
    aofLastIncrSize := 0
    aofLastIncrFsyncOffset := 0
    aofManifest := am }

/-- `openNewIncrAofForAppend`. -/
def openNewIncrAofForAppend (env : OpenIncrEnv) (w : World D A δ) : Status × World D A δ :=
  match w.sv.aofState with
  | .off => (.ok, w)
  | .waitRewrite =>
    if env.openNew then
      let newfd := (w.disk.fs.openFile (.aof w.sv.conf.tempIncrAofName) true false).1
      let w := w.onFs fun fs => (fs.openFile (.aof w.sv.conf.tempIncrAofName) true false).2
      (.ok, switchIncr env.closeFsync newfd w.sv.aofManifest w)
    else (.err, w)
  | .on =>
    let (name, am) := getNewIncrAofName w.sv.conf w.sv.aofManifest
    if env.openNew then
      let newfd := (w.disk.fs.openFile (.aof name) true false).1
      let w := w.onFs fun fs => (fs.openFile (.aof name) true false).2
      match persistAofManifest env.persist am w with
      | (.err, _, w) => (.err, w.onFs (·.close newfd))
      | (.ok, am, w) => (.ok, switchIncr env.closeFsync newfd am w)
    else (.err, w)

/-! ## Rewriting -/

/-- `AOF_REWRITE_LIMITE_THRESHOLD`. -/
def aofRewriteLimiteThreshold : Nat := 3

/-- `AOF_REWRITE_LIMITE_MAX_MINUTES`. -/
def aofRewriteLimiteMaxMinutes : Nat := 60

/-- `aofRewriteLimited`. -/
def aofRewriteLimited (w : World D A δ) : Bool × World D A δ :=
  let sv := w.sv
  if sv.statAofrwConsecutiveFailures < aofRewriteLimiteThreshold then
    (false, w.set fun sv => { sv with nextDelayMinutes := 0, nextRewriteTime := 0 })
  else if sv.nextRewriteTime ≠ 0 then
    if sv.unixtime < sv.nextRewriteTime then (true, w)
    else (false, w.set fun sv => { sv with nextRewriteTime := 0 })
  else
    let delay := if sv.nextDelayMinutes = 0 then 1 else sv.nextDelayMinutes * 2
    let delay := min delay aofRewriteLimiteMaxMinutes
    (true, w.set fun sv => { sv with
      nextDelayMinutes := delay
      nextRewriteTime := sv.unixtime + delay * 60 })

/-- What the system calls of one rewrite attempt return. -/
structure RewriteEnv where
  dirCreate : Bool
  flush : FlushEnv
  incr : OpenIncrEnv
  deriving DecidableEq, Repr

def RewriteEnv.success : RewriteEnv := ⟨true, .success, .success⟩

/-- The end of `rewriteAppendOnlyFileBackground`, once the new INCR file is open, for a result of
`redisFork`. -/
def forkRewrite (fork : Option Nat) (w : World D A δ) : Status × World D A δ :=
  let w :=
    if w.sv.aofState = .waitRewrite then
      w.set fun sv => { sv with
        fsyncedReploffPending := sv.masterReplOffset
        fsyncedReploff := some 0 }
    else w
  match fork with
  | none => (.err, w.set fun sv => { sv with aofLastbgrewriteStatus := .err })
  | some _ =>
    (.ok, w.set fun sv => { sv with aofRewriteScheduled := false, childType := some .aof })

/-- The directory exists, and the next command fed will select its database. -/
def prepareRewrite (w : World D A δ) : World D A δ :=
  w.dirCreate.set fun sv => { sv with aofSelectedDb := none }

/-- `rewriteAppendOnlyFileBackground`, for a result of `redisFork`. -/
def rewriteBackground (fork : Option Nat) (env : RewriteEnv) (w : World D A δ) :
    Status × World D A δ :=
  if hasActiveChildProcess w.sv then (.err, w)
  else if !env.dirCreate then
    (.err, w.set fun sv => { sv with aofLastbgrewriteStatus := .err })
  else
    let w := flushAppendOnlyFile true env.flush (prepareRewrite w)
    if w.exited then (.err, w)
    else
      match openNewIncrAofForAppend env.incr w with
      | (.err, w) => (.err, w.set fun sv => { sv with aofLastbgrewriteStatus := .err })
      | (.ok, w) => forkRewrite fork w

/-- `rewriteAppendOnlyFileBackground` of the WASI build. -/
def rewriteAppendOnlyFileBackground (env : RewriteEnv) (w : World D A δ) :
    Status × World D A δ :=
  rewriteBackground redisFork env w

/-- What the system calls of one `rewriteAppendOnlyFile` return. -/
structure BaseEnv where
  openTemp : Bool
  /-- How much was saved before an error, `none` if there was no error. -/
  saved : Option Nat
  /-- `fflush`, `fsync` and `fclose`. -/
  sync : Bool
  rename : Bool
  deriving DecidableEq, Repr

def BaseEnv.success : BaseEnv := ⟨true, none, true, true⟩

/-- The file `rewriteAppendOnlyFile` writes to. -/
def tempRewriteName (sv : Server D A δ) : String :=
  "temp-rewriteaof-" ++ toString sv.pid ++ ".aof"

/-- `rewriteAppendOnlyFile`. -/
def rewriteAppendOnlyFile (env : BaseEnv) (filename : Path) (w : World D A δ) :
    Status × World D A δ :=
  let tmpfile := Path.cwd (tempRewriteName w.sv)
  let contents := AofFormat.enc (.base w.sv.dataset w.sv.masterReplOffset)
  if !env.openTemp then (.err, w)
  else
    let fd := (w.disk.fs.openFile tmpfile true false).1
    let w := w.onFs fun fs => (fs.openFile tmpfile true false).2
    match env.saved with
    | some n =>
      (.err, ((w.onFs (·.write fd (contents.take n))).onFs (·.close fd)).onFs (·.unlink tmpfile))
    | none =>
      let w := w.onFs (·.write fd contents)
      if !env.sync then (.err, (w.onFs (·.close fd)).onFs (·.unlink tmpfile))
      else
        let w := (w.onFs (·.fsync fd)).onFs (·.close fd)
        if !env.rename then (.err, w.onFs (·.unlink tmpfile))
        else (.ok, w.onFs (·.rename tmpfile filename))

/-! ## Turning the AOF off and on -/

/-- What the system calls of one `stopAppendOnly` return. -/
structure StopEnv where
  flush : FlushEnv
  fsync : Bool
  deriving DecidableEq, Repr

def StopEnv.success : StopEnv := ⟨.success, true⟩

/-- `stopAppendOnly` after the flush: fsync and close. -/
def closeAof (fsyncOk : Bool) (w : World D A δ) : World D A δ :=
  match w.sv.aofFd with
  | none => w
  | some fd =>
    if fsyncOk then
      ((w.onFs (·.fsync fd)).set fun sv => { sv with aofLastFsync := sv.mstime }).onFs (·.close fd)
    else w.onFs (·.close fd)

/-- `stopAppendOnly`. -/
def stopAppendOnly (env : StopEnv) (w : World D A δ) : World D A δ :=
  let w := flushAppendOnlyFile true env.flush w
  if w.exited then w
  else
    let w := (closeAof env.fsync w).set fun sv => { sv with
      aofFd := none
      aofSelectedDb := none
      aofState := .off
      aofRewriteScheduled := false
      aofLastIncrSize := 0
      aofLastIncrFsyncOffset := 0
      fsyncedReploff := none
      fsyncedReploffPending := 0
      aofBuf := [] }
    { w with ackTicks := none }

/-- What the system calls of the WASI branch of `startAppendOnly` return. -/
structure StartEnv where
  dirCreate : Bool
  incr : OpenIncrEnv
  rewrite : BaseEnv
  renameBase : Bool
  renameIncr : Bool
  persist : ManifestWrite
  /-- In `aofDelHistoryFiles`. -/
  persistHistory : ManifestWrite
  /-- How the names of the new BASE and INCR entries read once their memory has been freed, while
  the manifest still points there; `none` if as before. -/
  freed : Option (String × String)
  deriving DecidableEq, Repr

def StartEnv.success : StartEnv :=
  ⟨true, .success, .success, true, true, .success, .success, none⟩

/-- `temp-rewriteaof-sync.aof`. -/
def syncTempName : String := "temp-rewriteaof-sync.aof"

/-- An error exit of the WASI branch. -/
def startFailed (w : World D A δ) : Status × World D A δ :=
  (.err, w.set fun sv => { sv with aofState := .off })

/-- An error exit that also removes the temporary INCR file. -/
def startFailedDelTemp (w : World D A δ) : Status × World D A δ :=
  (.err, aofDelTempIncrAofFile (w.set fun sv => { sv with aofState := .off }))

/-- The new manifest takes effect. -/
def installManifest (base : String) (am : AofManifest String) (w : World D A δ) : World D A δ :=
  w.set fun sv => { sv with
    aofManifest := am
    aofCurrentSize := w.fileSize base + sv.aofLastIncrSize
    aofRewriteBaseSize := w.fileSize base + sv.aofLastIncrSize }

/-- The `sdsfree` of the names of the new BASE and INCR files, which `server.aof_manifest` owns. -/
def freeNames (freed : Option (String × String)) (w : World D A δ) : World D A δ :=
  w.set fun sv => { sv with aofManifest := sv.aofManifest.reread freed }

/-- The WASI branch of `startAppendOnly` after the manifest `am` has been persisted. -/
def installRewrite (env : StartEnv) (base : String) (am : AofManifest String)
    (w : World D A δ) : World D A δ :=
  let w := freeNames env.freed (installManifest base am w)
  (aofDelHistoryFiles env.persistHistory w).set fun sv => { sv with
    aofLastbgrewriteStatus := .ok
    statAofrwConsecutiveFailures := 0
    aofState := .on
    fsyncedReploff := some sv.fsyncedReploffPending
    aofBuf := [] }

/-- The WASI branch of `startAppendOnly` from the first rename on. -/
def adoptRewrite (env : StartEnv) (w : World D A δ) : Status × World D A δ :=
  let (base, am) := getNewBaseFileNameAndMarkPreAsHistory w.sv.conf w.sv.aofManifest
  if !env.renameBase then startFailedDelTemp w
  else
    let w := w.onFs (·.rename (.cwd syncTempName) (.aof base))
    let (incr, am) := getNewIncrAofName w.sv.conf am
    if !env.renameIncr then startFailedDelTemp (w.bgUnlink (.aof base))
    else
      let w := w.onFs (·.rename (.aof w.sv.conf.tempIncrAofName) (.aof incr))
      let am := markRewrittenIncrAofAsHistory w.sv.aofFd.isSome am
      match persistAofManifest env.persist am w with
      | (.err, _, w) => startFailedDelTemp ((w.bgUnlink (.aof base)).bgUnlink (.aof incr))
      | (.ok, am, w) => (.ok, installRewrite env base am w)

/-- The WASI branch of `startAppendOnly`: the rewrite, without `fork`. -/
def startSync (env : StartEnv) (w : World D A δ) : Status × World D A δ :=
  if !env.dirCreate then startFailed w
  else
    match openNewIncrAofForAppend env.incr (prepareRewrite w) with
    | (.err, w) => startFailed w
    | (.ok, w) =>
      match rewriteAppendOnlyFile env.rewrite (.cwd syncTempName) w with
      | (.err, w) => startFailedDelTemp w
      | (.ok, w) => adoptRewrite env w

/-- The end of `startAppendOnly`: earlier errors are forgotten. -/
def startDone (w : World D A δ) : World D A δ :=
  { w with
    sv := { w.sv with
      aofLastFsync := w.sv.mstime
      aofBioFsyncStatus := .ok
      aofLastWriteStatus := .ok }
    ackTicks := some 0 }

/-- `startAppendOnly`. `killAppendOnlyChild` does nothing on WASI. -/
def startAppendOnly (env : StartEnv) (w : World D A δ) : Status × World D A δ :=
  let w := w.set fun sv => { sv with aofState := .waitRewrite }
  if (hasActiveChildProcess w.sv && decide (w.sv.childType ≠ some .aof)) || w.sv.inExec then
    (.ok, startDone (w.set fun sv => { sv with aofRewriteScheduled := true }))
  else
    match startSync env w with
    | (.err, w) => (.err, w)
    | (.ok, w) => (.ok, startDone w)

end WasiPorts.Redis.Aof
