import WasiPorts.Lib.Run
import WasiPorts.Redis.Aof.Server

/-!
# Commands and the event loop

What drives the AOF: commands, alone or inside `EXEC`, with the propagation of their effects;
`beforeSleep`; and `serverCron`. One input of the machine is one of these, with the results of the
system calls made on the way.
-/

namespace WasiPorts.Redis.Aof

open WasiPorts.Run

variable {D A δ : Type} [Commands A δ] [AofFormat D A δ]

/-! ## Propagation -/

/-- `shouldPropagate(PROPAGATE_AOF|PROPAGATE_REPL)`. -/
def shouldPropagate (sv : Server D A δ) : Bool := decide (sv.aofState ≠ .off) || sv.feedsReplicas

/-- How far `replicationFeedSlaves` moves the replication offset for a command of `len` bytes. -/
def replAdvance (sv : Server D A δ) (len : Nat) : Nat := if sv.feedsReplicas then len else 1

/-- `propagateNow`. The command is given as a function of the offset at which it ends. -/
def propagateNow (dictid : Option Nat) (len : Nat) (cmd : Nat → Rec A δ) (w : World D A δ) :
    World D A δ :=
  if shouldPropagate w.sv then
    let off := w.sv.masterReplOffset + replAdvance w.sv len
    let w := if w.sv.aofState ≠ .off then feedAppendOnlyFile dictid (cmd off) w else w
    w.set fun sv => { sv with masterReplOffset := off }
  else w

/-- `propagateNow` for an entry of `server.also_propagate`. -/
def propagateOp (w : World D A δ) (op : RedisOp A) : World D A δ :=
  propagateNow (some op.db) (op.replLen + 1) (.command op.argv op.db) w

/-- `propagatePendingCommands`. `MULTI` and `EXEC` take 15 and 14 bytes. -/
def propagatePendingCommands (touchesArbitraryKeys : Bool) (w : World D A δ) : World D A δ :=
  let ops := w.sv.alsoPropagate
  let transaction := decide (1 < ops.length) && !touchesArbitraryKeys
  let w := if transaction then propagateNow none 15 (fun _ => .multi) w else w
  let w := ops.foldl propagateOp w
  let w := if transaction then propagateNow none 14 (fun _ => .exec) w else w
  w.set fun sv => { sv with alsoPropagate := [] }

/-! ## Commands -/

inductive Command (A : Type) where
  /-- A command with its effects. `touchesArbitraryKeys` is `CMD_TOUCHES_ARBITRARY_KEYS`. -/
  | write (ops : List (RedisOp A)) (touchesArbitraryKeys : Bool)
  /-- `CONFIG SET appendonly`. -/
  | configAppendonly (yes : Bool) (start : StartEnv) (stop : StopEnv)
  | bgrewriteaof (env : RewriteEnv)
  deriving DecidableEq, Repr

/-- One effect of a write command: on the dataset, and through `alsoPropagate`. -/
def writeOp (sv : Server D A δ) (op : RedisOp A) : Server D A δ :=
  { sv with
    dataset := Commands.apply op.db op.argv sv.dataset
    alsoPropagate := if shouldPropagate sv then sv.alsoPropagate ++ [op] else sv.alsoPropagate }

omit [AofFormat D A δ] in
/-- The effects of a command change the dataset and what is to be propagated. -/
theorem foldl_writeOp (ops : List (RedisOp A)) (sv : Server D A δ) :
    ∃ d pending, ops.foldl writeOp sv = { sv with dataset := d, alsoPropagate := pending } := by
  induction ops generalizing sv with
  | nil => exact ⟨sv.dataset, sv.alsoPropagate, rfl⟩
  | cons op ops ih =>
      obtain ⟨d, pending, heq⟩ := ih (writeOp sv op)
      exact ⟨d, pending, heq⟩

/-- `updateAppendonly`; on failure `CONFIG SET` restores the old value. -/
def configSetAppendonly (yes : Bool) (start : StartEnv) (stop : StopEnv) (w : World D A δ) :
    World D A δ :=
  if yes = w.sv.aofEnabled then w
  else
    let w := w.set fun sv => { sv with aofEnabled := yes }
    if !yes ∧ w.sv.aofState ≠ .off then stopAppendOnly stop w
    else if yes ∧ w.sv.aofState = .off then
      match startAppendOnly start w with
      | (.ok, w) => w
      | (.err, w) => w.set fun sv => { sv with aofEnabled := false }
    else w

def bgrewriteaofCommand (env : RewriteEnv) (w : World D A δ) : World D A δ :=
  if w.sv.childType = some .aof then w
  else if hasActiveChildProcess w.sv || w.sv.inExec then
    w.set fun sv => { sv with aofRewriteScheduled := true, statAofrwConsecutiveFailures := 0 }
  else (rewriteAppendOnlyFileBackground env w).2

/-- The `proc` of a command. -/
def call (w : World D A δ) : Command A → World D A δ
  | .write ops _ => w.set fun sv => ops.foldl writeOp sv
  | .configAppendonly yes start stop => configSetAppendonly yes start stop w
  | .bgrewriteaof env => bgrewriteaofCommand env w

/-- The flag `propagatePendingCommands` looks at. -/
def Command.arbitrary : Command A → Bool
  | .write _ touchesArbitraryKeys => touchesArbitraryKeys
  | _ => false

/-- A command outside a transaction. -/
def callCommand (c : Command A) (w : World D A δ) : World D A δ :=
  (call w c).andThen (propagatePendingCommands c.arbitrary)

/-- The next command of a transaction. -/
def callNext (w : World D A δ) (c : Command A) : World D A δ := w.andThen (call · c)

/-- `server.in_exec = 1`. -/
def enterExec (w : World D A δ) : World D A δ := w.set fun sv => { sv with inExec := true }

/-- `server.in_exec = 0`, and the end of the execution unit. -/
def leaveExec (w : World D A δ) : World D A δ :=
  propagatePendingCommands false (w.set fun sv => { sv with inExec := false })

/-- `execCommand`. -/
def execCommand (cs : List (Command A)) (w : World D A δ) : World D A δ :=
  (run callNext (enterExec w) cs).andThen leaveExec

/-! ## The event loop -/

/-- The flush of `beforeSleep`. -/
def flushBeforeSleep (env : FlushEnv) (w : World D A δ) : World D A δ :=
  if w.sv.aofState = .off then w else flushAppendOnlyFile false env w

/-- The update of `fsynced_reploff` in `beforeSleep`. -/
def updateFsyncedReploff (w : World D A δ) : World D A δ :=
  if w.sv.aofState = .on ∧ w.sv.fsyncedReploff ≠ none then
    w.set fun sv => { sv with fsyncedReploff := some sv.fsyncedReploffPending }
  else w

/-- `beforeSleep`. -/
def beforeSleep (env : FlushEnv) (w : World D A δ) : World D A δ :=
  (flushBeforeSleep env w).andThen updateFsyncedReploff

/-- What the system calls of one `serverCron` return. -/
structure CronEnv where
  scheduled : RewriteEnv
  growth : RewriteEnv
  postponed : FlushEnv
  /-- `run_with_period(1000)`. -/
  second : Bool
  retry : FlushEnv
  deriving DecidableEq, Repr

def CronEnv.success : CronEnv := ⟨.success, .success, .success, true, .success⟩

/-- A rewrite that has fallen due in `serverCron`. -/
def rewriteUnlessLimited (env : RewriteEnv) (w : World D A δ) : World D A δ :=
  match aofRewriteLimited w with
  | (true, w) => w
  | (false, w) => (rewriteAppendOnlyFileBackground env w).2

/-- The scheduled rewrite of `serverCron`. -/
def cronScheduled (env : RewriteEnv) (w : World D A δ) : World D A δ :=
  if !hasActiveChildProcess w.sv && w.sv.aofRewriteScheduled then rewriteUnlessLimited env w
  else w

/-- The AOF has grown enough for a rewrite. -/
def growthDue (sv : Server D A δ) : Bool :=
  decide (sv.aofState = .on) && !hasActiveChildProcess sv && decide (sv.aofRewritePerc ≠ 0) &&
    decide (sv.aofRewriteMinSize < sv.aofCurrentSize) &&
    let base := if sv.aofRewriteBaseSize = 0 then 1 else sv.aofRewriteBaseSize
    decide ((sv.aofRewritePerc : Int) ≤ (sv.aofCurrentSize * 100 / base : Nat) - 100)

/-- The growth-triggered rewrite of `serverCron`. -/
def cronGrowth (env : RewriteEnv) (w : World D A δ) : World D A δ :=
  if growthDue w.sv then rewriteUnlessLimited env w else w

/-- The postponed flush of `serverCron`. -/
def cronPostponed (env : FlushEnv) (w : World D A δ) : World D A δ :=
  if w.sv.aofState ≠ .off ∧ w.sv.aofFlushPostponedStart ≠ 0 then flushAppendOnlyFile false env w
  else w

/-- The flush of `serverCron` after a write error. -/
def cronRetry (second : Bool) (env : FlushEnv) (w : World D A δ) : World D A δ :=
  if second ∧ w.sv.aofState ≠ .off ∧ w.sv.aofLastWriteStatus = .err then
    flushAppendOnlyFile false env w
  else w

/-- One more complete tick. -/
def countTick (w : World D A δ) : World D A δ := { w with ackTicks := w.ackTicks.map (· + 1) }

/-- `serverCron`. Without children, `checkChildrenDone` is not reached. -/
def serverCron (env : CronEnv) (w : World D A δ) : World D A δ :=
  ((((cronScheduled env.scheduled w).andThen (cronGrowth env.growth)).andThen
    (cronPostponed env.postponed)).andThen (cronRetry env.second env.retry)).andThen countTick

/-! ## The machine -/

inductive Op (A : Type) where
  | command (c : Command A)
  | exec (cs : List (Command A))
  | beforeSleep (env : FlushEnv)
  | serverCron (env : CronEnv)
  /-- `updateCachedTime`. -/
  | clock (ms : Int)
  /-- `CONFIG SET appendfsync`. -/
  | configAppendfsync (policy : AofFsync)
  deriving DecidableEq, Repr

/-- The names of new files that an enable frees read as before when the manifest is written again. -/
def Command.KeepsNames : Command A → Prop
  | .configAppendonly _ start _ => start.freed = none
  | .write _ _ | .bgrewriteaof _ => True

def Op.KeepsNames : Op A → Prop
  | .command c => c.KeepsNames
  | .exec cs => ∀ c ∈ cs, c.KeepsNames
  | .beforeSleep _ | .serverCron _ | .clock _ | .configAppendfsync _ => True

/-- One step of the server. After `exit` there is none. -/
def step (w : World D A δ) (op : Op A) : World D A δ :=
  w.andThen fun w =>
    match op with
    | .command c => callCommand c w
    | .exec cs => execCommand cs w
    | .beforeSleep env => beforeSleep env w
    | .serverCron env => serverCron env w
    | .clock ms => w.set fun sv => { sv with mstime := ms, unixtime := ms / 1000 }
    | .configAppendfsync policy => w.set fun sv => { sv with aofFsync := policy }

end WasiPorts.Redis.Aof
