import WasiPorts.Lib.Text
import WasiPorts.Redis.Commands.Table

/-!
# Command lookup and dispatch

From the static table to the call through `cmd->proc`: `populateCommandStructure` builds the
command dictionary of the server, `lookupCommand` finds the command of a request in it, and three
paths of the server call its handler — `processCommand` directly, `execCommand` for the commands a
transaction has queued, and `loadSingleAppendOnlyFile` for the records of an append-only file.

The model records the calls. Of what a handler does, only the effect of the transaction commands
on the client is kept.
-/

namespace WasiPorts.Redis.Commands

open WasiPorts.Text

/-! ## Names -/

/-- Two names are the same key of a command dictionary: they fall into the same bucket and
`strcasecmp` finds them equal. The hash is computed on the lower-case bytes (`siphash_nocase`), NUL
bytes included. -/
def sameKey (hash : Bytes → Nat) (a b : Bytes) : Bool :=
  hash (a.map toLower) = hash (b.map toLower) ∧ sameIgnoringCase a b

/-! ## The dictionary (`server.c`) -/

/-- A populated command. `subcommandsDict = none` is the null pointer of a command without any. -/
structure RedisCommand extends Entry where
  subcommandsDict : Option (List Entry)

/-- The test at the top of `populateCommandStructure`. -/
def Entry.exists (sentinelMode : Bool) (e : Entry) : Bool :=
  if sentinelMode then e.has .sentinel else !e.has .onlySentinel

/-- `populateCommandStructure`: the dictionary of subcommands is only created by the first
`commandAddSubcommand`. -/
def populateCommandStructure (sentinelMode : Bool) (c : Command) : Option RedisCommand :=
  if c.exists sentinelMode then
    let subs := c.subcommands.filter (·.exists sentinelMode)
    some { c.toEntry with subcommandsDict := if subs = [] then none else some subs }
  else none

/-- `populateCommandTable`. -/
def commandDict (sentinelMode : Bool) : List RedisCommand :=
  redisCommandTable.filterMap (populateCommandStructure sentinelMode)

/-- `lookupCommandLogic` with `strict` off, on the command dictionary. -/
def lookupCommand (hash : Bytes → Nat) (commands : List RedisCommand) (argv : List Bytes) :
    Option Entry :=
  match argv with
  | [] => none
  | name :: args =>
    match commands.find? fun c => sameKey hash (bytes c.declaredName) name with
    | none => none
    | some base =>
      match args, base.subcommandsDict with
      | sub :: _, some subs => subs.find? fun c => sameKey hash (bytes c.declaredName) sub
      | _, _ => some base.toEntry

/-- `commandCheckArity`. -/
def commandCheckArity (cmd : Entry) (argc : Nat) : Bool :=
  !((0 < cmd.arity ∧ cmd.arity ≠ argc) ∨ (argc : Int) < -cmd.arity)

/-! ## Clients -/

structure QueuedCommand where
  cmd : Entry
  argv : List Bytes

/-- A call through `cmd->proc`. -/
structure Call where
  proc : Option Proc
  argv : List Bytes

/-- The call that running the command makes. -/
def QueuedCommand.toCall (q : QueuedCommand) : Call := ⟨q.cmd.proc, q.argv⟩

/-- What dispatching knows of a client. `postponed` is the command of a request that will be
processed again without a new lookup, because the server was paused or the command blocked. -/
structure Client where
  multi : Bool
  dirtyCas : Bool
  dirtyExec : Bool
  queue : List QueuedCommand
  postponed : Option QueuedCommand

def Client.fresh : Client := ⟨false, false, false, [], none⟩

/-- `discardTransaction`. -/
def discardTransaction (c : Client) : Client :=
  { c with multi := false, dirtyCas := false, dirtyExec := false, queue := [] }

/-- `flagTransaction`. -/
def flagTransaction (c : Client) : Client :=
  if c.multi then { c with dirtyExec := true } else c

/-- `queueMultiCommand`. -/
def queueMultiCommand (c : Client) (q : QueuedCommand) : Client :=
  if c.dirtyCas || c.dirtyExec then c else { c with queue := c.queue ++ [q] }

/-- `execCommand`: the calls it makes and the client after it. `permitted` is the ACL check made
again for each queued command. -/
def execCommand (permitted : QueuedCommand → Bool) (c : Client) : List Call × Client :=
  if !c.multi then ([], c)
  else if c.dirtyCas || c.dirtyExec then ([], discardTransaction c)
  else ((c.queue.filter permitted).map (·.toCall), discardTransaction c)

/-- `call`: the call through `cmd->proc`, with the calls that EXEC makes inside it. -/
def call (permitted : QueuedCommand → Bool) (c : Client) (q : QueuedCommand) :
    List Call × Client :=
  match q.cmd.proc with
  | some .execCommand =>
    let (calls, c) := execCommand permitted c
    (q.toCall :: calls, c)
  | some .multiCommand => ([q.toCall], { c with multi := true })
  | some .discardCommand | some .resetCommand =>
    ([q.toCall], if c.multi then discardTransaction c else c)
  | _ => ([q.toCall], c)

/-! ## `processCommand` -/

/-- The server state that the checks of `processCommand` read, as the answers they get. -/
structure Checks where
  /-- A module yields and does not serve clients. -/
  moduleYield : Bool
  /-- The request is a DEBUG or MODULE that the configuration does not allow. -/
  protectedDenied : Bool
  authRequired : Bool
  aclDenied : Bool
  clusterRedirect : Bool
  evicted : Bool
  outOfMemory : Bool
  diskError : Bool
  badReplicas : Bool
  readOnlyReplica : Bool
  obeyClient : Bool
  pubsubResp2 : Bool
  masterDown : Bool
  loading : Bool
  asyncLoading : Bool
  busy : Bool
  isReplica : Bool
  pausedAll : Bool
  pausedWrite : Bool
  /-- The handler blocks the client, and the command is processed again when it is unblocked. -/
  blocks : Bool
  /-- The ACL checks made again by EXEC. -/
  permitted : QueuedCommand → Bool

/-- A master with nothing in the way of a request. -/
def Checks.clear : Checks :=
  { moduleYield := false, protectedDenied := false, authRequired := false, aclDenied := false
    clusterRedirect := false, evicted := false, outOfMemory := false, diskError := false
    badReplicas := false, readOnlyReplica := false, obeyClient := false, pubsubResp2 := false
    masterDown := false, loading := false, asyncLoading := false, busy := false
    isReplica := false, pausedAll := false, pausedWrite := false, blocks := false
    permitted := fun _ => true }

/-- Where the checks after the lookup lead. -/
inductive Verdict where
  | reject | postpone | closed | run
  deriving DecidableEq

/-- A flag of the command, or for EXEC of one of the queued commands. -/
def hasFlag (c : Client) (cmd : Entry) (f : CmdFlag) : Bool :=
  cmd.has f || (cmd.proc = some .execCommand && c.queue.any (·.cmd.has f))

/-- The absence of a flag, in the command or for EXEC in one of the queued commands. -/
def lacksFlag (c : Client) (cmd : Entry) (f : CmdFlag) : Bool :=
  !cmd.has f || (cmd.proc = some .execCommand && c.queue.any (!·.cmd.has f))

/-- The commands allowed to a RESP2 client in Pub/Sub context. -/
def pubsubProcs : List Proc :=
  [.pingCommand, .subscribeCommand, .ssubscribeCommand, .unsubscribeCommand,
    .sunsubscribeCommand, .psubscribeCommand, .punsubscribeCommand, .quitCommand, .resetCommand]

/-- The checks of `processCommand` between the lookup and the execution, in their order. -/
def verdict (k : Checks) (c : Client) (cmd : Entry) : Verdict :=
  let isWrite := hasFlag c cmd .write
  let mayReplicate := isWrite || hasFlag c cmd .mayReplicate
  if k.authRequired && !cmd.has .noAuth then .reject
  else if c.multi && cmd.has .noMulti then .reject
  else if k.aclDenied then .reject
  else if k.clusterRedirect then .reject
  else if k.evicted then .closed
  else if k.outOfMemory && hasFlag c cmd .denyoom then .reject
  else if k.diskError && (isWrite || cmd.proc = some .pingCommand) && !k.obeyClient then .reject
  else if isWrite && k.badReplicas then .reject
  else if k.readOnlyReplica && !k.obeyClient && isWrite then .reject
  else if k.pubsubResp2 && !cmd.proc.any (· ∈ pubsubProcs) then .reject
  else if k.masterDown && lacksFlag c cmd .stale then .reject
  else if k.loading && !k.asyncLoading && lacksFlag c cmd .loading then .reject
  else if k.asyncLoading && hasFlag c cmd .noAsyncLoading then .reject
  else if k.busy && !cmd.has .allowBusy then .reject
  else if k.isReplica && (mayReplicate || hasFlag c cmd .readonly) then .reject
  else if !k.isReplica && (k.pausedAll || (k.pausedWrite && mayReplicate)) then .postpone
  else .run

/-- `rejectCommand` and its variants: a rejected EXEC aborts the transaction. -/
def rejectCommand (c : Client) (cmd : Option Entry) : Client :=
  let c := flagTransaction c
  if cmd.any (·.proc = some .execCommand) then discardTransaction c else c

/-- The commands that are run at once inside MULTI. -/
def unqueuedProcs : List Proc :=
  [.execCommand, .discardCommand, .multiCommand, .watchCommand, .quitCommand, .resetCommand]

/-- The end of `processCommand`: everything after the lookup. -/
def execute (k : Checks) (c : Client) (q : QueuedCommand) : List Call × Client :=
  let c := { c with postponed := none }
  match verdict k c q.cmd with
  | .reject => ([], rejectCommand c q.cmd)
  | .closed => ([], c)
  | .postpone => ([], { c with postponed := some q })
  | .run =>
    if c.multi && !q.cmd.proc.any (· ∈ unqueuedProcs) then ([], queueMultiCommand c q)
    else
      let (calls, c) := call k.permitted c q
      (calls, if k.blocks then { c with postponed := some q } else c)

/-- `processCommand` for a new request. -/
def processCommand (hash : Bytes → Nat) (commands : List RedisCommand) (k : Checks) (c : Client)
    (argv : List Bytes) : List Call × Client :=
  if argv.head?.any fun name => caseKey name = bytes "host:" ∨ caseKey name = bytes "post" then ([], c)
  else if k.moduleYield then ([], c)
  else
    match lookupCommand hash commands argv with
    | none => ([], rejectCommand c none)
    | some cmd =>
      if !commandCheckArity cmd argv.length then ([], rejectCommand c (some cmd))
      else if k.protectedDenied && cmd.has .protectedCmd then ([], rejectCommand c (some cmd))
      else execute k c ⟨cmd, argv⟩

/-! ## Runs -/

/-- What happens to a client. -/
inductive Event where
  | request (argv : List Bytes) (k : Checks)
  /-- A postponed request is processed again, its lookup already done. -/
  | reprocess (k : Checks)
  /-- A watched key was touched. -/
  | touchWatched

structure Session where
  client : Client
  calls : List Call

def Session.start (c : Client) : Session := ⟨c, []⟩

def Session.add (x : Session) (r : List Call × Client) : Session := ⟨r.2, x.calls ++ r.1⟩

def Session.step (hash : Bytes → Nat) (commands : List RedisCommand) (x : Session) :
    Event → Session
  | .request argv k => x.add (processCommand hash commands k x.client argv)
  | .reprocess k =>
    match x.client.postponed with
    | none => x
    | some q => if k.moduleYield then x else x.add (execute k x.client q)
  | .touchWatched => { x with client := { x.client with dirtyCas := true } }

/-- One record of `loadSingleAppendOnlyFile`: no arity check, and inside MULTI everything but EXEC
is queued. Loading stops at an unknown command. -/
def replayRecord (hash : Bytes → Nat) (commands : List RedisCommand)
    (permitted : QueuedCommand → Bool) (x : Session × Bool) (argv : List Bytes) : Session × Bool :=
  if x.2 then
    match lookupCommand hash commands argv with
    | none => (x.1, false)
    | some cmd =>
      if x.1.client.multi && cmd.proc ≠ some .execCommand then
        ({ x.1 with client := queueMultiCommand x.1.client ⟨cmd, argv⟩ }, true)
      else (x.1.add (call permitted x.1.client ⟨cmd, argv⟩), true)
  else x

end WasiPorts.Redis.Commands
