import Mathlib
import WasiPorts.Redis.Aof.Frame

/-!
# Loading the AOF and starting the server

Replay of AOF files by the fake client, `loadAppendOnlyFiles` with its handling of truncated
files, the upgrade from a single old-style AOF file, and the start of the server up to the event
loop. Reading files does not fail.
-/

namespace WasiPorts.Redis.Aof

open WasiPorts.Posix

variable {D A δ : Type} [Commands A δ]

/-! ## Replay -/

/-- The fake client that executes a file: its selected database, the dataset, and the commands
queued since `MULTI`. -/
structure Replay (A δ : Type) where
  db : Nat
  data : δ
  queue : Option (List (Rec A δ))

namespace Replay

/-- A fresh client. -/
def new (d : δ) : Replay A δ := ⟨0, d, none⟩

/-- The execution of one command. Errors have no effect: the fake client takes no replies. -/
def exec (st : Replay A δ) : Rec A δ → Replay A δ
  | .select db => { st with db := db }
  | .command argv _ _ => { st with data := Commands.apply st.db argv st.data }
  | .base d _ => { st with data := d }
  | .timestamp | .multi | .exec => st

/-- One record of the file: executed, or queued inside `MULTI`. -/
def feed (st : Replay A δ) (r : Rec A δ) : Replay A δ :=
  match st.queue, r with
  | _, .timestamp => st
  | none, .multi => { st with queue := some [] }
  | none, r => st.exec r
  | some q, .exec => q.foldl exec { st with queue := none }
  | some q, r => { st with queue := some (q ++ [r]) }

end Replay

/-- The loop of `loadSingleAppendOnlyFile`. -/
def replay (rs : List (Rec A δ)) (d : δ) : Replay A δ := rs.foldl Replay.feed (.new d)

/-- `valid_up_to` and `valid_before_multi`. -/
structure Valid where
  upTo : Nat
  beforeMulti : Nat

/-- Neither annotations nor an RDB preamble move `valid_up_to`. -/
def Valid.next (v : Valid) : Rec A δ × Nat → Valid
  | (.timestamp, _) => v
  | (.base _ _, _) => v
  | (.multi, e) => ⟨e, v.upTo⟩
  | (_, e) => { v with upTo := e }

def valid (rs : List (Rec A δ × Nat)) : Valid := rs.foldl Valid.next ⟨0, 0⟩

/-! ## Loading files -/

inductive LoadStatus where
  | ok | notExist | empty | truncated | failed
  deriving DecidableEq, Repr

section Load

variable [AofFormat D A δ]

/-- The label `uxeof` of `loadSingleAppendOnlyFile`: the file is to be cut. -/
def unexpectedEof (loadTruncated : Bool) (cut : Nat) (d : δ) : LoadStatus × δ × Option Nat :=
  if loadTruncated then (.truncated, d, some cut) else (.failed, d, none)

/-- The end of the file, which is unexpected inside `MULTI`. -/
def endOfFile (loadTruncated : Bool) (cut : Nat) (st : Replay A δ) : LoadStatus × δ × Option Nat :=
  if st.queue = none then (.ok, st.data, none) else unexpectedEof loadTruncated cut st.data

/-- `loadSingleAppendOnlyFile` on the contents of the file: the result, the dataset, and the
length to which the file is to be cut. -/
def readAof (loadTruncated : Bool) (xs : List D) (d : δ) : LoadStatus × δ × Option Nat :=
  if xs = [] then (.empty, d, none)
  else
    let rs := (AofFormat.parse xs).1
    let st := replay (rs.map (·.1)) d
    match (AofFormat.parse xs).2 with
    | .bad => (.failed, st.data, none)
    | .short => unexpectedEof loadTruncated (valid rs).upTo st.data
    -- a `#TS:` line without its end is skipped like a whole one
    | .eof | .torn => endOfFile loadTruncated (valid rs).beforeMulti st

/-- Cuts a file, if need be. -/
def Disk.cut (dk : Disk D) (name : String) : Option Nat → Disk D
  | none => dk
  | some n => { dk with fs := dk.fs.truncate (.aof name) n }

/-- `loadSingleAppendOnlyFile`: the result, the dataset and the disk. -/
def loadSingleAppendOnlyFile (loadTruncated : Bool) (name : String) (d : δ) (dk : Disk D) :
    LoadStatus × δ × Disk D :=
  match dk.fs.data (.aof name) with
  | none => (.notExist, d, dk)
  | some xs =>
    let res := readAof loadTruncated xs d
    (res.1, res.2.1, dk.cut name res.2.2)

/-- The files of `loadAppendOnlyFiles`, in their order. -/
def loadFiles (loadTruncated : Bool) : List String → δ → Disk D → LoadStatus × δ × Disk D
  | [], d, dk => (.ok, d, dk)
  | name :: rest, d, dk =>
    match loadSingleAppendOnlyFile loadTruncated name d dk with
    | (.failed, d, dk) => (.failed, d, dk)
    | (.truncated, d, dk) => if rest = [] then (.truncated, d, dk) else (.failed, d, dk)
    | (_, d, dk) => loadFiles loadTruncated rest d dk

end Load

/-- The files that `loadAppendOnlyFiles` loads: the BASE, then the INCRs. -/
def AofManifest.loadNames (am : AofManifest String) : List String :=
  (am.baseAofInfo.toList ++ am.incrAofList).map (·.fileName)

/-- `getBaseAndIncrAppendOnlyFilesSize`, if all files exist. -/
def loadSize (names : List String) (dk : Disk D) : Nat :=
  (names.map fun name => ((dk.fs.data (.aof name)).getD []).length).sum

/-- `loadAppendOnlyFiles`, without the upgrade. -/
def loadAppendOnlyFiles [AofFormat D A δ] (loadTruncated : Bool) (am : AofManifest String)
    (dk : Disk D) : LoadStatus × δ × Disk D :=
  if am.loadNames = [] then (.notExist, Commands.empty A, dk)
  else if am.loadNames.any fun name => (dk.fs.data (.aof name)).isNone then
    (.failed, Commands.empty A, dk)
  else if loadSize am.loadNames dk = 0 then (.empty, Commands.empty A, dk)
  else loadFiles loadTruncated am.loadNames (Commands.empty A) dk

/-! ## Starting the server -/

/-- The configuration of a process, and what it finds besides the AOF. -/
structure StartConf (δ : Type) where
  conf : Conf
  pid : Nat
  aofEnabled : Bool
  aofLoadTruncated : Bool
  aofFsync : AofFsync
  aofNoFsyncOnRewrite : Bool
  aofRewritePerc : Nat
  aofRewriteMinSize : Nat
  aofTimestampEnabled : Bool
  feedsReplicas : Bool
  mstime : Int
  replOffset : Nat
  /-- The dataset that is loaded when the AOF is off. -/
  rdb : δ

/-- `initServerConfig` and `initServer`. -/
def initServer (c : StartConf δ) : Server D A δ where
  conf := c.conf
  pid := c.pid
  aofEnabled := c.aofEnabled
  aofState := if c.aofEnabled then .on else .off
  aofFsync := c.aofFsync
  aofNoFsyncOnRewrite := c.aofNoFsyncOnRewrite
  aofFd := none
  aofBuf := []
  aofSelectedDb := none
  aofManifest := .create
  aofRewriteScheduled := false
  aofRewritePerc := c.aofRewritePerc
  aofRewriteMinSize := c.aofRewriteMinSize
  aofRewriteBaseSize := 0
  aofCurrentSize := 0
  aofLastIncrSize := 0
  aofLastIncrFsyncOffset := 0
  aofLastFsync := c.mstime
  aofFlushPostponedStart := 0
  aofLastWriteStatus := .ok
  aofBioFsyncStatus := .ok
  aofLastbgrewriteStatus := .ok
  aofTimestampEnabled := c.aofTimestampEnabled
  aofCurTimestamp := 0
  statAofrwConsecutiveFailures := 0
  nextDelayMinutes := 0
  nextRewriteTime := 0
  fsyncedReploff := if c.aofEnabled then some 0 else none
  fsyncedReploffPending := 0
  masterReplOffset := c.replOffset
  feedsReplicas := c.feedsReplicas
  mstime := c.mstime
  unixtime := c.mstime / 1000
  inExec := false
  childType := none
  alsoPropagate := []
  dataset := Commands.empty A

/-- What the system calls of a server start return. -/
structure BootEnv where
  /-- `aofUpgradePrepare`. -/
  upgradeDir : Bool
  upgradePersist : ManifestWrite
  upgradeRename : Bool
  dirCreate : Bool
  base : BaseEnv
  openIncr : Bool
  persist : ManifestWrite
  persistHistory : ManifestWrite
  deriving DecidableEq, Repr

def BootEnv.success : BootEnv := ⟨true, .success, true, true, .success, true, .success, .success⟩

section Start

variable [AofFormat D A δ]

omit [Commands A δ] [AofFormat D A δ] in
/-- `aofLoadManifestFromDisk`. -/
def aofLoadManifestFromDisk (w : World D A δ) : World D A δ :=
  if !w.disk.aofDir then w
  else
    match w.disk.manifest with
    | none => w
    | some lines =>
      match loadManifest lines with
      | none => w.exit
      | some am => w.set fun sv => { sv with aofManifest := am }

omit [Commands A δ] [AofFormat D A δ] in
/-- The three situations in which `loadAppendOnlyFiles` upgrades. -/
def upgradeNeeded (w : World D A δ) : Bool :=
  let am := w.sv.aofManifest
  let old := w.sv.conf.aofFilename
  (w.disk.fs.file (.cwd old)).isSome &&
    (!w.disk.aofDir || decide (am.baseAofInfo = none ∧ am.incrAofList = []) ||
      (decide (am.baseAofInfo.map (·.fileName) = some old ∧ am.incrAofList = []) &&
        (w.disk.fs.file (.aof old)).isNone))

omit [Commands A δ] [AofFormat D A δ] in
/-- `aofUpgradePrepare`. It asserts that the AOF directory has no file of the old name. -/
def aofUpgradePrepare (env : BootEnv) (w : World D A δ) : World D A δ :=
  if (w.disk.fs.file (.aof w.sv.conf.aofFilename)).isSome then w.exit
  else if !env.upgradeDir then w.exit
  else
    let w := w.dirCreate
    let old := w.sv.conf.aofFilename
    let am := { w.sv.aofManifest with
      baseAofInfo := some ⟨old, 1, .base⟩
      currBaseFileSeq := 1
      dirty := true }
    match persistAofManifest env.upgradePersist am w with
    | (.err, _, w) => w.exit
    | (.ok, am, w) =>
      if !env.upgradeRename then w.exit
      else
        (w.onFs (·.rename (.cwd old) (.aof old))).set fun sv => { sv with aofManifest := am }

omit [Commands A δ] [AofFormat D A δ] in
/-- The upgrade in `loadAppendOnlyFiles`. -/
def upgradeIfNeeded (env : BootEnv) (w : World D A δ) : World D A δ :=
  if upgradeNeeded w then aofUpgradePrepare env w else w

/-- `loadAppendOnlyFiles` after the upgrade, as `loadDataFromDisk` uses it. -/
def loadAof (c : StartConf δ) (w : World D A δ) : World D A δ :=
  let res := loadAppendOnlyFiles (A := A) c.aofLoadTruncated w.sv.aofManifest w.disk
  if res.1 = .failed then w.exit
  else
    let size := loadSize w.sv.aofManifest.loadNames w.disk
    let base := loadSize (w.sv.aofManifest.baseAofInfo.toList.map (·.fileName)) w.disk
    (w.sys res.2.2).set fun sv => { sv with
      dataset := res.2.1
      aofCurrentSize := if res.1 = .ok ∨ res.1 = .truncated then size else sv.aofCurrentSize
      aofRewriteBaseSize :=
        if res.1 = .ok ∨ res.1 = .truncated then base else sv.aofRewriteBaseSize }

/-- `loadDataFromDisk`. -/
def loadDataFromDisk (c : StartConf δ) (env : BootEnv) (w : World D A δ) : World D A δ :=
  if w.sv.aofState = .on then (upgradeIfNeeded env w).andThen (loadAof c)
  else w.set fun sv => { sv with dataset := c.rdb }

/-- The BASE file that a server with an empty manifest starts with. -/
def createBaseIfNeeded (env : BaseEnv) (w : World D A δ) : World D A δ :=
  let am := w.sv.aofManifest
  if am.baseAofInfo = none ∧ am.incrAofList = [] then
    let (name, am) := getNewBaseFileNameAndMarkPreAsHistory w.sv.conf am
    match rewriteAppendOnlyFile env (.aof name) (w.set fun sv => { sv with aofManifest := am }) with
    | (.err, w) => w.exit
    | (.ok, w) => w
  else w

/-- `aofOpenIfNeededOnServerStart` from `getLastIncrAofName` on. -/
def openLastIncr (env : BootEnv) (w : World D A δ) : World D A δ :=
  let (name, am) := getLastIncrAofName w.sv.conf w.sv.aofManifest
  if !env.openIncr then w.exit
  else
    let fd := (w.disk.fs.openFile (.aof name) false true).1
    let w := w.onFs fun fs => (fs.openFile (.aof name) false true).2
    match persistAofManifest env.persist am w with
    | (.err, _, w) => w.exit
    | (.ok, am, w) =>
      w.set fun sv => { sv with
        aofFd := some fd
        aofManifest := am
        aofLastIncrSize := w.fileSize name
        aofLastIncrFsyncOffset := w.fileSize name }

/-- `aofOpenIfNeededOnServerStart`. -/
def aofOpenIfNeededOnServerStart (env : BootEnv) (w : World D A δ) : World D A δ :=
  if w.sv.aofState ≠ .on then w
  else if !env.dirCreate then w.exit
  else (createBaseIfNeeded env.base w.dirCreate).andThen (openLastIncr env)

/-- A server process from its start to its event loop, on the disk it finds. -/
def serverStart (c : StartConf δ) (env : BootEnv) (dk : Disk D) : World D A δ :=
  let w : World D A δ :=
    { sv := initServer c
      disk := { dk with fs := dk.fs.closeAll }
      exited := false
      trace := []
      feeds := []
      ackTicks := none }
  (((aofLoadManifestFromDisk w).andThen (loadDataFromDisk c env)).andThen
    (aofOpenIfNeededOnServerStart env)).andThen (aofDelHistoryFiles env.persistHistory)

end Start

/-! ## The state after a start -/

omit [Commands A δ]

/-- A server as it starts: no child, no transaction, no rewrite and no command yet. -/
structure Fresh (w : World D A δ) : Prop where
  childType : w.sv.childType = none
  inExec : w.sv.inExec = false
  aofState : w.sv.aofState ≠ .waitRewrite
  scheduled : w.sv.aofRewriteScheduled = false
  failures : w.sv.statAofrwConsecutiveFailures = 0
  alsoPropagate : w.sv.alsoPropagate = []
  ackTicks : w.ackTicks = none
  feeds : w.feeds = []

variable {w w' : World D A δ}

theorem Fresh.of_control (h : Fresh w) (hw : Control w w') : Fresh w' where
  childType := hw.childType.trans h.childType
  inExec := hw.inExec.trans h.inExec
  aofState := hw.aofState ▸ h.aofState
  scheduled := hw.scheduled.trans h.scheduled
  failures := hw.failures.trans h.failures
  alsoPropagate := hw.alsoPropagate.trans h.alsoPropagate
  ackTicks := hw.ackTicks.trans h.ackTicks
  feeds := hw.feeds.trans h.feeds

theorem aofLoadManifestFromDisk_control (w : World D A δ) :
    Control w (aofLoadManifestFromDisk w) := by
  unfold aofLoadManifestFromDisk
  split
  · exact Control.refl w
  · split
    · exact Control.refl w
    · split
      · exact (exit_frame w).toControl
      · repeat' constructor

theorem aofUpgradePrepare_control (env : BootEnv) (w : World D A δ) :
    Control w (aofUpgradePrepare env w) := by
  unfold aofUpgradePrepare
  dsimp only
  split
  · exact (exit_frame w).toControl
  · split
    · exact (exit_frame w).toControl
    · generalize { w.dirCreate.sv.aofManifest with
        baseAofInfo := some ⟨w.dirCreate.sv.conf.aofFilename, 1, .base⟩
        currBaseFileSeq := 1
        dirty := true } = am
      have hdir : Control w w.dirCreate := by
        repeat' constructor
      have hpersist := hdir.trans (persistAofManifest_control env.upgradePersist am _)
      split
      · next h =>
          rw [h] at hpersist
          exact hpersist.trans (exit_frame _).toControl
      · next w' h =>
          rw [h] at hpersist
          split
          · exact hpersist.trans (exit_frame w').toControl
          · refine hpersist.trans ?_
            repeat' constructor

theorem upgradeIfNeeded_control (env : BootEnv) (w : World D A δ) :
    Control w (upgradeIfNeeded env w) := by
  unfold upgradeIfNeeded
  split
  · exact aofUpgradePrepare_control env w
  · exact Control.refl w

section

variable [AofFormat D A δ]

theorem createBaseIfNeeded_control (env : BaseEnv) (w : World D A δ) :
    Control w (createBaseIfNeeded env w) := by
  unfold createBaseIfNeeded
  dsimp only
  split
  · generalize hv : (w.set fun sv => { sv with
      aofManifest := (getNewBaseFileNameAndMarkPreAsHistory w.sv.conf w.sv.aofManifest).2 }) = v
    have hwv : Control w v := by
      subst hv
      repeat' constructor
    have hbase := hwv.trans (rewriteAppendOnlyFile_frame env
      (.aof (getNewBaseFileNameAndMarkPreAsHistory w.sv.conf w.sv.aofManifest).1) v).toControl
    split
    · next h =>
        rw [h] at hbase
        exact hbase.trans (exit_frame _).toControl
    · next h =>
        rw [h] at hbase
        exact hbase
  · exact Control.refl w

omit [AofFormat D A δ] in
theorem openLastIncr_control (env : BootEnv) (w : World D A δ) :
    Control w (openLastIncr env w) := by
  unfold openLastIncr
  dsimp only
  split
  · exact (exit_frame w).toControl
  · have hopen := (onFs_frame w fun fs =>
      (fs.openFile (.aof (getLastIncrAofName w.sv.conf w.sv.aofManifest).1) false true).2).toControl
    have hpersist := hopen.trans (persistAofManifest_control env.persist
      (getLastIncrAofName w.sv.conf w.sv.aofManifest).2 _)
    split
    · next h =>
        rw [h] at hpersist
        exact hpersist.trans (exit_frame _).toControl
    · next h =>
        rw [h] at hpersist
        refine hpersist.trans ?_
        repeat' constructor

theorem aofOpenIfNeededOnServerStart_control (env : BootEnv) (w : World D A δ) :
    Control w (aofOpenIfNeededOnServerStart env w) := by
  unfold aofOpenIfNeededOnServerStart
  split
  · exact Control.refl w
  · split
    · exact (exit_frame w).toControl
    · have hdir : Control w w.dirCreate := by
        repeat' constructor
      exact (hdir.trans (createBaseIfNeeded_control env.base _)).andThen (openLastIncr_control env _)

variable [Commands A δ]

theorem loadAof_fresh (c : StartConf δ) (h : Fresh w) : Fresh (loadAof c w) := by
  unfold loadAof
  dsimp only
  split
  · exact h.of_control (exit_frame w).toControl
  · exact ⟨h.childType, h.inExec, h.aofState, h.scheduled, h.failures, h.alsoPropagate,
      h.ackTicks, h.feeds⟩

theorem loadDataFromDisk_fresh (c : StartConf δ) (env : BootEnv) (h : Fresh w) :
    Fresh (loadDataFromDisk c env w) := by
  unfold loadDataFromDisk
  split
  · exact andThen_inv (h.of_control (upgradeIfNeeded_control env w)) (loadAof_fresh c)
  · exact ⟨h.childType, h.inExec, h.aofState, h.scheduled, h.failures, h.alsoPropagate,
      h.ackTicks, h.feeds⟩

theorem serverStart_fresh (c : StartConf δ) (env : BootEnv) (dk : Disk D) :
    Fresh (serverStart c env dk : World D A δ) := by
  unfold serverStart
  dsimp only
  generalize hw : (World.mk (initServer c) { dk with fs := dk.fs.closeAll } false [] [] none :
    World D A δ) = w
  have hinit : Fresh w := by
    subst hw
    refine ⟨rfl, rfl, ?_, rfl, rfl, rfl, rfl, rfl⟩
    show (if c.aofEnabled then AofState.on else .off) ≠ .waitRewrite
    split <;> nofun
  have hmanifest := hinit.of_control (aofLoadManifestFromDisk_control w)
  have hload := andThen_inv hmanifest (loadDataFromDisk_fresh c env)
  have hopen := andThen_inv hload fun h =>
    h.of_control (aofOpenIfNeededOnServerStart_control env _)
  exact andThen_inv hopen fun h => h.of_control (aofDelHistoryFiles_control env.persistHistory _)

end

/-! ## A small server

The dataset records the commands executed, with their databases. -/

abbrev Journal : Type := List (Nat × Nat)

instance : Commands Nat Journal where
  empty := []
  apply db argv d := d ++ [(db, argv)]

/-- The default configuration. -/
def defaultStart (aofEnabled : Bool) : StartConf Journal where
  conf := ⟨"appendonly.aof", "appendonlydir", true, false⟩
  pid := 1
  aofEnabled := aofEnabled
  aofLoadTruncated := true
  aofFsync := .everysec
  aofNoFsyncOnRewrite := false
  aofRewritePerc := 100
  aofRewriteMinSize := 64 * 1024 * 1024
  aofTimestampEnabled := false
  feedsReplicas := false
  mstime := 0
  replOffset := 0
  rdb := []

/-- A disk without files. -/
def Disk.blank : Disk (Option (Rec Nat Journal)) := ⟨.empty, false, none⟩

/-- The first start of a server. -/
def firstStart (aofEnabled : Bool) : World (Option (Rec Nat Journal)) Nat Journal :=
  serverStart (defaultStart aofEnabled) .success .blank

end WasiPorts.Redis.Aof
