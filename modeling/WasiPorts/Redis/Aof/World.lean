import WasiPorts.Lib.Posix
import WasiPorts.Redis.Aof.Manifest

/-!
# The server and its disk

The state on which the AOF code of `aof.c`, `server.c` and `bio.c` works: the `server` fields it
reads and writes, and the file system. Every function of the code is a function on `World`; what
the operating system decides is an argument.

A file is a list of units `D`. How commands are laid out in units is the parameter `AofFormat`:
nothing here depends on the RESP and RDB formats beyond its laws, which the bytes that the server
prints and the loader reads obey (`TextFormat`). What commands do to a dataset is the parameter
`Commands`.
-/

namespace WasiPorts.Redis.Aof

open WasiPorts.Posix

/-! ## The contents of AOF files -/

/-- One piece of an AOF file. The database a command was executed on and its replication offset
are not stored in the file; they are carried along to state what the file should do. -/
inductive Rec (A δ : Type) where
  /-- A `#TS:` line. -/
  | timestamp
  | select (db : Nat)
  | command (argv : A) (db off : Nat)
  | multi
  | exec
  /-- What `rewriteAppendOnlyFile` writes for the dataset `d`, which contains every command up to
  the offset `upto`. -/
  | base (d : δ) (upto : Nat)
  deriving DecidableEq, Repr

/-- Where reading a file stops. -/
inductive Tail where
  | eof
  /-- In the middle of a `#TS:` line. -/
  | torn
  /-- In the middle of a command. -/
  | short
  | bad
  deriving DecidableEq, Repr

/-- The meaning of commands: what `argv` does to a dataset when executed on a database. -/
class Commands (A δ : Type) where
  empty : δ
  apply : Nat → A → δ → δ

/-- The file format. `parse` gives the records of a file, each with the offset at which it
ends. -/
class AofFormat (D : Type) (A δ : outParam Type) extends Inhabited D where
  enc : Rec A δ → List D
  parse : List D → List (Rec A δ × Nat) × Tail
  enc_ne_nil : ∀ r, enc r ≠ []
  parse_nil : parse [] = ([], .eof)
  parse_base : ∀ d u, parse (enc (.base d u)) = ([(.base d u, (enc (.base d u)).length)], .eof)
  /-- A complete file can be continued. -/
  parse_append : ∀ xs r, (parse xs).2 = .eof → (∀ d u, r ≠ .base d u) →
    parse (xs ++ enc r) = ((parse xs).1 ++ [(r, xs.length + (enc r).length)], .eof)
  /-- A file cut after a record is complete. -/
  parse_take : ∀ xs pre r e suf, (parse xs).1 = pre ++ (r, e) :: suf →
    parse (xs.take e) = (pre ++ [(r, e)], .eof)

/-! ### A format with one unit for each record

The unit `none` is a part of a record. -/

def parseUnits {A δ : Type} : List (Option (Rec A δ)) → Nat → List (Rec A δ × Nat) × Tail
  | [], _ => ([], .eof)
  | none :: _, _ => ([], .short)
  | some r :: xs, n => ((r, n + 1) :: (parseUnits xs (n + 1)).1, (parseUnits xs (n + 1)).2)

theorem parseUnits_append {A δ : Type} (r : Rec A δ) (xs : List (Option (Rec A δ))) (n : Nat)
    (h : (parseUnits xs n).2 = .eof) :
    parseUnits (xs ++ [some r]) n = ((parseUnits xs n).1 ++ [(r, n + xs.length + 1)], .eof) := by
  induction xs generalizing n with
  | nil => rfl
  | cons x xs ih =>
      cases x with
      | none => exact absurd h (by simp [parseUnits])
      | some x =>
          have hlen : n + 1 + xs.length + 1 = n + (xs.length + 1) + 1 := by omega
          simp [parseUnits, ih (n + 1) h, hlen]

theorem parseUnits_take {A δ : Type} (xs : List (Option (Rec A δ))) (n : Nat)
    (pre suf : List (Rec A δ × Nat)) (r : Rec A δ) (e : Nat)
    (h : (parseUnits xs n).1 = pre ++ (r, e) :: suf) :
    n < e ∧ parseUnits (xs.take (e - n)) n = (pre ++ [(r, e)], .eof) := by
  induction xs generalizing n pre with
  | nil => simp [parseUnits] at h
  | cons x xs ih =>
      cases x with
      | none => simp [parseUnits] at h
      | some x =>
          cases pre with
          | nil =>
              obtain ⟨⟨rfl, rfl⟩, -⟩ : (x = r ∧ n + 1 = e) ∧ _ := by
                simpa [parseUnits] using h
              simp [parseUnits]
          | cons p pre =>
              obtain ⟨rfl, htail⟩ : (x, n + 1) = p ∧ _ := by simpa [parseUnits] using h
              obtain ⟨hlt, heq⟩ := ih (n + 1) pre htail
              have hsucc : e - n = e - (n + 1) + 1 := by omega
              refine ⟨by omega, ?_⟩
              simp [hsucc, parseUnits, heq]

instance {A δ : Type} : AofFormat (Option (Rec A δ)) A δ where
  enc r := [some r]
  parse xs := parseUnits xs 0
  enc_ne_nil := by simp
  parse_nil := rfl
  parse_base _ _ := rfl
  parse_append := by
    intro xs r h _
    rw [parseUnits_append r xs 0 h]
    simp
  parse_take := by
    intro xs pre r e suf h
    exact (parseUnits_take xs 0 pre suf r e h).2

/-! ## State -/

/-- File names: in the working directory and in `server.aof_dirname`. -/
inductive Path where
  | cwd (name : String)
  | aof (name : String)
  deriving DecidableEq, Repr

/-- What survives the process. The manifest file is kept apart, as its lines. -/
structure Disk (D : Type) where
  fs : Fs Path D
  /-- The AOF directory exists. -/
  aofDir : Bool
  manifest : Option (List (AofInfo String))

inductive AofState where
  | off | on | waitRewrite
  deriving DecidableEq, Repr

inductive AofFsync where
  | no | everysec | always
  deriving DecidableEq, Repr

inductive ChildType where
  | rdb | aof | ldb | module
  deriving DecidableEq, Repr

/-- A command waiting in `server.also_propagate`. In the replication stream it takes
`replLen + 1` bytes. -/
structure RedisOp (A : Type) where
  db : Nat
  argv : A
  replLen : Nat
  deriving DecidableEq, Repr

/-- `struct redisServer`, as far as the AOF is concerned. Where C has -1, here is `none`. -/
structure Server (D A δ : Type) where
  conf : Conf
  pid : Nat
  aofEnabled : Bool
  aofState : AofState
  aofFsync : AofFsync
  aofNoFsyncOnRewrite : Bool
  aofFd : Option Nat
  aofBuf : List D
  aofSelectedDb : Option Nat
  aofManifest : AofManifest String
  aofRewriteScheduled : Bool
  aofRewritePerc : Nat
  aofRewriteMinSize : Nat
  aofRewriteBaseSize : Nat
  aofCurrentSize : Nat
  aofLastIncrSize : Nat
  aofLastIncrFsyncOffset : Nat
  aofLastFsync : Int
  aofFlushPostponedStart : Int
  aofLastWriteStatus : Status
  aofBioFsyncStatus : Status
  aofLastbgrewriteStatus : Status
  aofTimestampEnabled : Bool
  aofCurTimestamp : Int
  statAofrwConsecutiveFailures : Nat
  /-- The static variables of `aofRewriteLimited`. -/
  nextDelayMinutes : Nat
  nextRewriteTime : Int
  fsyncedReploff : Option Nat
  fsyncedReploffPending : Nat
  masterReplOffset : Nat
  /-- There is a replication backlog or a replica; the server is no replica itself. -/
  feedsReplicas : Bool
  mstime : Int
  unixtime : Int
  inExec : Bool
  childType : Option ChildType
  alsoPropagate : List (RedisOp A)
  dataset : δ

/-- A call of `feedAppendOnlyFile`: the command, `aof_buf` before and after the call, and
`World.ackTicks` at that time. -/
structure FeedEvent (D A δ : Type) where
  cmd : Rec A δ
  before : List D
  after : List D
  ackTicks : Option Nat
  deriving DecidableEq, Repr

structure World (D A δ : Type) where
  sv : Server D A δ
  disk : Disk D
  /-- The process has called `exit`. -/
  exited : Bool
  /-- The disk after each completed system call that changed it: what a crash leaves. -/
  trace : List (Disk D)
  /-- History, read by no function of the server. -/
  feeds : List (FeedEvent D A δ)
  /-- History: the complete `serverCron` ticks since the last acknowledged enable of the AOF,
  `none` if there was none or the AOF has been disabled since. -/
  ackTicks : Option Nat

/-! ## System calls -/

section

variable {D A δ : Type}

namespace World

/-- The disk after a system call. -/
def sys (w : World D A δ) (d : Disk D) : World D A δ :=
  { w with disk := d, trace := w.trace ++ [d] }

def onFs (w : World D A δ) (f : Fs Path D → Fs Path D) : World D A δ :=
  w.sys { w.disk with fs := f w.disk.fs }

/-- Changes to `server`. -/
def set (w : World D A δ) (f : Server D A δ → Server D A δ) : World D A δ :=
  { w with sv := f w.sv }

/-- `exit(1)`. -/
def exit (w : World D A δ) : World D A δ := { w with exited := true }

/-- Sequencing: nothing runs after `exit`. -/
def andThen (w : World D A δ) (f : World D A δ → World D A δ) : World D A δ :=
  if w.exited then w else f w

/-- `dirCreateIfMissing(server.aof_dirname)`, when it succeeds. -/
def dirCreate (w : World D A δ) : World D A δ := w.sys { w.disk with aofDir := true }

/-- `bg_unlink`. -/
def bgUnlink (w : World D A δ) (p : Path) : World D A δ := w.onFs (·.unlink p)

/-- `getAppendOnlyFileSize`. -/
def fileSize (w : World D A δ) (name : String) : Nat :=
  ((w.disk.fs.data (.aof name)).getD []).length

end World

/-- The rename of the temporary manifest, whose text is `lines`, to the manifest file. -/
def World.renameManifest (w : World D A δ) (temp : Path) (lines : List (AofInfo String)) :
    World D A δ :=
  w.sys { w.disk with fs := w.disk.fs.unlink temp, manifest := some lines }

/-- `writeAofManifestFile`. The text of the temporary file is left out, it is empty here: the server
reads none of it before the rename. -/
def writeAofManifestFile (env : ManifestWrite) (lines : List (AofInfo String))
    (w : World D A δ) : World D A δ :=
  let temp := Path.aof w.sv.conf.tempManifestName
  if !env.openTemp then w
  else
    let fd := (w.disk.fs.openFile temp true false).1
    let w := w.onFs fun fs => (fs.openFile temp true false).2
    let w := if env.replaced then w.renameManifest temp lines else w
    w.onFs (·.close fd)

/-- `persistAofManifest`: the result, and the manifest with its dirty flag. -/
def persistAofManifest (env : ManifestWrite) (am : AofManifest String) (w : World D A δ) :
    Status × AofManifest String × World D A δ :=
  if am.dirty then
    (env.status, { am with dirty := env.status = .err }, writeAofManifestFile env am.lines w)
  else (.ok, am, w)

/-- `hasActiveChildProcess`. -/
def hasActiveChildProcess (sv : Server D A δ) : Bool := sv.childType.isSome

/-- `redisFork`, which the WASI build replaces by a function that fails. -/
def redisFork : Option Nat := none

/-- `aofFsyncInProgress`: jobs run inside `bioSubmitJob`, so none is ever pending. -/
def aofFsyncInProgress : Bool := false

/-- The path of a name in the AOF directory is not one in the working directory. -/
@[simp] theorem Path.aof_ne_cwd (n m : String) : Path.aof n ≠ Path.cwd m := nofun

/-- `aofDelTempIncrAofFile`. -/
def aofDelTempIncrAofFile (w : World D A δ) : World D A δ :=
  w.bgUnlink (.aof w.sv.conf.tempIncrAofName)

/-- Unlinks the files of the entries `ais`. -/
def World.unlinkAll (w : World D A δ) (ais : List (AofInfo String)) : World D A δ :=
  ais.foldl (fun w ai => w.bgUnlink (.aof ai.fileName)) w

/-- `aofDelHistoryFiles`. -/
def aofDelHistoryFiles (env : ManifestWrite) (w : World D A δ) : World D A δ :=
  if w.sv.conf.aofDisableAutoGc ∨ w.sv.aofManifest.historyAofList = [] then w
  else
    let w := w.unlinkAll w.sv.aofManifest.historyAofList
    let am := { w.sv.aofManifest with historyAofList := [], dirty := true }
    let res := persistAofManifest env am w
    res.2.2.set fun sv => { sv with aofManifest := res.2.1 }

end

end WasiPorts.Redis.Aof
