import WasiPorts.Redis.Aof.Reachable

/-!
# The enable of the native build

Without `__wasi__`, `startAppendOnly` forks a child that saves the dataset, and
`backgroundRewriteDoneHandler` takes over its file when the child has ended. The comment in
`startAppendOnly` says that the synchronous branch of the WASI build has the same effect.

* `Enabled w w'` — what an enable is for: `w'` is `w` with a new BASE and a new INCR file.
* `startAppendOnly_enabled`, `nativeEnable_enabled` — both builds do that.
* `enable_same_as_native` — so they agree.
-/

namespace WasiPorts.Redis.Aof

open WasiPorts.Posix WasiPorts.Posix.Fs WasiPorts.Run

variable {D A δ : Type} [AofFormat D A δ]

/-! ## The child -/

/-- `temp-rewriteaof-bg-%d.aof`. -/
def bgTempName (childpid : Nat) : String := "temp-rewriteaof-bg-" ++ toString childpid ++ ".aof"

/-- What the child does: it has a pid and a `server` of its own, so only its files remain. It
closes every descriptor it opens; their numbers are not used again. -/
def rewriteChild (env : BaseEnv) (childpid : Nat) (w : World D A δ) : Status × World D A δ :=
  let r := rewriteAppendOnlyFile env (.cwd (bgTempName childpid))
    (w.set fun sv => { sv with pid := childpid })
  (r.1, { w with disk := r.2.disk, trace := r.2.trace })

/-! ## `backgroundRewriteDoneHandler` -/

/-- What the system calls of one `backgroundRewriteDoneHandler` return. -/
structure DoneEnv where
  renameBase : Bool
  renameIncr : Bool
  persist : ManifestWrite
  /-- In `aofDelHistoryFiles`. -/
  persistHistory : ManifestWrite
  deriving DecidableEq, Repr

def DoneEnv.success : DoneEnv := ⟨true, true, .success, .success⟩

/-- `SIGUSR1`. -/
def sigusr1 : Nat := 10

/-- A failed rewrite is counted. -/
def rewriteFailed (w : World D A δ) : World D A δ :=
  w.set fun sv => { sv with
    aofLastbgrewriteStatus := .err
    statAofrwConsecutiveFailures := sv.statAofrwConsecutiveFailures + 1 }

/-- A complete rewrite. -/
def rewriteSucceeded (w : World D A δ) : World D A δ :=
  w.set fun sv => { sv with
    aofLastbgrewriteStatus := .ok
    statAofrwConsecutiveFailures := 0 }

/-- The AOF is on from now on. -/
def switchOn (w : World D A δ) : World D A δ :=
  w.set fun sv => { sv with
    aofState := .on
    fsyncedReploff := some sv.fsyncedReploffPending }

/-- `aofRemoveTempFile`. -/
def aofRemoveTempFile (childpid : Nat) (w : World D A δ) : World D A δ :=
  (w.bgUnlink (.cwd (bgTempName childpid))).bgUnlink
    (.cwd ("temp-rewriteaof-" ++ toString childpid ++ ".aof"))

/-- The handler after the manifest `am` has been persisted. -/
def installBackground (env : ManifestWrite) (base : String) (am : AofManifest String)
    (w : World D A δ) : World D A δ :=
  let w :=
    if w.sv.aofState ≠ .off then installManifest base am w
    else w.set fun sv => { sv with aofManifest := am }
  let w := rewriteSucceeded (aofDelHistoryFiles env w)
  if w.sv.aofState = .waitRewrite then switchOn w else w

/-- The handler after the renames; `incr` is the new INCR file, if there is one. -/
def persistBackground (env : DoneEnv) (base : String) (incr : Option String)
    (am : AofManifest String) (w : World D A δ) : World D A δ :=
  let am := markRewrittenIncrAofAsHistory w.sv.aofFd.isSome am
  match persistAofManifest env.persist am w with
  | (.err, _, w) =>
    let w := w.bgUnlink (.aof base)
    match incr with
    | none => rewriteFailed w
    | some incr => rewriteFailed (w.bgUnlink (.aof incr))
  | (.ok, am, w) => installBackground env.persistHistory base am w

/-- The handler for a child that succeeded. -/
def adoptBackground (env : DoneEnv) (childpid : Nat) (w : World D A δ) : World D A δ :=
  let (base, am) := getNewBaseFileNameAndMarkPreAsHistory w.sv.conf w.sv.aofManifest
  if !env.renameBase then rewriteFailed w
  else
    let w := w.onFs (·.rename (.cwd (bgTempName childpid)) (.aof base))
    if w.sv.aofState = .waitRewrite then
      let (incr, am) := getNewIncrAofName w.sv.conf am
      if !env.renameIncr then rewriteFailed (w.bgUnlink (.aof base))
      else
        persistBackground env base (some incr) am
          (w.onFs (·.rename (.aof w.sv.conf.tempIncrAofName) (.aof incr)))
    else persistBackground env base none am w

/-- The label `cleanup` of the handler. -/
def rewriteCleanup (childpid : Nat) (w : World D A δ) : World D A δ :=
  let w := aofRemoveTempFile childpid w
  if w.sv.aofState = .waitRewrite then
    (aofDelTempIncrAofFile (w.set fun sv => { sv with aofBuf := [] })).set fun sv => { sv with
      aofRewriteScheduled := true }
  else w

/-- `backgroundRewriteDoneHandler`. -/
def backgroundRewriteDoneHandler (env : DoneEnv) (childpid exitcode bysignal : Nat)
    (w : World D A δ) : World D A δ :=
  rewriteCleanup childpid <|
    if bysignal = 0 ∧ exitcode = 0 then adoptBackground env childpid w
    else if bysignal = 0 then rewriteFailed w
    else if bysignal ≠ sigusr1 then rewriteFailed w
    else w

/-! ## The whole enable -/

/-- What the system calls of a native enable return. -/
structure NativeEnv where
  rewrite : RewriteEnv
  child : BaseEnv
  done : DoneEnv
  deriving DecidableEq, Repr

def NativeEnv.success : NativeEnv := ⟨.success, .success, .success⟩

/-- `killAppendOnlyChild` of the native build. -/
def killAppendOnlyChild (childpid : Nat) (w : World D A δ) : World D A δ :=
  if w.sv.childType ≠ some .aof then w
  else (aofRemoveTempFile childpid w).set fun sv => { sv with childType := none }

/-- `startAppendOnly` of the native build. `oldpid` is the child there is, `childpid` the one that
`fork` creates. -/
def startAppendOnlyNative (env : RewriteEnv) (oldpid childpid : Nat) (w : World D A δ) :
    Status × World D A δ :=
  let w := w.set fun sv => { sv with aofState := .waitRewrite }
  if (hasActiveChildProcess w.sv && decide (w.sv.childType ≠ some .aof)) || w.sv.inExec then
    (.ok, startDone (w.set fun sv => { sv with aofRewriteScheduled := true }))
  else
    match rewriteBackground (some childpid) env (killAppendOnlyChild oldpid w) with
    | (.err, w) => (.err, w.set fun sv => { sv with aofState := .off })
    | (.ok, w) => (.ok, startDone w)

/-- `checkChildrenDone` when the child has ended with the given result. -/
def checkChildrenDone (env : DoneEnv) (childpid exitcode bysignal : Nat) (w : World D A δ) :
    World D A δ :=
  (backgroundRewriteDoneHandler env childpid exitcode bysignal w).set fun sv => { sv with
    childType := none }

/-- `startAppendOnly`, the child, and the handler, with nothing in between. -/
def nativeEnable (env : NativeEnv) (oldpid childpid : Nat) (w : World D A δ) :
    Status × World D A δ :=
  match startAppendOnlyNative env.rewrite oldpid childpid w with
  | (.err, w) => (.err, w)
  | (.ok, w) =>
    let (st, w) := rewriteChild env.child childpid w
    (.ok, checkChildrenDone env.done childpid (if st = .ok then 0 else 1) 0 w)

/-! ## What an enable is for -/

section Spec

variable (w : World D A δ)

/-- The HISTORY files of the rewrite are deleted. -/
def deletesHistory : Prop :=
  ¬ (w.sv.conf.aofDisableAutoGc = true ∨ (rewrittenManifest w.sv).historyAofList = [])

instance : Decidable (deletesHistory w) := inferInstanceAs (Decidable (¬ _))

/-- The manifest after an enable. -/
def enabledManifest : AofManifest String :=
  if deletesHistory w then (rewrittenManifest w.sv).noHistory false
  else { rewrittenManifest w.sv with dirty := false }

/-- The file called `n` is one of the HISTORY files that an enable deletes. -/
def deletedHistory (n : String) : Prop :=
  deletesHistory w ∧ n ∈ (rewrittenManifest w.sv).historyAofList.map (·.fileName)

instance (n : String) : Decidable (deletedHistory w n) := inferInstanceAs (Decidable (_ ∧ _))

/-- The AOF files once both new ones and the new manifest have their final names. -/
def renamedData (n : String) : Option (List D) :=
  if n = newIncrName w.sv then some []
  else if n = newBaseName w.sv then some (baseContents w)
  else if n = w.sv.conf.tempIncrAofName ∨ n = w.sv.conf.tempManifestName then none
  else w.disk.fs.data (.aof n)

/-- The files of an enable are in place: a new BASE file with the dataset, a new empty INCR file
that is open, and everything else history. -/
structure Installed (w' : World D A δ) : Prop where
  aofManifest : w'.sv.aofManifest = enabledManifest w
  manifest : w'.disk.manifest = some (enabledManifest w).lines
  files : ∀ n, w'.disk.fs.data (.aof n) = if deletedHistory w n then none else renamedData w n
  aofSelectedDb : w'.sv.aofSelectedDb = none
  aofLastIncrSize : w'.sv.aofLastIncrSize = 0
  aofLastIncrFsyncOffset : w'.sv.aofLastIncrFsyncOffset = 0
  aofCurrentSize : w'.sv.aofCurrentSize = (baseContents w).length
  aofRewriteBaseSize : w'.sv.aofRewriteBaseSize = (baseContents w).length
  aofFd : ∃ fd, w'.sv.aofFd = some fd ∧
    ∀ n, w'.disk.fs.OpenAt fd (.aof n) ↔ ¬ deletedHistory w n ∧ n = newIncrName w.sv

/-- `w'` is `w` after an enable. -/
structure Enabled (w' : World D A δ) : Prop extends Installed w w' where
  aofState : w'.sv.aofState = .on
  aofBuf : w'.sv.aofBuf = []

end Spec

/-! ## Up to the renames -/

variable {w v v' : World D A δ} {fd : Nat} {name : String}

/-- Both new files are complete: the dataset in the working directory as `name`, and the temporary
INCR file. -/
structure Ready (w : World D A δ) (fd : Nat) (name : String) (v : World D A δ) : Prop where
  conf : v.sv.conf = w.sv.conf
  aofManifest : v.sv.aofManifest = w.sv.aofManifest
  aofFd : v.sv.aofFd = some fd
  aofSelectedDb : v.sv.aofSelectedDb = none
  aofLastIncrSize : v.sv.aofLastIncrSize = 0
  aofLastIncrFsyncOffset : v.sv.aofLastIncrFsyncOffset = 0
  touches : Touches (newPaths w.sv) (aofFds w.sv) w v
  incr : v.disk.fs.OpenAt fd (.aof w.sv.conf.tempIncrAofName)
  empty : v.disk.fs.data (.aof w.sv.conf.tempIncrAofName) = some []
  base : v.disk.fs.data (.cwd name) = some (baseContents w)

/-- The renames of an enable that saved the dataset as `name`. -/
def adopted (sv : Server D A δ) (name : String) (v : World D A δ) : World D A δ :=
  (v.onFs (·.rename (.cwd name) (.aof (newBaseName sv)))).onFs
    (·.rename (.aof sv.conf.tempIncrAofName) (.aof (newIncrName sv)))

omit [AofFormat D A δ] in
theorem data_some_iff {fs : Fs Path D} {p : Path} {xs : List D} :
    fs.data p = some xs ↔ ∃ f, fs.file p = some f ∧ f.data = xs := by
  simp [Fs.data]

omit [AofFormat D A δ] in
theorem data_eq_of_file {fs fs' : Fs Path D} {p q : Path} (h : fs'.file q = fs.file p) :
    fs'.data q = fs.data p := by
  unfold Fs.data
  rw [h]

theorem renamedData_temp (w : World D A δ) : renamedData w w.sv.conf.tempManifestName = none := by
  have hown := w.sv.conf.tempManifest_mem_own
  have hit : w.sv.conf.tempManifestName ≠ newIncrName w.sv := (Conf.incrName_ne_own _ hown _).symm
  have hbt : w.sv.conf.tempManifestName ≠ newBaseName w.sv := (Conf.baseName_ne_own _ hown _).symm
  unfold renamedData
  rw [if_neg hit, if_neg hbt, if_pos (.inr rfl)]

theorem Ready.data (h : Ready w fd name v) (n : String) (htm : n ≠ w.sv.conf.tempManifestName) :
    (adopted w.sv name v).disk.fs.data (.aof n) = renamedData w n := by
  have hown := w.sv.conf.tempIncr_mem_own
  have hbt : newBaseName w.sv ≠ w.sv.conf.tempIncrAofName := Conf.baseName_ne_own _ hown _
  have hit : newIncrName w.sv ≠ w.sv.conf.tempIncrAofName := Conf.incrName_ne_own _ hown _
  obtain ⟨f, hf, hfdata⟩ := data_some_iff.mp h.empty
  obtain ⟨g, hg, hgdata⟩ := data_some_iff.mp h.base
  generalize hu : v.onFs (·.rename (.cwd name) (.aof (newBaseName w.sv))) = u
  have hother : ∀ m, m ≠ newBaseName w.sv → u.disk.fs.file (.aof m) = v.disk.fs.file (.aof m) := by
    intro m hm
    subst hu
    exact rename_file_ne nofun (by simpa using hm)
  have hadopted : (adopted w.sv name v).disk.fs =
      u.disk.fs.rename (.aof w.sv.conf.tempIncrAofName) (.aof (newIncrName w.sv)) := by
    subst hu
    rfl
  rw [hadopted]
  unfold renamedData
  split
  · next hn =>
      rw [hn]
      refine data_some_iff.mpr ⟨f, rename_file_to ?_, hfdata⟩
      rw [hother _ hbt.symm, hf]
  · next hni =>
      split
      · next hn =>
          rw [hn] at hni ⊢
          refine data_some_iff.mpr ⟨g, ?_, hgdata⟩
          rw [rename_file_ne (by simpa using hbt) (by simpa using hni)]
          subst hu
          exact rename_file_to hg
      · next hnb =>
          split
          · next hn =>
              rw [hn.resolve_right htm]
              unfold Fs.data
              rw [rename_file_from (by simpa using hit.symm)]
              rfl
          · next hnt =>
              obtain ⟨hnt, -⟩ := not_or.mp hnt
              rw [data_eq_of_file (rename_file_ne (by simpa using hnt) (by simpa using hni)),
                data_eq_of_file (hother n hnb)]
              apply h.touches.keeps.data
              simp [newPaths, Conf.tempNames, htm, hnt, hnb, hni]

theorem Ready.openAt (h : Ready w fd name v) (n : String) :
    (adopted w.sv name v).disk.fs.OpenAt fd (.aof n) ↔ n = newIncrName w.sv := by
  have hbt : newBaseName w.sv ≠ w.sv.conf.tempIncrAofName :=
    Conf.baseName_ne_own _ w.sv.conf.tempIncr_mem_own _
  have hkeeps : Keeps {.cwd name, .aof (newBaseName w.sv)} ∅ v.disk.fs
      (v.disk.fs.rename (.cwd name) (.aof (newBaseName w.sv))) :=
    .rename _ (Set.mem_insert _ _) (by simp)
  have htemp : (v.disk.fs.rename (.cwd name) (.aof (newBaseName w.sv))).OpenAt fd
      (.aof w.sv.conf.tempIncrAofName) :=
    hkeeps.openAt _ (by simpa using hbt.symm) fd (Set.notMem_empty fd) h.incr
  have hincr : (adopted w.sv name v).disk.fs.OpenAt fd (.aof (newIncrName w.sv)) := htemp.rename
  constructor
  · intro hn
    simpa using hn.unique hincr
  · rintro rfl
    exact hincr

/-! ## From the new manifest on -/

omit [AofFormat D A δ] in
theorem unlinkAll_fs (fd : Nat) (ais : List (AofInfo String)) (w : World D A δ) (n : String) :
    (w.unlinkAll ais).disk.manifest = w.disk.manifest ∧
      (w.unlinkAll ais).disk.fs.data (.aof n) =
        (if n ∈ ais.map (·.fileName) then none else w.disk.fs.data (.aof n)) ∧
      ((w.unlinkAll ais).disk.fs.OpenAt fd (.aof n) ↔
        n ∉ ais.map (·.fileName) ∧ w.disk.fs.OpenAt fd (.aof n)) := by
  induction ais generalizing w with
  | nil => simp [World.unlinkAll]
  | cons ai ais ih =>
      obtain ⟨hman, hdata, hopen⟩ := ih (w.bgUnlink (.aof ai.fileName))
      have hdata' : (w.bgUnlink (.aof ai.fileName)).disk.fs.data (.aof n) =
          if Path.aof n = .aof ai.fileName then none else w.disk.fs.data (.aof n) :=
        unlink_data _ _ _
      have hopen' : (w.bgUnlink (.aof ai.fileName)).disk.fs.OpenAt fd (.aof n) ↔
          Path.aof n ≠ .aof ai.fileName ∧ w.disk.fs.OpenAt fd (.aof n) :=
        unlink_openAt_iff
      refine ⟨hman, hdata.trans ?_, hopen.trans ?_⟩
      · rw [hdata']
        by_cases hn : n = ai.fileName <;> simp [hn]
      · rw [hopen']
        simp only [ne_eq, Path.aof.injEq, List.map_cons, List.mem_cons, not_or]
        tauto

omit [AofFormat D A δ] in
/-- A manifest written with all system calls succeeding; its temporary file is gone. -/
theorem writeAofManifestFile_fs (lines : List (AofInfo String)) (w : World D A δ) {fd : Nat}
    (hfd : fd < w.disk.fs.nextFd) (n : String) :
    (writeAofManifestFile .success lines w).disk.manifest = some lines ∧
      (writeAofManifestFile .success lines w).disk.fs.data (.aof n) =
        (if n = w.sv.conf.tempManifestName then none else w.disk.fs.data (.aof n)) ∧
      ((writeAofManifestFile .success lines w).disk.fs.OpenAt fd (.aof n) ↔
        n ≠ w.sv.conf.tempManifestName ∧ w.disk.fs.OpenAt fd (.aof n)) := by
  generalize htemp : Path.aof w.sv.conf.tempManifestName = temp
  have hiff : n = w.sv.conf.tempManifestName ↔ Path.aof n = temp := by
    rw [← htemp, Path.aof.injEq]
  have heq : (writeAofManifestFile .success lines w).disk.fs =
      ((w.disk.fs.openFile temp true false).2.unlink temp).close w.disk.fs.nextFd := by
    subst htemp
    rfl
  refine ⟨rfl, ?_, ?_⟩
  · rw [heq]
    refine (unlink_data _ _ _).trans ?_
    simp only [hiff]
    split
    · rfl
    · next hne => exact data_eq_of_file (openFile_file_ne true false hne)
  · rw [heq, close_openAt_iff (Nat.ne_of_lt hfd), unlink_openAt_iff, Ne, Ne, hiff]
    exact and_congr_right fun hne => openFile_openAt_iff hfd hne

/-- The new manifest is on disk and in `server`; the history is still there. -/
structure InPlace (w : World D A δ) (fd : Nat) (u : World D A δ) : Prop where
  conf : u.sv.conf = w.sv.conf
  aofManifest : u.sv.aofManifest = { rewrittenManifest w.sv with dirty := false }
  manifest : u.disk.manifest = some (rewrittenManifest w.sv).lines
  files : ∀ n, u.disk.fs.data (.aof n) = renamedData w n
  openAt : ∀ n, u.disk.fs.OpenAt fd (.aof n) ↔ n = newIncrName w.sv
  aofFd : u.sv.aofFd = some fd
  aofSelectedDb : u.sv.aofSelectedDb = none
  aofLastIncrSize : u.sv.aofLastIncrSize = 0
  aofLastIncrFsyncOffset : u.sv.aofLastIncrFsyncOffset = 0
  aofCurrentSize : u.sv.aofCurrentSize = (baseContents w).length
  aofRewriteBaseSize : u.sv.aofRewriteBaseSize = (baseContents w).length

theorem Ready.inPlace (h : Ready w fd name v) :
    InPlace w fd (installManifest (newBaseName w.sv)
      { rewrittenManifest w.sv with dirty := false }
      (writeAofManifestFile .success (rewrittenManifest w.sv).lines (adopted w.sv name v))) := by
  have hown := w.sv.conf.tempManifest_mem_own
  have hne : newBaseName w.sv ≠ newIncrName w.sv := Conf.baseName_ne_incrName _ _ _
  have hconf : (adopted w.sv name v).sv.conf = w.sv.conf := h.conf
  have hfd : fd < (adopted w.sv name v).disk.fs.nextFd := by
    obtain ⟨hd, hopen, -⟩ := (h.openAt _).mpr rfl
    exact handle_lt _ fd hd hopen
  have hfs := writeAofManifestFile_fs (rewrittenManifest w.sv).lines (adopted w.sv name v) hfd
  rw [hconf] at hfs
  generalize hu : writeAofManifestFile .success (rewrittenManifest w.sv).lines
    (adopted w.sv name v) = u at hfs
  have hsv : u.sv = v.sv := by
    rw [← hu, writeAofManifestFile_sv]
    rfl
  have hfiles : ∀ n, u.disk.fs.data (.aof n) = renamedData w n := by
    intro n
    rw [(hfs n).2.1]
    split
    · next htemp => rw [htemp, renamedData_temp]
    · next htemp => exact h.data n htemp
  have hopen : ∀ n, u.disk.fs.OpenAt fd (.aof n) ↔ n = newIncrName w.sv := by
    intro n
    rw [(hfs n).2.2, h.openAt]
    refine and_iff_right_of_imp ?_
    rintro rfl
    exact Conf.incrName_ne_own _ hown _
  have hsize : u.fileSize (newBaseName w.sv) + u.sv.aofLastIncrSize = (baseContents w).length := by
    rw [hsv, h.aofLastIncrSize, World.fileSize, hfiles, renamedData, if_neg hne, if_pos rfl]
    rfl
  refine ⟨?_, rfl, (hfs "").1, hfiles, hopen, ?_, ?_, ?_, ?_, hsize, hsize⟩
  · exact (congrArg (·.conf) hsv).trans h.conf
  · exact (congrArg (·.aofFd) hsv).trans h.aofFd
  · exact (congrArg (·.aofSelectedDb) hsv).trans h.aofSelectedDb
  · exact (congrArg (·.aofLastIncrSize) hsv).trans h.aofLastIncrSize
  · exact (congrArg (·.aofLastIncrFsyncOffset) hsv).trans h.aofLastIncrFsyncOffset

theorem InPlace.installed (h : InPlace w fd v) : Installed w (aofDelHistoryFiles .success v) := by
  have hiff : DeletesHistory v ↔ deletesHistory w := by
    rw [DeletesHistory, h.conf, h.aofManifest]
    rfl
  obtain ⟨hnone, heq⟩ | ⟨hsome, heq⟩ := aofDelHistoryFiles_cases .success v
  -- nothing is deleted, and the manifest is not written again
  · have hdel : ¬ deletesHistory w := fun hn => hnone (hiff.mpr hn)
    have henabled : enabledManifest w = { rewrittenManifest w.sv with dirty := false } :=
      if_neg hdel
    have hdeleted : ∀ n, ¬ deletedHistory w n := fun n hn => hdel hn.1
    rw [heq]
    refine ⟨h.aofManifest.trans henabled.symm, ?_, ?_, h.aofSelectedDb, h.aofLastIncrSize,
      h.aofLastIncrFsyncOffset, h.aofCurrentSize, h.aofRewriteBaseSize, fd, h.aofFd, ?_⟩
    · rw [h.manifest, henabled]
      rfl
    · intro n
      rw [h.files, if_neg (hdeleted n)]
    · intro n
      rw [h.openAt, and_iff_right (hdeleted n)]
  · have hdel := hiff.mp hsome
    have henabled : enabledManifest w = (rewrittenManifest w.sv).noHistory false := if_pos hdel
    have hdeleted : ∀ n, deletedHistory w n ↔
        n ∈ (rewrittenManifest w.sv).historyAofList.map (·.fileName) := by
      intro n
      rw [deletedHistory, and_iff_right hdel]
    have hdel : aofDelHistoryFiles .success v =
        (writeAofManifestFile .success ((rewrittenManifest w.sv).noHistory true).lines
          (v.unlinkAll (rewrittenManifest w.sv).historyAofList)).set fun sv => { sv with
            aofManifest := (rewrittenManifest w.sv).noHistory false } := by
      rw [heq, h.aofManifest]
      rfl
    rw [hdel]
    -- the descriptor of the new INCR stays open while files are unlinked and the manifest is written
    have hfd : fd < (v.unlinkAll (rewrittenManifest w.sv).historyAofList).disk.fs.nextFd := by
      obtain ⟨hd, hopen, -⟩ := (h.openAt _).mpr rfl
      rw [unlinkAll_nextFd]
      exact handle_lt _ fd hd hopen
    have hfs := fun n => unlinkAll_fs fd (rewrittenManifest w.sv).historyAofList v n
    have hwrite := writeAofManifestFile_fs ((rewrittenManifest w.sv).noHistory true).lines _ hfd
    rw [unlinkAll_sv, h.conf] at hwrite
    have hsv := (writeAofManifestFile_sv .success ((rewrittenManifest w.sv).noHistory true).lines
      (v.unlinkAll (rewrittenManifest w.sv).historyAofList)).trans
        (unlinkAll_sv (rewrittenManifest w.sv).historyAofList v)
    generalize writeAofManifestFile .success ((rewrittenManifest w.sv).noHistory true).lines
      (v.unlinkAll (rewrittenManifest w.sv).historyAofList) = x at hsv hwrite ⊢
    refine ⟨henabled.symm, ?_, ?_, ?_, ?_, ?_, ?_, ?_, ⟨fd, ?_, ?_⟩⟩
    · rw [henabled]
      exact (hwrite "").1
    · intro n
      show x.disk.fs.data (.aof n) = _
      rw [(hwrite n).2.1, (hfs n).2.1, h.files]
      simp only [hdeleted]
      split
      · next htemp => rw [htemp, renamedData_temp, ite_self]
      · rfl
    · exact (congrArg (·.aofSelectedDb) hsv).trans h.aofSelectedDb
    · exact (congrArg (·.aofLastIncrSize) hsv).trans h.aofLastIncrSize
    · exact (congrArg (·.aofLastIncrFsyncOffset) hsv).trans h.aofLastIncrFsyncOffset
    · exact (congrArg (·.aofCurrentSize) hsv).trans h.aofCurrentSize
    · exact (congrArg (·.aofRewriteBaseSize) hsv).trans h.aofRewriteBaseSize
    · exact (congrArg (·.aofFd) hsv).trans h.aofFd
    · intro n
      show x.disk.fs.OpenAt fd (.aof n) ↔ _
      rw [(hwrite n).2.2, (hfs n).2.2, h.openAt, hdeleted]
      refine and_iff_right_of_imp ?_
      rintro ⟨-, rfl⟩
      exact Conf.incrName_ne_own _ w.sv.conf.tempManifest_mem_own _

/-! ## Both builds -/

theorem Rewritten.ready (h : Rewritten w fd v) (hfd : FdValid w) : Ready w fd syncTempName v := by
  obtain ⟨f, hf, hempty⟩ := h.incr.file
  obtain ⟨g, hg, hbase, -⟩ := h.base
  exact ⟨h.reopened.control.conf, h.reopened.aofManifest, h.reopened.aofFd,
    h.reopened.aofSelectedDb, h.reopened.aofLastIncrSize, h.reopened.aofLastIncrFsyncOffset,
    h.touches, h.incr.openAt hfd, data_some_iff.mpr ⟨f, hf, hempty⟩,
    data_some_iff.mpr ⟨g, hg, hbase⟩⟩

/-- The synchronous branch. -/
theorem startSync_enabled (hfd : FdValid w) (hwait : w.sv.aofState = .waitRewrite) :
    (startSync .success w).1 = .ok ∧ Enabled w (startSync .success w).2 := by
  obtain ⟨fd, v, heq, hv⟩ := startSync_rewritten .success hwait rfl
  have hinst := (hv.ready hfd).inPlace.installed
  rw [heq, hv.adopt_eq]
  refine ⟨rfl, ?_⟩
  show Enabled w (installRewrite .success _ _ _)
  exact ⟨⟨hinst.aofManifest, hinst.manifest, hinst.files, hinst.aofSelectedDb,
    hinst.aofLastIncrSize, hinst.aofLastIncrFsyncOffset, hinst.aofCurrentSize,
    hinst.aofRewriteBaseSize, hinst.aofFd⟩, rfl, rfl⟩

/-- The child has not saved the dataset yet. -/
structure Forked (w : World D A δ) (fd : Nat) (v : World D A δ) : Prop where
  conf : v.sv.conf = w.sv.conf
  aofManifest : v.sv.aofManifest = w.sv.aofManifest
  aofFd : v.sv.aofFd = some fd
  aofSelectedDb : v.sv.aofSelectedDb = none
  aofLastIncrSize : v.sv.aofLastIncrSize = 0
  aofLastIncrFsyncOffset : v.sv.aofLastIncrFsyncOffset = 0
  aofState : v.sv.aofState = .waitRewrite
  aofBuf : v.sv.aofBuf = []
  base : baseContents v = baseContents w
  touches : Touches {.aof w.sv.conf.tempIncrAofName} (aofFds w.sv) (prepareRewrite w) v
  incr : NewIncr w (.aof w.sv.conf.tempIncrAofName) fd v

/-- A rewrite attempt that can fork. -/
theorem rewriteBackground_forked (childpid : Nat) (hsane : Sane w) (hrun : w.exited = false)
    (hwait : w.sv.aofState = .waitRewrite) :
    ∃ fd v, rewriteBackground (some childpid) .success w = (.ok, v) ∧ Forked w fd v := by
  obtain ⟨hbuf, hoff⟩ := hsane.idle (by rw [hwait]; nofun)
  generalize hu : flushAppendOnlyFile true RewriteEnv.success.flush (prepareRewrite w) = u
  have hflush : u = (prepareRewrite w).set fun sv => { sv with
      fsyncedReploffPending := sv.masterReplOffset } := by
    rw [← hu]
    exact flushAppendOnlyFile_idle true .success hbuf hoff
  have huwait : u.sv.aofState = .waitRewrite := by
    rw [hflush]
    exact hwait
  obtain ⟨fd, v, hv, hre, htouch, hincr⟩ := openTemp_newIncr RewriteEnv.success.incr huwait rfl
  have hvwait : v.sv.aofState = .waitRewrite := hre.control.aofState.trans huwait
  have hbase : baseContents v = baseContents u := by
    rw [baseContents, baseContents, hre.control.dataset, hre.control.masterReplOffset]
  have hconf : v.sv.conf = u.sv.conf := hre.control.conf
  have hman := hre.aofManifest
  have hdb := hre.aofSelectedDb
  have hbuf' := hre.aofBuf
  refine ⟨fd, (forkRewrite (some childpid) v).2, ?_, ?_⟩
  · unfold rewriteBackground
    have hchild : hasActiveChildProcess w.sv = false := by
      simp [hasActiveChildProcess, hsane.childType]
    have hexited : u.exited = false := by
      rw [hflush]
      exact hrun
    rw [if_neg (by simp [hchild]), if_neg (by simp [RewriteEnv.success]), hu]
    dsimp only
    rw [if_neg (by simp [hexited]), hv]
    rfl
  · subst hflush
    have hfork : (forkRewrite (some childpid) v).2 =
        v.set fun sv => { sv with
          fsyncedReploffPending := sv.masterReplOffset
          fsyncedReploff := some 0
          aofRewriteScheduled := false
          childType := some .aof } := by
      unfold forkRewrite
      rw [if_pos hvwait]
      rfl
    rw [hfork]
    exact ⟨hconf, hman, hre.aofFd, hdb, hre.aofLastIncrSize, hre.aofLastIncrFsyncOffset, hvwait,
      hbuf'.trans hbuf, hbase, ⟨htouch.keeps, htouch.manifest, htouch.trace⟩,
      ⟨hincr.file, hincr.openAt⟩⟩

/-- The child saves the dataset. -/
theorem Forked.child (h : Forked w fd v) (hfd : FdValid w) (childpid : Nat) :
    ∃ v', rewriteChild .success childpid v = (.ok, v') ∧ v'.sv = v.sv ∧
      Ready w fd (bgTempName childpid) v' := by
  generalize hc : v.set (fun sv => { sv with pid := childpid }) = c
  generalize hr : rewriteAppendOnlyFile BaseEnv.success (.cwd (bgTempName childpid)) c = r
  have hok : r.1 = .ok := by
    rw [← hr, rewriteAppendOnlyFile_ok_iff]
  have hfile := rewriteAppendOnlyFile_file .success (.cwd (bgTempName childpid)) c (hr ▸ hok)
  have htouch := rewriteAppendOnlyFile_touches .success (.cwd (bgTempName childpid)) c
  rw [hr] at hfile htouch
  obtain ⟨f, hf, hdata, -⟩ := hfile
  refine ⟨{ v with disk := r.2.disk, trace := r.2.trace }, ?_, rfl, ?_⟩
  · unfold rewriteChild
    dsimp only
    rw [hc, hr, hok]
  · have htouch' : Touches {.cwd (tempRewriteName c.sv), .cwd (bgTempName childpid)} ∅ v
        { v with disk := r.2.disk, trace := r.2.trace } := by
      subst hc
      exact ⟨htouch.keeps, htouch.manifest, htouch.trace⟩
    have hincr := h.incr.keeps htouch'.keeps (by simp)
    obtain ⟨g, hg, hempty⟩ := hincr.file
    have hbase : f.data = baseContents w := by
      rw [hdata, ← h.base]
      subst hc
      rfl
    exact ⟨h.conf, h.aofManifest, h.aofFd, h.aofSelectedDb, h.aofLastIncrSize,
      h.aofLastIncrFsyncOffset, newFiles_touches h.touches htouch', hincr.openAt hfd,
      data_some_iff.mpr ⟨g, hg, hempty⟩, data_some_iff.mpr ⟨f, hf, hbase⟩⟩

omit [AofFormat D A δ] in
theorem rewrittenManifest_congr {sv sv' : Server D A δ} (hconf : sv'.conf = sv.conf)
    (hman : sv'.aofManifest = sv.aofManifest) :
    newBaseName sv' = newBaseName sv ∧ newIncrName sv' = newIncrName sv ∧
      rewrittenManifest sv' = rewrittenManifest sv := by
  simp only [rewrittenManifest, newBaseName, newIncrName, hconf, hman, and_self]

/-- The handler takes over the files of the child. -/
theorem Ready.adoptBackground_eq (childpid : Nat) (h : Ready w fd (bgTempName childpid) v)
    (hwait : v.sv.aofState = .waitRewrite) :
    adoptBackground .success childpid v =
      installBackground .success (newBaseName w.sv) { rewrittenManifest w.sv with dirty := false }
        (writeAofManifestFile .success (rewrittenManifest w.sv).lines
          (adopted w.sv (bgTempName childpid) v)) := by
  obtain ⟨hbase, hincr, hman⟩ := rewrittenManifest_congr h.conf h.aofManifest
  rw [← hbase, ← hman]
  have hadopted : adopted w.sv (bgTempName childpid) v = adopted v.sv (bgTempName childpid) v := by
    rw [adopted, adopted, hbase, hincr, h.conf]
  have hopen : (adopted v.sv (bgTempName childpid) v).sv.aofFd.isSome = true := by
    show v.sv.aofFd.isSome = true
    rw [h.aofFd]
    rfl
  have hdirty : (rewrittenManifest v.sv).dirty = true := congrArg (·.dirty) (rewrittenManifest_eq _)
  rw [hadopted]
  unfold adoptBackground
  dsimp only [getNewBaseFileNameAndMarkPreAsHistory, getNewIncrAofName]
  rw [if_neg (by simp [DoneEnv.success])]
  show (if v.sv.aofState = .waitRewrite then _ else _) = _
  rw [if_pos hwait, if_neg (by simp [DoneEnv.success])]
  show persistBackground .success (newBaseName v.sv) (some (newIncrName v.sv))
    ((v.sv.aofManifest.pushBase (newBaseName v.sv)).pushIncr (newIncrName v.sv))
    (adopted v.sv (bgTempName childpid) v) = _
  unfold persistBackground
  rw [hopen]
  dsimp only
  generalize ham : markRewrittenIncrAofAsHistory true _ = am
  obtain rfl : rewrittenManifest v.sv = am := ham
  unfold persistAofManifest
  rw [if_pos hdirty]
  rfl

omit [AofFormat D A δ] in
theorem bgUnlink_cwd (fd : Nat) (n m : String) (v : World D A δ) :
    (v.bgUnlink (.cwd n)).disk.fs.data (.aof m) = v.disk.fs.data (.aof m) ∧
      ((v.bgUnlink (.cwd n)).disk.fs.OpenAt fd (.aof m) ↔ v.disk.fs.OpenAt fd (.aof m)) := by
  constructor
  · exact (unlink_data _ _ _).trans (if_neg (Path.aof_ne_cwd m n))
  · exact unlink_openAt_iff.trans (and_iff_right (Path.aof_ne_cwd m n))

/-- Removing the temporary files of the child changes no AOF file. -/
theorem Installed.removeTemp (h : Installed w v) (childpid : Nat) :
    Installed w (aofRemoveTempFile childpid v) := by
  have hunlink : ∀ {u : World D A δ} (n : String), Installed w u → Installed w (u.bgUnlink (.cwd n)) := by
    intro u n hu
    obtain ⟨fd, hfd, hopen⟩ := hu.aofFd
    refine ⟨hu.aofManifest, hu.manifest, ?_, hu.aofSelectedDb, hu.aofLastIncrSize,
      hu.aofLastIncrFsyncOffset, hu.aofCurrentSize, hu.aofRewriteBaseSize, fd, hfd, ?_⟩
    · intro m
      rw [(bgUnlink_cwd fd n m u).1, hu.files]
    · intro m
      rw [(bgUnlink_cwd fd n m u).2, hopen]
  exact hunlink _ (hunlink _ h)

/-- The handler completes the enable. -/
theorem Ready.done (childpid : Nat) (h : Ready w fd (bgTempName childpid) v)
    (hwait : v.sv.aofState = .waitRewrite) (hbuf : v.sv.aofBuf = []) :
    Enabled w (checkChildrenDone .success childpid 0 0 v) := by
  have hinst := h.inPlace.installed
  generalize hu : writeAofManifestFile .success (rewrittenManifest w.sv).lines
    (adopted w.sv (bgTempName childpid) v) = u at hinst
  have hustate : u.sv.aofState = .waitRewrite := by
    subst hu
    exact hwait
  generalize hi : installManifest (newBaseName w.sv)
    { rewrittenManifest w.sv with dirty := false } u = i at hinst
  obtain ⟨am, hdel⟩ := aofDelHistoryFiles_sv ManifestWrite.success i
  generalize hd : aofDelHistoryFiles .success i = d at hinst hdel
  have hdstate : d.sv.aofState = .waitRewrite := by
    rw [hdel]
    subst hi
    exact hustate
  have hdbuf : d.sv.aofBuf = [] := by
    rw [hdel]
    subst hi hu
    exact hbuf
  have hne : u.sv.aofState ≠ .off := by
    rw [hustate]
    nofun
  have hinstall : installBackground .success (newBaseName w.sv)
      { rewrittenManifest w.sv with dirty := false } u = switchOn (rewriteSucceeded d) := by
    unfold installBackground
    dsimp only
    rw [if_pos hne, hi, hd]
    exact if_pos hdstate
  have hdone : Installed w (switchOn (rewriteSucceeded d)) :=
    ⟨hinst.aofManifest, hinst.manifest, hinst.files, hinst.aofSelectedDb, hinst.aofLastIncrSize,
      hinst.aofLastIncrFsyncOffset, hinst.aofCurrentSize, hinst.aofRewriteBaseSize, hinst.aofFd⟩
  have hremove := hdone.removeTemp childpid
  have hhandler : backgroundRewriteDoneHandler .success childpid 0 0 v =
      aofRemoveTempFile childpid (switchOn (rewriteSucceeded d)) := by
    show rewriteCleanup childpid (adoptBackground .success childpid v) = _
    rw [h.adoptBackground_eq childpid hwait, hu, hinstall]
    rfl
  unfold checkChildrenDone
  rw [hhandler]
  exact ⟨⟨hremove.aofManifest, hremove.manifest, hremove.files, hremove.aofSelectedDb,
    hremove.aofLastIncrSize, hremove.aofLastIncrFsyncOffset, hremove.aofCurrentSize,
    hremove.aofRewriteBaseSize, hremove.aofFd⟩, rfl, hdbuf⟩

theorem startDone_enabled (h : Enabled w v) : Enabled w (startDone v) :=
  ⟨⟨h.aofManifest, h.manifest, h.files, h.aofSelectedDb, h.aofLastIncrSize,
    h.aofLastIncrFsyncOffset, h.aofCurrentSize, h.aofRewriteBaseSize, h.aofFd⟩, h.aofState,
    h.aofBuf⟩

/-- `aof_state` does not matter for what an enable does. -/
theorem Enabled.of_set {st : AofState}
    (h : Enabled (w.set fun sv => { sv with aofState := st }) v) : Enabled w v :=
  ⟨⟨h.aofManifest, h.manifest, h.files, h.aofSelectedDb, h.aofLastIncrSize,
    h.aofLastIncrFsyncOffset, h.aofCurrentSize, h.aofRewriteBaseSize, h.aofFd⟩, h.aofState,
    h.aofBuf⟩

/-- The enable of the WASI build. -/
theorem startAppendOnly_enabled (hsane : Sane w) (hexec : w.sv.inExec = false) :
    (startAppendOnly .success w).1 = .ok ∧ Enabled w (startAppendOnly .success w).2 := by
  generalize hw' : w.set (fun sv => { sv with aofState := .waitRewrite }) = w'
  have hsync : (startSync .success w').1 = .ok ∧ Enabled w' (startSync .success w').2 := by
    subst hw'
    exact startSync_enabled hsane.fd rfl
  rw [startAppendOnly_eq .success hsane.childType hexec, hw']
  generalize startSync StartEnv.success w' = r at hsync
  obtain ⟨st, v⟩ := r
  obtain ⟨rfl, hv⟩ : st = .ok ∧ Enabled w' v := hsync
  subst hw'
  exact ⟨rfl, (startDone_enabled hv).of_set⟩

/-- The enable of the native build. -/
theorem nativeEnable_enabled (hsane : Sane w) (hoff : w.sv.aofState = .off)
    (hexec : w.sv.inExec = false) (hrun : w.exited = false) (oldpid childpid : Nat) :
    (nativeEnable .success oldpid childpid w).1 = .ok ∧
      Enabled w (nativeEnable .success oldpid childpid w).2 := by
  generalize hw' : w.set (fun sv => { sv with aofState := .waitRewrite }) = w'
  have hsane' : Sane w' := by
    subst hw'
    exact ⟨hsane.childType, hsane.fd, fun _ => hsane.idle (by rw [hoff]; nofun)⟩
  have hkill : killAppendOnlyChild oldpid w' = w' := by
    unfold killAppendOnlyChild
    rw [if_pos (by rw [hsane'.childType]; nofun)]
  obtain ⟨fd, v, hv, hforked⟩ : ∃ fd v, rewriteBackground (some childpid) .success w' = (.ok, v) ∧
      Forked w' fd v := by
    subst hw'
    exact rewriteBackground_forked childpid hsane' hrun rfl
  have hdone : Forked w' fd (startDone v) :=
    ⟨hforked.conf, hforked.aofManifest, hforked.aofFd, hforked.aofSelectedDb,
      hforked.aofLastIncrSize, hforked.aofLastIncrFsyncOffset, hforked.aofState, hforked.aofBuf,
      hforked.base, hforked.touches.trans (.of_disk rfl rfl),
      hforked.incr.keeps (.refl _) (Set.notMem_empty _)⟩
  obtain ⟨v', hv', hsv, hready⟩ := hdone.child hsane'.fd childpid
  have henabled := hready.done childpid (hsv ▸ hdone.aofState) (hsv ▸ hdone.aofBuf)
  have hstart : startAppendOnlyNative RewriteEnv.success oldpid childpid w = (.ok, startDone v) := by
    unfold startAppendOnlyNative
    dsimp only
    rw [hw', if_neg (by subst hw'; simp [World.set, hasActiveChildProcess, hsane.childType, hexec]),
      hkill, hv]
  have hnative : nativeEnable .success oldpid childpid w =
      (.ok, checkChildrenDone .success childpid 0 0 v') := by
    unfold nativeEnable
    show (match startAppendOnlyNative RewriteEnv.success oldpid childpid w with
      | (.err, w) => (.err, w)
      | (.ok, w) => (.ok, checkChildrenDone DoneEnv.success childpid
          (if (rewriteChild BaseEnv.success childpid w).1 = .ok then 0 else 1) 0
          (rewriteChild BaseEnv.success childpid w).2) : Status × World D A δ) = _
    rw [hstart]
    dsimp only
    rw [hv']
    rfl
  rw [hnative]
  subst hw'
  exact ⟨rfl, henabled.of_set⟩

/-! ## The result -/

/-- Two servers agree on the AOF. -/
structure SameAof (v v' : World D A δ) : Prop where
  aofManifest : v'.sv.aofManifest = v.sv.aofManifest
  manifest : v'.disk.manifest = v.disk.manifest
  files : ∀ n, v'.disk.fs.data (.aof n) = v.disk.fs.data (.aof n)
  aofState : v'.sv.aofState = v.sv.aofState
  aofBuf : v'.sv.aofBuf = v.sv.aofBuf
  aofSelectedDb : v'.sv.aofSelectedDb = v.sv.aofSelectedDb
  aofLastIncrSize : v'.sv.aofLastIncrSize = v.sv.aofLastIncrSize
  aofLastIncrFsyncOffset : v'.sv.aofLastIncrFsyncOffset = v.sv.aofLastIncrFsyncOffset
  aofCurrentSize : v'.sv.aofCurrentSize = v.sv.aofCurrentSize
  aofRewriteBaseSize : v'.sv.aofRewriteBaseSize = v.sv.aofRewriteBaseSize
  aofFd : ∃ fd fd', v.sv.aofFd = some fd ∧ v'.sv.aofFd = some fd' ∧
    ∀ n, v'.disk.fs.OpenAt fd' (.aof n) ↔ v.disk.fs.OpenAt fd (.aof n)

theorem Enabled.same (h : Enabled w v) (h' : Enabled w v') : SameAof v v' := by
  obtain ⟨fd, hfd, hopen⟩ := h.aofFd
  obtain ⟨fd', hfd', hopen'⟩ := h'.aofFd
  refine ⟨?_, ?_, ?_, ?_, ?_, ?_, ?_, ?_, ?_, ?_, fd, fd', hfd, hfd', ?_⟩
  · rw [h.aofManifest, h'.aofManifest]
  · rw [h.manifest, h'.manifest]
  · intro n
    rw [h.files, h'.files]
  · rw [h.aofState, h'.aofState]
  · rw [h.aofBuf, h'.aofBuf]
  · rw [h.aofSelectedDb, h'.aofSelectedDb]
  · rw [h.aofLastIncrSize, h'.aofLastIncrSize]
  · rw [h.aofLastIncrFsyncOffset, h'.aofLastIncrFsyncOffset]
  · rw [h.aofCurrentSize, h'.aofCurrentSize]
  · rw [h.aofRewriteBaseSize, h'.aofRewriteBaseSize]
  · intro n
    rw [hopen, hopen']

/-- In every state that a server can get into with the AOF off, outside `EXEC`, and whatever the
pid of the child, an enable on WASI ends as the one of the native build does. -/
theorem enable_same_as_native [Commands A δ] (w : World D A δ) (hreach : Reachable w)
    (hoff : w.sv.aofState = .off) (hexec : w.sv.inExec = false) (hrun : w.exited = false)
    (oldpid childpid : Nat) :
    (startAppendOnly .success w).1 = .ok ∧ (nativeEnable .success oldpid childpid w).1 = .ok ∧
      Enabled w (startAppendOnly .success w).2 ∧
      SameAof (startAppendOnly .success w).2 (nativeEnable .success oldpid childpid w).2 := by
  have hsane := hreach.sane
  obtain ⟨hok, henabled⟩ := startAppendOnly_enabled hsane hexec
  obtain ⟨hok', henabled'⟩ := nativeEnable_enabled hsane hoff hexec hrun oldpid childpid
  exact ⟨hok, hok', henabled, henabled.same henabled'⟩

/-- A server started for the first time with the AOF off. -/
theorem first_enable_same_as_native :
    Reachable (firstStart false) ∧ (firstStart false).sv.aofState = .off ∧
      SameAof (startAppendOnly .success (firstStart false)).2
        (nativeEnable .success 0 100 (firstStart false)).2 := by
  have hreach : Reachable (firstStart false) := ⟨defaultStart false, .success, .blank, [], rfl⟩
  have hoff : (firstStart false).sv.aofState = .off := by decide +kernel
  exact ⟨hreach, hoff, (enable_same_as_native _ hreach hoff (by decide +kernel) (by decide +kernel)
    0 100).2.2.2⟩

end WasiPorts.Redis.Aof
