import WasiPorts.Redis.Aof.Enable
import WasiPorts.Redis.Aof.Startup

/-!
# Reachable states

What holds in every state that a server can get into, whatever fails on the way: there is no
child, `aof_fd` is a descriptor that was opened, and unless the AOF is on, `aof_buf` is empty and
there is nothing to fsync.
-/

namespace WasiPorts.Redis.Aof

open WasiPorts.Posix WasiPorts.Posix.Fs WasiPorts.Run

variable {D A δ : Type}

/-- The states of a server that was started on any disk, with any results of its system calls. -/
def Reachable [Commands A δ] [AofFormat D A δ] (w : World D A δ) : Prop :=
  ∃ (c : StartConf δ) (env : BootEnv) (dk : Disk D) (ops : List (Op A)),
    w = run step (serverStart c env dk) ops

structure Sane (w : World D A δ) : Prop where
  childType : w.sv.childType = none
  fd : FdValid w
  idle : w.sv.aofState ≠ .on →
    w.sv.aofBuf = [] ∧ w.sv.aofLastIncrFsyncOffset = w.sv.aofLastIncrSize

variable {w w' : World D A δ}

/-- Work that keeps the descriptor. -/
theorem FdValid.of_le (h : FdValid w) (hfd : w'.sv.aofFd = w.sv.aofFd)
    (hle : w.disk.fs.nextFd ≤ w'.disk.fs.nextFd) : FdValid w' := by
  intro fd hfd'
  exact Nat.lt_of_lt_of_le (h fd (hfd ▸ hfd')) hle

/-! ## Flushing -/

theorem bioAofFsync_nextFd (ok : Bool) (fd : Nat) (w : World D A δ) :
    (bioAofFsync ok fd w).disk.fs.nextFd = w.disk.fs.nextFd := by
  cases ok with
  | false => rfl
  | true => exact fsync_nextFd _ fd

theorem tryFsync_nextFd (env : FlushEnv) (w : World D A δ) :
    (tryFsync env w).disk.fs.nextFd = w.disk.fs.nextFd := by
  unfold tryFsync
  dsimp only
  split
  · rfl
  · split
    · split
      · rfl
      · split
        · exact fsync_nextFd _ _
        · rfl
    · split
      · split
        · rfl
        · split
          · rfl
          · exact bioAofFsync_nextFd _ _ w
      · rfl

variable [AofFormat D A δ]

theorem flushAppendOnlyFile_nextFd (force : Bool) (env : FlushEnv) (w : World D A δ) :
    (flushAppendOnlyFile force env w).disk.fs.nextFd = w.disk.fs.nextFd := by
  have hshort : ∀ n, (writeShort env n w).disk.fs.nextFd = w.disk.fs.nextFd := by
    intro n
    unfold writeShort
    dsimp only
    split
    · rfl
    · split
      · rfl
      · split
        · exact (ftruncate_nextFd _ _ _).trans (write_nextFd _ _ _)
        · exact write_nextFd _ _ _
  have hfailed : ∀ n, (writeFailed env n w).disk.fs.nextFd = w.disk.fs.nextFd := by
    intro n
    unfold writeFailed
    dsimp only
    split <;> exact hshort n
  unfold flushAppendOnlyFile
  dsimp only
  split
  · split
    · split <;> rfl
    · split
      · exact tryFsync_nextFd env w
      · split
        · exact tryFsync_nextFd env w
        · rfl
  · split
    · rfl
    · split
      · split
        · exact (tryFsync_nextFd env _).trans (write_nextFd _ _ _)
        · exact hfailed _
      · exact hfailed 0

/-- A flush with nothing to write and nothing to fsync. -/
theorem flushAppendOnlyFile_idle (force : Bool) (env : FlushEnv) (hbuf : w.sv.aofBuf = [])
    (hoff : w.sv.aofLastIncrFsyncOffset = w.sv.aofLastIncrSize) :
    flushAppendOnlyFile force env w =
      w.set fun sv => { sv with fsyncedReploffPending := sv.masterReplOffset } := by
  unfold flushAppendOnlyFile
  dsimp only
  rw [if_pos hbuf, if_pos hoff]
  rfl

theorem Sane.flush (h : Sane w) (force : Bool) (env : FlushEnv) :
    Sane (flushAppendOnlyFile force env w) := by
  have hframe := flushAppendOnlyFile_frame force env w
  refine ⟨hframe.childType.trans h.childType, ?_, ?_⟩
  · exact h.fd.of_le hframe.aofFd (flushAppendOnlyFile_nextFd force env w).ge
  · intro hstate
    rw [hframe.aofState] at hstate
    obtain ⟨hbuf, hoff⟩ := h.idle hstate
    rw [flushAppendOnlyFile_idle force env hbuf hoff]
    exact ⟨hbuf, hoff⟩

/-! ## Rewriting -/

omit [AofFormat D A δ] in
theorem writeAofManifestFile_nextFd (env : ManifestWrite) (lines : List (AofInfo String))
    (w : World D A δ) :
    w.disk.fs.nextFd ≤ (writeAofManifestFile env lines w).disk.fs.nextFd := by
  have hopened : w.disk.fs.nextFd ≤ (manifestOpened w).disk.fs.nextFd := by
    show _ ≤ (w.disk.fs.openFile (tempManifest w) true false).2.nextFd
    rw [openFile_nextFd]
    exact Nat.le_succ _
  rcases writeAofManifestFile_cases env lines w with ⟨-, heq⟩ | ⟨-, heq⟩ | ⟨-, heq⟩
  · rw [heq]
  · rw [heq]
    exact hopened
  · rw [heq]
    exact hopened

omit [AofFormat D A δ] in
theorem switchIncr_nextFd (ok : Bool) (newfd : Nat) (am : AofManifest String) (w : World D A δ) :
    (switchIncr ok newfd am w).disk.fs.nextFd = w.disk.fs.nextFd := by
  unfold switchIncr closeOldAof
  split
  · rfl
  · exact bioAofFsync_nextFd ok _ w

omit [AofFormat D A δ] in
/-- The new descriptor is a real one, and a new file has nothing to fsync. -/
theorem Sane.switchIncr (h : Sane w) (ok : Bool) {newfd : Nat} (am : AofManifest String)
    (hnew : newfd < w.disk.fs.nextFd) : Sane (switchIncr ok newfd am w) := by
  have hre := switchIncr_reopened ok newfd am w
  refine ⟨hre.control.childType.trans h.childType, ?_, ?_⟩
  · intro fd hfd
    rw [hre.aofFd, Option.some.injEq] at hfd
    rw [switchIncr_nextFd, ← hfd]
    exact hnew
  · intro hstate
    rw [hre.control.aofState] at hstate
    rw [hre.aofBuf, hre.aofLastIncrFsyncOffset, hre.aofLastIncrSize]
    exact ⟨(h.idle hstate).1, rfl⟩

omit [AofFormat D A δ] in
/-- Changes of other fields of `server` and of the disk. -/
theorem Sane.of_sv (h : Sane w) (hchild : w'.sv.childType = w.sv.childType)
    (hfd : w'.sv.aofFd = w.sv.aofFd) (hle : w.disk.fs.nextFd ≤ w'.disk.fs.nextFd)
    (hidle : w'.sv.aofState ≠ .on → w.sv.aofState ≠ .on)
    (hbuf : w'.sv.aofBuf = w.sv.aofBuf)
    (hoff : w'.sv.aofLastIncrFsyncOffset = w.sv.aofLastIncrFsyncOffset)
    (hsize : w'.sv.aofLastIncrSize = w.sv.aofLastIncrSize) : Sane w' := by
  refine ⟨hchild.trans h.childType, h.fd.of_le hfd hle, ?_⟩
  intro hstate
  rw [hbuf, hoff, hsize]
  exact h.idle (hidle hstate)

omit [AofFormat D A δ] in
theorem Sane.writeManifest (h : Sane w) (env : ManifestWrite) (lines : List (AofInfo String)) :
    Sane (writeAofManifestFile env lines w) := by
  have hle := writeAofManifestFile_nextFd env lines w
  obtain ⟨dk, tr, heq⟩ := writeAofManifestFile_onDisk env lines w
  rw [heq] at hle ⊢
  exact h.of_sv rfl rfl hle id rfl rfl rfl

omit [AofFormat D A δ] in
theorem Sane.openNewIncr (h : Sane w) (env : OpenIncrEnv) :
    Sane (openNewIncrAofForAppend env w).2 := by
  have hopened : ∀ p, Sane (w.onFs fun fs => (fs.openFile p true false).2) := by
    intro p
    refine h.of_sv rfl rfl ?_ id rfl rfl rfl
    show _ ≤ (w.disk.fs.openFile p true false).2.nextFd
    rw [openFile_nextFd]
    exact Nat.le_succ _
  have hlt : ∀ p, w.disk.fs.nextFd <
      (w.onFs fun fs => (fs.openFile p true false).2).disk.fs.nextFd := by
    intro p
    show _ < (w.disk.fs.openFile p true false).2.nextFd
    rw [openFile_nextFd]
    exact Nat.lt_succ_self _
  cases hstate : w.sv.aofState with
  | off =>
      unfold openNewIncrAofForAppend
      rw [hstate]
      exact h
  | waitRewrite =>
      rw [openNewIncrAofForAppend_wait env hstate]
      dsimp only
      split
      · exact h
      · exact (hopened _).switchIncr _ _ (hlt _)
  | on =>
      rw [openNewIncrAofForAppend_on env hstate]
      dsimp only
      split
      · exact h
      · have hwritten := fun p lines => (hopened p).writeManifest env.persist lines
        split
        · exact (hwritten _ _).of_sv rfl rfl le_rfl id rfl rfl rfl
        · refine (hwritten _ _).switchIncr _ _ ?_
          exact (hlt _).trans_le (writeAofManifestFile_nextFd _ _ _)

theorem Sane.rewriteBackground (h : Sane w) (env : RewriteEnv) :
    Sane (rewriteAppendOnlyFileBackground env w).2 := by
  unfold rewriteAppendOnlyFileBackground Aof.rewriteBackground
  split
  · exact h
  · split
    · exact h.of_sv rfl rfl le_rfl id rfl rfl rfl
    · dsimp only
      have hprep : Sane (prepareRewrite w) := h.of_sv rfl rfl le_rfl id rfl rfl rfl
      have hflush := hprep.flush true env.flush
      split
      · exact hflush
      · have hincr := hflush.openNewIncr env.incr
        split
        · next heq =>
            rw [heq] at hincr
            exact hincr.of_sv rfl rfl le_rfl id rfl rfl rfl
        · next v heq =>
            rw [heq] at hincr
            unfold forkRewrite redisFork
            dsimp only
            split <;> exact hincr.of_sv rfl rfl le_rfl id rfl rfl rfl

/-! ## Turning the AOF off and on -/

theorem Sane.stop (h : Sane w) (env : StopEnv) : Sane (stopAppendOnly env w) := by
  have hflush := h.flush true env.flush
  unfold stopAppendOnly
  dsimp only
  split
  · exact hflush
  · exact ⟨(closeAof_frame env.fsync _).childType.trans hflush.childType, nofun,
      fun _ => ⟨rfl, rfl⟩⟩

theorem rewriteAppendOnlyFile_nextFd (env : BaseEnv) (dst : Path) (w : World D A δ) :
    w.disk.fs.nextFd ≤ (rewriteAppendOnlyFile env dst w).2.disk.fs.nextFd := by
  unfold rewriteAppendOnlyFile
  dsimp only
  split
  · exact le_rfl
  · split
    · simp [World.onFs, World.sys]
    · split
      · simp [World.onFs, World.sys]
      · split <;> simp [World.onFs, World.sys]

omit [AofFormat D A δ] in
theorem unlinkAll_nextFd (ais : List (AofInfo String)) (w : World D A δ) :
    (w.unlinkAll ais).disk.fs.nextFd = w.disk.fs.nextFd := by
  induction ais generalizing w with
  | nil => rfl
  | cons ai ais ih => exact ih (w.bgUnlink (.aof ai.fileName))

omit [AofFormat D A δ] in
theorem Sane.delHistory (h : Sane w) (env : ManifestWrite) : Sane (aofDelHistoryFiles env w) := by
  obtain ⟨-, heq⟩ | ⟨-, heq⟩ := aofDelHistoryFiles_cases env w
  · rw [heq]
    exact h
  · rw [heq]
    generalize hu : w.unlinkAll w.sv.aofManifest.historyAofList = u
    have hsv : u.sv = w.sv := hu ▸ unlinkAll_sv _ w
    have hfd : u.disk.fs.nextFd = w.disk.fs.nextFd := hu ▸ unlinkAll_nextFd _ w
    have hsane : Sane u := by
      refine h.of_sv ?_ ?_ hfd.ge ?_ ?_ ?_ ?_ <;> rw [hsv]
      exact id
    exact (hsane.writeManifest env _).of_sv rfl rfl le_rfl id rfl rfl rfl

omit [AofFormat D A δ] in
theorem Sane.rename (h : Sane w) (p q : Path) : Sane (w.onFs (·.rename p q)) :=
  h.of_sv rfl rfl (rename_nextFd w.disk.fs p q).ge id rfl rfl rfl

omit [AofFormat D A δ] in
theorem Sane.bgUnlink (h : Sane w) (p : Path) : Sane (w.bgUnlink p) :=
  h.of_sv rfl rfl le_rfl id rfl rfl rfl

omit [AofFormat D A δ] in
theorem Sane.failed (h : Sane w) (hne : w.sv.aofState ≠ .on) : Sane (startFailed w).2 :=
  h.of_sv rfl rfl le_rfl (fun _ => hne) rfl rfl rfl

omit [AofFormat D A δ] in
theorem Sane.failedDelTemp (h : Sane w) (hne : w.sv.aofState ≠ .on) :
    Sane (startFailedDelTemp w).2 :=
  (h.failed hne).bgUnlink _

omit [AofFormat D A δ] in
theorem Sane.install (h : Sane w) (env : StartEnv) (base : String) (am : AofManifest String) :
    Sane (installRewrite env base am w) := by
  have hfreed : Sane (freeNames env.freed (installManifest base am w)) :=
    h.of_sv rfl rfl le_rfl id rfl rfl rfl
  have hdel := hfreed.delHistory env.persistHistory
  exact ⟨hdel.childType, hdel.fd, fun hne => absurd rfl hne⟩

omit [AofFormat D A δ] in
theorem Sane.adopt (h : Sane w) (env : StartEnv) (hne : w.sv.aofState ≠ .on) :
    Sane (adoptRewrite env w).2 := by
  unfold adoptRewrite
  dsimp only [getNewBaseFileNameAndMarkPreAsHistory, getNewIncrAofName]
  split
  · exact h.failedDelTemp hne
  · split
    · exact ((h.rename _ _).bgUnlink _).failedDelTemp hne
    · generalize hv : (w.onFs _).onFs _ = v
      generalize markRewrittenIncrAofAsHistory _ _ = am
      have hsane : Sane v := by
        subst hv
        exact (h.rename _ _).rename _ _
      have hne' : v.sv.aofState ≠ .on := by
        subst hv
        exact hne
      have hpersist : Sane (persistAofManifest env.persist am v).2.2 ∧
          (persistAofManifest env.persist am v).2.2.sv.aofState ≠ .on := by
        unfold persistAofManifest
        split
        · refine ⟨hsane.writeManifest _ _, ?_⟩
          rw [writeAofManifestFile_sv]
          exact hne'
        · exact ⟨hsane, hne'⟩
      split
      · next heq =>
          rw [heq] at hpersist
          exact ((hpersist.1.bgUnlink _).bgUnlink _).failedDelTemp hpersist.2
      · next heq =>
          rw [heq] at hpersist
          exact hpersist.1.install _ _ _

theorem Sane.startSync (h : Sane w) (env : StartEnv) (hne : w.sv.aofState ≠ .on) :
    Sane (startSync env w).2 := by
  unfold Aof.startSync
  split
  · exact h.failed hne
  · have hprep : Sane (prepareRewrite w) := h.of_sv rfl rfl le_rfl id rfl rfl rfl
    have hincr := hprep.openNewIncr env.incr
    have hstate := (openNewIncrAofForAppend_control env.incr (prepareRewrite w)).aofState
    split
    · next heq =>
        rw [heq] at hincr hstate
        exact hincr.failed (hstate ▸ hne)
    · next v heq =>
        rw [heq] at hincr hstate
        have hne' : v.sv.aofState ≠ .on := by
          rw [show v.sv.aofState = _ from hstate]
          exact hne
        have hle := rewriteAppendOnlyFile_nextFd env.rewrite (.cwd syncTempName) v
        obtain ⟨dk, tr, hdisk⟩ := rewriteAppendOnlyFile_onDisk env.rewrite (.cwd syncTempName) v
        generalize rewriteAppendOnlyFile env.rewrite (.cwd syncTempName) v = r at *
        obtain ⟨st, v'⟩ := r
        obtain rfl : v' = { v with disk := dk, trace := tr } := hdisk
        have hbase : Sane { v with disk := dk, trace := tr } :=
          hincr.of_sv rfl rfl hle id rfl rfl rfl
        cases st with
        | err => exact hbase.failedDelTemp hne'
        | ok => exact hbase.adopt env hne'

theorem Sane.start (h : Sane w) (env : StartEnv) (hne : w.sv.aofState ≠ .on) :
    Sane (startAppendOnly env w).2 := by
  have hwait : Sane (w.set fun sv => { sv with aofState := .waitRewrite }) :=
    h.of_sv rfl rfl le_rfl (fun _ => hne) rfl rfl rfl
  have hsync := hwait.startSync env nofun
  unfold startAppendOnly
  dsimp only
  split
  · exact hwait.of_sv rfl rfl le_rfl id rfl rfl rfl
  · split
    · next heq =>
        rw [heq] at hsync
        exact hsync
    · next heq =>
        rw [heq] at hsync
        exact hsync.of_sv rfl rfl le_rfl id rfl rfl rfl

/-! ## The event loop -/

theorem Sane.unlessLimited (h : Sane w) (env : RewriteEnv) : Sane (rewriteUnlessLimited env w) := by
  have hlim : Sane (aofRewriteLimited w).2 := by
    unfold aofRewriteLimited
    dsimp only
    split
    · exact h.of_sv rfl rfl le_rfl id rfl rfl rfl
    · split
      · split
        · exact h
        · exact h.of_sv rfl rfl le_rfl id rfl rfl rfl
      · exact h.of_sv rfl rfl le_rfl id rfl rfl rfl
  unfold rewriteUnlessLimited
  split
  · next heq =>
      rw [heq] at hlim
      exact hlim
  · next heq =>
      rw [heq] at hlim
      exact hlim.rewriteBackground env

theorem Sane.cron (h : Sane w) (env : CronEnv) : Sane (serverCron env w) := by
  have hscheduled : Sane (cronScheduled env.scheduled w) := by
    unfold cronScheduled
    split
    · exact h.unlessLimited _
    · exact h
  have hgrowth := andThen_inv (f := cronGrowth env.growth) hscheduled fun h => by
    unfold cronGrowth
    split
    · exact h.unlessLimited _
    · exact h
  have hpostponed := andThen_inv (f := cronPostponed env.postponed) hgrowth fun h => by
    unfold cronPostponed
    split
    · exact h.flush _ _
    · exact h
  have hretry := andThen_inv (f := cronRetry env.second env.retry) hpostponed fun h => by
    unfold cronRetry
    split
    · exact h.flush _ _
    · exact h
  exact andThen_inv hretry fun h => ⟨h.childType, h.fd, h.idle⟩

theorem Sane.sleep (h : Sane w) (env : FlushEnv) : Sane (beforeSleep env w) := by
  have hflush : Sane (flushBeforeSleep env w) := by
    unfold flushBeforeSleep
    split
    · exact h
    · exact h.flush _ _
  refine andThen_inv hflush fun h => ?_
  unfold updateFsyncedReploff
  split
  · exact h.of_sv rfl rfl le_rfl id rfl rfl rfl
  · exact h

theorem Sane.propagate (h : Sane w) (arbitrary : Bool) :
    Sane (propagatePendingCommands arbitrary w) := by
  refine propagatePendingCommands_inv ?_ ?_ arbitrary h
  · intro dictid len cmd w h
    unfold propagateNow
    dsimp only
    split
    · split
      · refine ⟨h.childType, h.fd, fun hstate => ?_⟩
        -- what is fed while the AOF waits for a rewrite is dropped
        have hdrop : feedAppends w.sv = false := by
          have hne : w.sv.aofState ≠ .on := hstate
          simp [feedAppends, hne, h.childType]
        refine ⟨?_, (h.idle hstate).2⟩
        show (if feedAppends w.sv then _ else w.sv.aofBuf) = []
        rw [hdrop]
        exact (h.idle hstate).1
      · exact h.of_sv rfl rfl le_rfl id rfl rfl rfl
    · exact h
  · intro w h
    exact h.of_sv rfl rfl le_rfl id rfl rfl rfl

theorem Sane.config (h : Sane w) (yes : Bool) (start : StartEnv) (stop : StopEnv) :
    Sane (configSetAppendonly yes start stop w) := by
  have hset : Sane (w.set fun sv => { sv with aofEnabled := yes }) :=
    h.of_sv rfl rfl le_rfl id rfl rfl rfl
  unfold configSetAppendonly
  dsimp only
  split
  · exact h
  · split
    · exact hset.stop stop
    · split
      · next hoff =>
          have hres := hset.start start (by simp [hoff.2])
          split
          · next hok =>
              rw [hok] at hres
              exact hres
          · next herr =>
              rw [herr] at hres
              exact hres.of_sv rfl rfl le_rfl id rfl rfl rfl
      · exact hset

theorem Sane.bgrewriteaof (h : Sane w) (env : RewriteEnv) : Sane (bgrewriteaofCommand env w) := by
  unfold bgrewriteaofCommand
  split
  · exact h
  · split
    · exact h.of_sv rfl rfl le_rfl id rfl rfl rfl
    · exact h.rewriteBackground env

section Step

variable [Commands A δ]

theorem Sane.call (h : Sane w) (c : Command A) : Sane (call w c) := by
  cases c with
  | write ops arbitrary =>
      obtain ⟨d, q, heq⟩ := foldl_writeOp ops w.sv
      have hcall : Aof.call w (.write ops arbitrary) =
          { w with sv := { w.sv with dataset := d, alsoPropagate := q } } := by
        show { w with sv := ops.foldl writeOp w.sv } = _
        rw [heq]
      rw [hcall]
      exact h.of_sv rfl rfl le_rfl id rfl rfl rfl
  | configAppendonly yes start stop => exact h.config yes start stop
  | bgrewriteaof env => exact h.bgrewriteaof env

theorem Sane.exec (h : Sane w) (cs : List (Command A)) : Sane (execCommand cs w) := by
  have henter : Sane (enterExec w) := h.of_sv rfl rfl le_rfl id rfl rfl rfl
  have hcalls : Always callNext Sane (enterExec w) cs := by
    refine Always.of_step ?_ henter cs
    intro w c h
    exact andThen_inv h fun h => h.call c
  refine andThen_inv hcalls.last fun h => ?_
  exact (h.of_sv rfl rfl le_rfl id rfl rfl rfl : Sane (World.set _ fun sv =>
    { sv with inExec := false })).propagate false

theorem step_sane (w : World D A δ) (op : Op A) (h : Sane w) : Sane (step w op) := by
  refine andThen_inv h fun h => ?_
  cases op with
  | command c => exact andThen_inv (h.call c) fun h => h.propagate c.arbitrary
  | exec cs => exact h.exec cs
  | beforeSleep env => exact h.sleep env
  | serverCron env => exact h.cron env
  | clock ms => exact h.of_sv rfl rfl le_rfl id rfl rfl rfl
  | configAppendfsync policy => exact h.of_sv rfl rfl le_rfl id rfl rfl rfl

/-! ## The start of the server -/

omit [Commands A δ] [AofFormat D A δ] in
theorem andThen_imp {I J : World D A δ → Prop} {f : World D A δ → World D A δ} (h : I w)
    (hexit : I w → J w) (hf : I w → J (f w)) : J (w.andThen f) := by
  unfold World.andThen
  split
  · exact hexit h
  · exact hf h

omit [Commands A δ] [AofFormat D A δ] in
/-- The AOF is not open yet. -/
structure Unopened (w : World D A δ) : Prop where
  childType : w.sv.childType = none
  aofFd : w.sv.aofFd = none
  aofBuf : w.sv.aofBuf = []
  fsyncOffset : w.sv.aofLastIncrFsyncOffset = 0
  size : w.sv.aofLastIncrSize = 0

omit [Commands A δ] [AofFormat D A δ] in
theorem Unopened.sane (h : Unopened w) : Sane w := by
  refine ⟨h.childType, ?_, fun _ => ⟨h.aofBuf, h.fsyncOffset.trans h.size.symm⟩⟩
  intro fd hfd
  rw [h.aofFd] at hfd
  cases hfd

omit [Commands A δ] [AofFormat D A δ] in
theorem Unopened.of_sv (h : Unopened w) (hsv : w'.sv = w.sv) : Unopened w' :=
  ⟨hsv ▸ h.childType, hsv ▸ h.aofFd, hsv ▸ h.aofBuf, hsv ▸ h.fsyncOffset, hsv ▸ h.size⟩

omit [Commands A δ] [AofFormat D A δ] in
theorem Unopened.loadManifest (h : Unopened w) : Unopened (aofLoadManifestFromDisk w) := by
  unfold aofLoadManifestFromDisk
  split
  · exact h
  · split
    · exact h
    · split
      · exact h.of_sv rfl
      · exact ⟨h.childType, h.aofFd, h.aofBuf, h.fsyncOffset, h.size⟩

omit [Commands A δ] [AofFormat D A δ] in
theorem Unopened.persist (h : Unopened w) (env : ManifestWrite) (am : AofManifest String) :
    Unopened (persistAofManifest env am w).2.2 := by
  unfold persistAofManifest
  split
  · exact h.of_sv (writeAofManifestFile_sv env am.lines w)
  · exact h

omit [Commands A δ] [AofFormat D A δ] in
theorem Unopened.upgrade (h : Unopened w) (env : BootEnv) : Unopened (upgradeIfNeeded env w) := by
  unfold upgradeIfNeeded
  split
  · unfold aofUpgradePrepare
    dsimp only
    split
    · exact h.of_sv rfl
    · split
      · exact h.of_sv rfl
      · generalize { w.dirCreate.sv.aofManifest with
          baseAofInfo := some ⟨w.dirCreate.sv.conf.aofFilename, 1, .base⟩
          currBaseFileSeq := 1
          dirty := true } = am
        have hdir : Unopened w.dirCreate := h.of_sv rfl
        have hpersist := hdir.persist env.upgradePersist am
        split
        · next heq =>
            rw [heq] at hpersist
            exact hpersist.of_sv rfl
        · next heq =>
            rw [heq] at hpersist
            split
            · exact hpersist.of_sv rfl
            · exact ⟨hpersist.childType, hpersist.aofFd, hpersist.aofBuf, hpersist.fsyncOffset,
                hpersist.size⟩
  · exact h

theorem Unopened.load (h : Unopened w) (c : StartConf δ) (env : BootEnv) :
    Unopened (loadDataFromDisk c env w) := by
  unfold loadDataFromDisk
  split
  · refine andThen_inv (h.upgrade env) fun h => ?_
    unfold loadAof
    dsimp only
    split <;> exact ⟨h.childType, h.aofFd, h.aofBuf, h.fsyncOffset, h.size⟩
  · exact ⟨h.childType, h.aofFd, h.aofBuf, h.fsyncOffset, h.size⟩

omit [Commands A δ] in
theorem Unopened.createBase (h : Unopened w) (env : BaseEnv) :
    Unopened (createBaseIfNeeded env w) := by
  unfold createBaseIfNeeded
  dsimp only
  split
  · generalize hv : (w.set fun sv => { sv with
      aofManifest := (getNewBaseFileNameAndMarkPreAsHistory w.sv.conf w.sv.aofManifest).2 }) = v
    have hun : Unopened v := by
      subst hv
      exact ⟨h.childType, h.aofFd, h.aofBuf, h.fsyncOffset, h.size⟩
    obtain ⟨dk, tr, heq⟩ := rewriteAppendOnlyFile_onDisk env
      (.aof (getNewBaseFileNameAndMarkPreAsHistory w.sv.conf w.sv.aofManifest).1) v
    have hsv := congrArg World.sv heq
    split
    · next hres =>
        rw [hres] at hsv
        exact hun.of_sv hsv
    · next hres =>
        rw [hres] at hsv
        exact hun.of_sv hsv
  · exact h

omit [Commands A δ] [AofFormat D A δ] in
theorem Unopened.openIncr (h : Unopened w) (env : BootEnv) : Sane (openLastIncr env w) := by
  unfold openLastIncr
  dsimp only
  split
  · exact h.sane.of_sv rfl rfl le_rfl id rfl rfl rfl
  · generalize (getLastIncrAofName w.sv.conf w.sv.aofManifest).2 = am
    generalize (getLastIncrAofName w.sv.conf w.sv.aofManifest).1 = name
    generalize hv : (w.onFs fun fs => (fs.openFile (.aof name) false true).2) = v
    have hun : Unopened v := by
      subst hv
      exact h.of_sv rfl
    have hpersist := hun.persist env.persist am
    have hfd : v.disk.fs.nextFd ≤ (persistAofManifest env.persist am v).2.2.disk.fs.nextFd := by
      unfold persistAofManifest
      split
      · exact writeAofManifestFile_nextFd _ _ v
      · exact le_rfl
    split
    · next heq =>
        rw [heq] at hpersist
        exact hpersist.sane.of_sv rfl rfl le_rfl id rfl rfl rfl
    · next u heq =>
        rw [heq] at hpersist hfd
        refine ⟨hpersist.childType, ?_, fun _ => ⟨hpersist.aofBuf, rfl⟩⟩
        intro fd hfd'
        obtain rfl : w.disk.fs.nextFd = fd := Option.some.inj hfd'
        refine Nat.lt_of_lt_of_le ?_ hfd
        rw [← hv]
        show _ < (w.disk.fs.openFile (.aof name) false true).2.nextFd
        rw [openFile_nextFd]
        exact Nat.lt_succ_self _

theorem serverStart_sane (c : StartConf δ) (env : BootEnv) (dk : Disk D) :
    Sane (serverStart c env dk : World D A δ) := by
  unfold serverStart
  dsimp only
  generalize hw : (World.mk (initServer c) { dk with fs := dk.fs.closeAll } false [] [] none :
    World D A δ) = w
  have hinit : Unopened w := by
    subst hw
    exact ⟨rfl, rfl, rfl, rfl, rfl⟩
  have hload := andThen_inv hinit.loadManifest fun h => h.load c env
  have hopen : Sane (((aofLoadManifestFromDisk w).andThen (loadDataFromDisk c env)).andThen
      (aofOpenIfNeededOnServerStart env)) := by
    refine andThen_imp hload (fun h => h.sane) fun h => ?_
    unfold aofOpenIfNeededOnServerStart
    split
    · exact h.sane
    · split
      · exact h.sane.of_sv rfl rfl le_rfl id rfl rfl rfl
      · have hdir : Unopened (World.dirCreate _) := h.of_sv rfl
        exact andThen_imp (hdir.createBase env.base) (fun h => h.sane) fun h => h.openIncr env
  exact andThen_inv hopen fun h => h.delHistory _

/-- Every reachable state is as described. -/
theorem Reachable.sane (h : Reachable w) : Sane w := by
  obtain ⟨c, env, dk, ops, rfl⟩ := h
  exact (Always.of_step step_sane (serverStart_sane c env dk) ops).last

end Step

end WasiPorts.Redis.Aof
