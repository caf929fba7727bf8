import WasiPorts.Redis.Aof.Loop

/-!
# What the AOF code leaves alone

Three nested relations between the worlds before and after a call:

* `Steady` — kept by everything except commands and the clock: the dataset, the replication
  offset, what has been fed, the child and the transaction flag.
* `Control` — also the state of the AOF and the failure counter. Rewrite attempts keep it.
* `Frame` — also the files in use. Flushing keeps it.
-/

namespace WasiPorts.Redis.Aof

open WasiPorts.Posix

variable {D A δ : Type}

structure Steady (w w' : World D A δ) : Prop where
  conf : w'.sv.conf = w.sv.conf
  aofEnabled : w'.sv.aofEnabled = w.sv.aofEnabled
  aofFsync : w'.sv.aofFsync = w.sv.aofFsync
  scheduled : w'.sv.aofRewriteScheduled = w.sv.aofRewriteScheduled
  masterReplOffset : w'.sv.masterReplOffset = w.sv.masterReplOffset
  feedsReplicas : w'.sv.feedsReplicas = w.sv.feedsReplicas
  inExec : w'.sv.inExec = w.sv.inExec
  childType : w'.sv.childType = w.sv.childType
  alsoPropagate : w'.sv.alsoPropagate = w.sv.alsoPropagate
  dataset : w'.sv.dataset = w.sv.dataset
  feeds : w'.feeds = w.feeds
  ackTicks : w'.ackTicks = w.ackTicks

structure Control (w w' : World D A δ) : Prop extends Steady w w' where
  aofState : w'.sv.aofState = w.sv.aofState
  failures : w'.sv.statAofrwConsecutiveFailures = w.sv.statAofrwConsecutiveFailures

structure Frame (w w' : World D A δ) : Prop extends Control w w' where
  aofFd : w'.sv.aofFd = w.sv.aofFd
  aofSelectedDb : w'.sv.aofSelectedDb = w.sv.aofSelectedDb
  aofManifest : w'.sv.aofManifest = w.sv.aofManifest
  fsyncedReploff : w'.sv.fsyncedReploff = w.sv.fsyncedReploff
  manifest : w'.disk.manifest = w.disk.manifest

variable {w w₁ w₂ w₃ : World D A δ}

theorem Steady.trans (h : Steady w₁ w₂) (h' : Steady w₂ w₃) : Steady w₁ w₃ := by
  constructor
  · rw [h'.conf, h.conf]
  · rw [h'.aofEnabled, h.aofEnabled]
  · rw [h'.aofFsync, h.aofFsync]
  · rw [h'.scheduled, h.scheduled]
  · rw [h'.masterReplOffset, h.masterReplOffset]
  · rw [h'.feedsReplicas, h.feedsReplicas]
  · rw [h'.inExec, h.inExec]
  · rw [h'.childType, h.childType]
  · rw [h'.alsoPropagate, h.alsoPropagate]
  · rw [h'.dataset, h.dataset]
  · rw [h'.feeds, h.feeds]
  · rw [h'.ackTicks, h.ackTicks]

theorem Control.refl (w : World D A δ) : Control w w := by
  repeat' constructor

theorem Control.trans (h : Control w₁ w₂) (h' : Control w₂ w₃) : Control w₁ w₃ := by
  constructor
  · exact h.toSteady.trans h'.toSteady
  · rw [h'.aofState, h.aofState]
  · rw [h'.failures, h.failures]

theorem Frame.refl (w : World D A δ) : Frame w w := by
  constructor <;> first | exact Control.refl w | rfl

theorem Frame.trans (h : Frame w₁ w₂) (h' : Frame w₂ w₃) : Frame w₁ w₃ := by
  constructor
  · exact h.toControl.trans h'.toControl
  · rw [h'.aofFd, h.aofFd]
  · rw [h'.aofSelectedDb, h.aofSelectedDb]
  · rw [h'.aofManifest, h.aofManifest]
  · rw [h'.fsyncedReploff, h.fsyncedReploff]
  · rw [h'.manifest, h.manifest]

theorem World.andThen_cases (w : World D A δ) (f : World D A δ → World D A δ) :
    w.andThen f = w ∨ w.andThen f = f w := by
  unfold andThen
  split
  · exact .inl rfl
  · exact .inr rfl

theorem World.andThen_running (h : w.exited = false) (f : World D A δ → World D A δ) :
    w.andThen f = f w := by
  unfold World.andThen
  rw [h]
  rfl

/-- A sequence that has not exited was run to its end. -/
theorem andThen_exited {f : World D A δ → World D A δ} (h : (w.andThen f).exited = false) :
    w.exited = false ∧ w.andThen f = f w := by
  unfold World.andThen at h ⊢
  split at h
  · next hexit =>
      rw [hexit] at h
      cases h
  · next hexit => exact ⟨by simpa using hexit, if_neg hexit⟩

theorem Control.andThen {f : World D A δ → World D A δ} (h : Control w w₁)
    (hf : Control w₁ (f w₁)) : Control w (w₁.andThen f) := by
  unfold World.andThen
  split
  · exact h
  · exact h.trans hf

/-! ## Flushing -/

section Flush

theorem onFs_frame (w : World D A δ) (f : Fs Path D → Fs Path D) : Frame w (w.onFs f) := by
  repeat' constructor

theorem exit_frame (w : World D A δ) : Frame w w.exit := by
  repeat' constructor

theorem bioAofFsync_frame (fsyncOk : Bool) (fd : Nat) (w : World D A δ) :
    Frame w (bioAofFsync fsyncOk fd w) := by
  cases fsyncOk <;> repeat' constructor

theorem tryFsync_frame (env : FlushEnv) (w : World D A δ) : Frame w (tryFsync env w) := by
  unfold tryFsync
  dsimp only
  split
  · exact Frame.refl w
  · split
    · split
      · exact exit_frame w
      · split
        · repeat' constructor
        · exact exit_frame w
    · split
      · -- the background job, with and without a descriptor
        split
        · repeat' constructor
        · split
          · repeat' constructor
          · next fd _ =>
              refine (bioAofFsync_frame env.fsync fd w).trans ?_
              repeat' constructor
      · exact Frame.refl w

variable [AofFormat D A δ]

theorem writeShort_frame (env : FlushEnv) (n : Nat) (w : World D A δ) :
    Frame w (writeShort env n w) := by
  unfold writeShort
  dsimp only
  split
  · exact Frame.refl w
  · split
    · exact Frame.refl w
    · split
      · exact (onFs_frame w _).trans (onFs_frame _ _)
      · exact onFs_frame w _

theorem writeShort_sv (env : FlushEnv) (n : Nat) (w : World D A δ) :
    (writeShort env n w).sv = w.sv := by
  unfold writeShort
  dsimp only
  split
  · rfl
  · split
    · rfl
    · split <;> rfl

theorem writeFailed_frame (env : FlushEnv) (n : Nat) (w : World D A δ) :
    Frame w (writeFailed env n w) := by
  unfold writeFailed
  dsimp only
  split
  · exact (writeShort_frame env n w).trans (exit_frame _)
  · refine (writeShort_frame env n w).trans ?_
    repeat' constructor

theorem writeDone_frame (fd : Nat) (w : World D A δ) : Frame w (writeDone fd w) := by
  repeat' constructor

theorem flushAppendOnlyFile_frame (force : Bool) (env : FlushEnv) (w : World D A δ) :
    Frame w (flushAppendOnlyFile force env w) := by
  unfold flushAppendOnlyFile
  dsimp only
  split
  · split
    · split
      · exact Frame.refl w
      · repeat' constructor
    · split
      · exact tryFsync_frame env w
      · split
        · exact tryFsync_frame env w
        · exact Frame.refl w
  · split
    · repeat' constructor
    · split
      · split
        · exact (writeDone_frame _ w).trans (tryFsync_frame env _)
        · exact writeFailed_frame env _ w
      · exact writeFailed_frame env 0 w

end Flush

/-! ## Rewriting -/

theorem updateFsyncedReploff_control (w : World D A δ) : Control w (updateFsyncedReploff w) := by
  unfold updateFsyncedReploff
  split
  · repeat' constructor
  · exact Control.refl w

theorem writeAofManifestFile_onDisk (env : ManifestWrite) (lines : List (AofInfo String))
    (w : World D A δ) :
    ∃ dk tr, writeAofManifestFile env lines w = { w with disk := dk, trace := tr } := by
  unfold writeAofManifestFile
  dsimp only
  split
  · exact ⟨w.disk, w.trace, rfl⟩
  · split <;> exact ⟨_, _, rfl⟩

@[simp] theorem writeAofManifestFile_sv (env : ManifestWrite) (lines : List (AofInfo String))
    (w : World D A δ) : (writeAofManifestFile env lines w).sv = w.sv := by
  obtain ⟨dk, tr, heq⟩ := writeAofManifestFile_onDisk env lines w
  rw [heq]

theorem onDisk_control (w : World D A δ) (dk : Disk D) (tr : List (Disk D)) :
    Control w { w with disk := dk, trace := tr } := by
  repeat' constructor

theorem persistAofManifest_control (env : ManifestWrite) (am : AofManifest String)
    (w : World D A δ) : Control w (persistAofManifest env am w).2.2 := by
  unfold persistAofManifest
  split
  · obtain ⟨dk, tr, heq⟩ := writeAofManifestFile_onDisk env am.lines w
    rw [heq]
    exact onDisk_control w dk tr
  · exact Control.refl w

theorem switchIncr_control (fsyncOk : Bool) (newfd : Nat) (am : AofManifest String)
    (w : World D A δ) : Control w (switchIncr fsyncOk newfd am w) := by
  unfold switchIncr closeOldAof
  split
  · repeat' constructor
  · next fd _ =>
      refine (bioAofFsync_frame fsyncOk fd w).toControl.trans ?_
      repeat' constructor

/-- `openNewIncrAofForAppend` with the AOF on. -/
theorem openNewIncrAofForAppend_on (env : OpenIncrEnv) (hon : w.sv.aofState = .on) :
    openNewIncrAofForAppend env w =
      let name := w.sv.conf.incrName (w.sv.aofManifest.currIncrFileSeq + 1)
      let am := w.sv.aofManifest.pushIncr name
      let newfd := (w.disk.fs.openFile (.aof name) true false).1
      let opened := w.onFs fun fs => (fs.openFile (.aof name) true false).2
      let written := writeAofManifestFile env.persist am.lines opened
      if env.openNew = false then (.err, w)
      else if env.persist.status = .err then (.err, written.onFs (·.close newfd))
      else (.ok, switchIncr env.closeFsync newfd { am with dirty := false } written) := by
  unfold openNewIncrAofForAppend
  rw [hon]
  dsimp only [getNewIncrAofName]
  cases env.openNew with
  | false => rfl
  | true =>
      have hdirty : (w.sv.aofManifest.pushIncr
        (w.sv.conf.incrName (w.sv.aofManifest.currIncrFileSeq + 1))).dirty = true := rfl
      simp only [persistAofManifest, hdirty]
      cases env.persist.status <;> rfl

theorem openNewIncrAofForAppend_control (env : OpenIncrEnv) (w : World D A δ) :
    Control w (openNewIncrAofForAppend env w).2 := by
  unfold openNewIncrAofForAppend
  split
  · exact Control.refl w
  · split
    · exact (onFs_frame w _).toControl.trans (switchIncr_control _ _ _ _)
    · exact Control.refl w
  · dsimp only
    split
    · have hopen := (onFs_frame w fun fs =>
        (fs.openFile (.aof (getNewIncrAofName w.sv.conf w.sv.aofManifest).1) true false).2).toControl
      have hpersist := hopen.trans (persistAofManifest_control env.persist
        (getNewIncrAofName w.sv.conf w.sv.aofManifest).2 _)
      split
      · next am w' h =>
          rw [h] at hpersist
          refine hpersist.trans ?_
          repeat' constructor
      · next h =>
          rw [h] at hpersist
          exact hpersist.trans (switchIncr_control _ _ _ _)
    · exact Control.refl w

theorem aofRewriteLimited_frame (w : World D A δ) : Frame w (aofRewriteLimited w).2 := by
  unfold aofRewriteLimited
  dsimp only
  split
  · repeat' constructor
  · split
    · split
      · exact Frame.refl w
      · repeat' constructor
    · repeat' constructor

theorem prepareRewrite_control (w : World D A δ) : Control w (prepareRewrite w) := by
  repeat' constructor

theorem forkRewrite_control (w : World D A δ) : Control w (forkRewrite redisFork w).2 := by
  unfold forkRewrite redisFork
  dsimp only
  split <;> repeat' constructor

section Rewrite

variable [AofFormat D A δ]

theorem rewriteAppendOnlyFileBackground_control (env : RewriteEnv) (w : World D A δ) :
    Control w (rewriteAppendOnlyFileBackground env w).2 := by
  unfold rewriteAppendOnlyFileBackground rewriteBackground
  split
  · exact Control.refl w
  · split
    · repeat' constructor
    · dsimp only
      have hflush := (prepareRewrite_control w).trans
        (flushAppendOnlyFile_frame true env.flush _).toControl
      split
      · exact hflush
      · have hincr := hflush.trans (openNewIncrAofForAppend_control env.incr _)
        split
        · next h =>
            rw [h] at hincr
            refine hincr.trans ?_
            repeat' constructor
        · next h =>
            rw [h] at hincr
            exact hincr.trans (forkRewrite_control _)

end Rewrite

/-! ## Turning the AOF off and on -/

theorem unlinkAll_frame (ais : List (AofInfo String)) (w : World D A δ) :
    Frame w (w.unlinkAll ais) := by
  induction ais generalizing w with
  | nil => exact Frame.refl w
  | cons ai ais ih => exact (onFs_frame w (·.unlink (.aof ai.fileName))).trans (ih _)

theorem aofDelHistoryFiles_control (env : ManifestWrite) (w : World D A δ) :
    Control w (aofDelHistoryFiles env w) := by
  unfold aofDelHistoryFiles
  split
  · exact Control.refl w
  · dsimp only
    generalize ham : { (w.unlinkAll w.sv.aofManifest.historyAofList).sv.aofManifest with
      historyAofList := [], dirty := true } = am
    refine (unlinkAll_frame w.sv.aofManifest.historyAofList w).toControl.trans ?_
    refine (persistAofManifest_control env am _).trans ?_
    repeat' constructor

theorem installRewrite_steady (env : StartEnv) (base : String) (am : AofManifest String)
    (w : World D A δ) : Steady w (installRewrite env base am w) := by
  have hinstall : Steady w (freeNames env.freed (installManifest base am w)) := by
    repeat' constructor
  refine (hinstall.trans (aofDelHistoryFiles_control env.persistHistory _).toSteady).trans ?_
  repeat' constructor

/-- How an enable ends: with the AOF on if it succeeds, and off if not. It does not count as a
failed rewrite. -/
structure Switched (w : World D A δ) (r : Status × World D A δ) : Prop where
  steady : Steady w r.2
  aofState : r.2.sv.aofState = if r.1 = .ok then .on else .off
  failures : w.sv.statAofrwConsecutiveFailures = 0 → r.2.sv.statAofrwConsecutiveFailures = 0

theorem adoptRewrite_switched (env : StartEnv) (w : World D A δ) :
    Switched w (adoptRewrite env w) := by
  unfold adoptRewrite
  dsimp only [getNewBaseFileNameAndMarkPreAsHistory, getNewIncrAofName]
  split
  · exact ⟨by repeat' constructor, rfl, fun h => h⟩
  · split
    · exact ⟨by repeat' constructor, rfl, fun h => h⟩
    · generalize hv : (w.onFs _).onFs _ = v
      generalize markRewrittenIncrAofAsHistory _ _ = am
      have hwv : Control w v := by
        subst hv
        repeat' constructor
      have hpersist := hwv.trans (persistAofManifest_control env.persist am v)
      split
      · next h =>
          rw [h] at hpersist
          refine ⟨hpersist.toSteady.trans (by repeat' constructor), rfl, fun h => ?_⟩
          exact hpersist.failures.trans h
      · next h =>
          rw [h] at hpersist
          exact ⟨hpersist.toSteady.trans (installRewrite_steady _ _ _ _), rfl, fun _ => rfl⟩

theorem closeAof_frame (fsyncOk : Bool) (w : World D A δ) : Frame w (closeAof fsyncOk w) := by
  unfold closeAof
  split
  · exact Frame.refl w
  · split <;> repeat' constructor

variable [AofFormat D A δ]

theorem rewriteAppendOnlyFile_frame (env : BaseEnv) (p : Path) (w : World D A δ) :
    Frame w (rewriteAppendOnlyFile env p w).2 := by
  unfold rewriteAppendOnlyFile
  dsimp only
  split
  · exact Frame.refl w
  · split
    · repeat' constructor
    · split
      · repeat' constructor
      · split <;> repeat' constructor

theorem startSync_switched (env : StartEnv) (w : World D A δ) :
    Switched w (startSync env w) := by
  unfold startSync
  split
  · exact ⟨by repeat' constructor, rfl, fun h => h⟩
  · have hincr := (prepareRewrite_control w).trans
      (openNewIncrAofForAppend_control env.incr (prepareRewrite w))
    split
    · next h =>
        rw [h] at hincr
        refine ⟨hincr.toSteady.trans (by repeat' constructor), rfl, fun h => ?_⟩
        exact hincr.failures.trans h
    · next v h =>
        rw [h] at hincr
        have hbase := hincr.trans
          (rewriteAppendOnlyFile_frame env.rewrite (.cwd syncTempName) v).toControl
        split
        · next h' =>
            rw [h'] at hbase
            refine ⟨hbase.toSteady.trans (by repeat' constructor), rfl, fun h => ?_⟩
            exact hbase.failures.trans h
        · next v' h' =>
            rw [h'] at hbase
            have hadopt := adoptRewrite_switched env v'
            refine ⟨hbase.toSteady.trans hadopt.steady, hadopt.aofState, fun h => ?_⟩
            exact hadopt.failures (hbase.failures.trans h)

/-- Without a child and outside `EXEC`, `startAppendOnly` takes the WASI branch. -/
theorem startAppendOnly_eq (env : StartEnv) (hchild : w.sv.childType = none)
    (hexec : w.sv.inExec = false) :
    startAppendOnly env w =
      match startSync env (w.set fun sv => { sv with aofState := .waitRewrite }) with
      | (.err, w) => (.err, w)
      | (.ok, w) => (.ok, startDone w) := by
  have hlater : ¬ ((hasActiveChildProcess w.sv && w.sv.childType ≠ some .aof) ||
      w.sv.inExec) = true := by
    simp [hasActiveChildProcess, hchild, hexec]
  unfold startAppendOnly
  dsimp only
  exact if_neg hlater

/-- An enable that fails ends with its WASI branch. -/
theorem startAppendOnly_err (env : StartEnv) (hchild : w.sv.childType = none)
    (hexec : w.sv.inExec = false) (herr : (startAppendOnly env w).1 = .err) :
    (startAppendOnly env w).2 =
      (startSync env (w.set fun sv => { sv with aofState := .waitRewrite })).2 := by
  rw [startAppendOnly_eq env hchild hexec] at herr ⊢
  generalize startSync env (w.set fun sv => { sv with aofState := .waitRewrite }) = r at *
  obtain ⟨st, v⟩ := r
  cases st with
  | err => rfl
  | ok => cases herr

/-! ## The event loop -/

theorem flushBeforeSleep_frame (env : FlushEnv) (w : World D A δ) :
    Frame w (flushBeforeSleep env w) := by
  unfold flushBeforeSleep
  split
  · exact Frame.refl w
  · exact flushAppendOnlyFile_frame false env w

theorem rewriteUnlessLimited_control (env : RewriteEnv) (w : World D A δ) :
    Control w (rewriteUnlessLimited env w) := by
  unfold rewriteUnlessLimited
  have hlim := (aofRewriteLimited_frame w).toControl
  split
  · next h =>
      rw [h] at hlim
      exact hlim
  · next w' h =>
      rw [h] at hlim
      exact hlim.trans (rewriteAppendOnlyFileBackground_control env w')

theorem cronScheduled_control (env : RewriteEnv) (w : World D A δ) :
    Control w (cronScheduled env w) := by
  unfold cronScheduled
  split
  · exact rewriteUnlessLimited_control env w
  · exact Control.refl w

theorem cronGrowth_control (env : RewriteEnv) (w : World D A δ) :
    Control w (cronGrowth env w) := by
  unfold cronGrowth
  split
  · exact rewriteUnlessLimited_control env w
  · exact Control.refl w

theorem cronPostponed_frame (env : FlushEnv) (w : World D A δ) :
    Frame w (cronPostponed env w) := by
  unfold cronPostponed
  split
  · exact flushAppendOnlyFile_frame false env w
  · exact Frame.refl w

theorem cronRetry_frame (second : Bool) (env : FlushEnv) (w : World D A δ) :
    Frame w (cronRetry second env w) := by
  unfold cronRetry
  split
  · exact flushAppendOnlyFile_frame false env w
  · exact Frame.refl w

/-- A tick keeps the switches; only the history counts it. -/
theorem serverCron_control (env : CronEnv) (w : World D A δ) :
    ∃ w', Control w w' ∧ (serverCron env w = w' ∨ serverCron env w = countTick w') := by
  have h₁ := cronScheduled_control env.scheduled w
  have h₂ := h₁.andThen (cronGrowth_control env.growth _)
  have h₃ := h₂.andThen (cronPostponed_frame env.postponed _).toControl
  have h₄ := h₃.andThen (cronRetry_frame env.second env.retry _).toControl
  exact ⟨_, h₄, World.andThen_cases _ countTick⟩

/-! ## `EXEC` -/

theorem stopAppendOnly_inExec (env : StopEnv) (w : World D A δ) :
    (stopAppendOnly env w).sv.inExec = w.sv.inExec := by
  have hflush := flushAppendOnlyFile_frame true env.flush w
  have hclose := hflush.trans (closeAof_frame env.fsync _)
  unfold stopAppendOnly
  dsimp only
  split
  · exact hflush.inExec
  · exact hclose.inExec

theorem startAppendOnly_inExec (env : StartEnv) (hchild : w.sv.childType = none)
    (hexec : w.sv.inExec = false) : (startAppendOnly env w).2.sv.inExec = false := by
  have hsw := startSync_switched env (w.set fun sv => { sv with aofState := .waitRewrite })
  have hkept := hsw.steady.inExec.trans hexec
  rw [startAppendOnly_eq env hchild hexec]
  split
  · next heq =>
      rw [heq] at hkept
      exact hkept
  · next heq =>
      rw [heq] at hkept
      exact hkept

theorem configSetAppendonly_inExec (yes : Bool) (start : StartEnv) (stop : StopEnv)
    (hchild : w.sv.childType = none) (hexec : w.sv.inExec = false) :
    (configSetAppendonly yes start stop w).sv.inExec = false := by
  have hstart := startAppendOnly_inExec (w := w.set fun sv => { sv with aofEnabled := yes }) start hchild hexec
  unfold configSetAppendonly
  dsimp only
  split
  · exact hexec
  · split
    · exact (stopAppendOnly_inExec stop _).trans hexec
    · split
      · split
        · next hok =>
            rw [hok] at hstart
            exact hstart
        · next herr =>
            rw [herr] at hstart
            exact hstart
      · exact hexec

/-! ## Rules for propagation and transactions -/

section Rules

variable {I : World D A δ → Prop}

omit [AofFormat D A δ] in
theorem andThen_inv {f : World D A δ → World D A δ} (h : I w) (hf : I w → I (f w)) :
    I (w.andThen f) := by
  unfold World.andThen
  split
  · exact h
  · exact hf h

/-- What the commands of `also_propagate` and their `MULTI` and `EXEC` keep,
`propagatePendingCommands` keeps. -/
theorem propagatePendingCommands_inv_of (hop : ∀ op w, I w → I (propagateOp w op))
    (hmulti : ∀ w, I w → I (propagateNow none 15 (fun _ => .multi) w))
    (hexec : ∀ w, I w → I (propagateNow none 14 (fun _ => .exec) w))
    (hdone : ∀ w, I w → I (w.set fun sv => { sv with alsoPropagate := [] }))
    (arbitrary : Bool) (h : I w) : I (propagatePendingCommands arbitrary w) := by
  have hops : ∀ (ops : List (RedisOp A)) (w : World D A δ), I w → I (ops.foldl propagateOp w) := by
    intro ops
    induction ops with
    | nil => exact fun w h => h
    | cons op ops ih => exact fun w h => ih _ (hop op w h)
  unfold propagatePendingCommands
  dsimp only
  apply hdone
  split
  · exact hexec _ (hops _ _ (hmulti w h))
  · exact hops _ w h

/-- What every propagated command keeps, `propagatePendingCommands` keeps. -/
theorem propagatePendingCommands_inv
    (hnow : ∀ dictid len cmd w, I w → I (propagateNow dictid len cmd w))
    (hdone : ∀ w, I w → I (w.set fun sv => { sv with alsoPropagate := [] }))
    (arbitrary : Bool) (h : I w) : I (propagatePendingCommands arbitrary w) :=
  propagatePendingCommands_inv_of (fun _ => hnow _ _ _) (hnow _ _ _) (hnow _ _ _) hdone arbitrary h

end Rules

end WasiPorts.Redis.Aof
