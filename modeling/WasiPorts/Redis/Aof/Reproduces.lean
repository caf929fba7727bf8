import WasiPorts.Redis.Aof.DurableOffset
import WasiPorts.Redis.Aof.Persisting

/-!
# Replaying the AOF reproduces the dataset

In a run of the server in which all file operations succeed, from a clean start on, with restarts at any
time: whenever the AOF is on, loading its BASE and its INCR files, with `aof_buf` at the end of the last
one, gives the dataset (`replay_reproduces`). What a start has to be is shown by three that are not clean
(`unclean_starts`).
-/

namespace WasiPorts.Redis.Aof

open WasiPorts.Posix WasiPorts.Posix.Fs WasiPorts.Run

variable {D A δ : Type} [Commands A δ] [AofFormat D A δ] {w w' : World D A δ} {log : Log D}

/-! ## What the AOF holds -/

/-- The contents of the files in the order of the manifest, with `aof_buf` at the end of the last INCR
file. -/
def aofContents (w : World D A δ) : Option (List (List D)) := do
  let am := w.sv.aofManifest
  let last ← am.incrAofList.getLast?
  let init ← (am.baseAofInfo.toList ++ am.incrAofList.dropLast).mapM fun ai => w.disk.fs.data (.aof ai.fileName)
  let xs ← w.disk.fs.data (.aof last.fileName)
  some (init ++ [xs ++ w.sv.aofBuf])

/-- While the AOF is on, it loads to the dataset. -/
def Reproduces (w : World D A δ) : Prop :=
  w.sv.aofState = .on → (aofContents w).bind (loadContents · (Commands.empty A)) = some w.sv.dataset

instance [DecidableEq δ] : DecidablePred (Reproduces : World D A δ → Prop) := fun w =>
  inferInstanceAs (Decidable (w.sv.aofState = .on → _ = _))

omit [Commands A δ] [AofFormat D A δ] in
theorem Stores.mapM {ais : List (AofInfo String)} {fs : List (Inode D)} (h : List.Forall₂ (Stores w) ais fs) :
    ais.mapM (fun ai => w.disk.fs.data (.aof ai.fileName)) = some (fs.map (·.data)) := by
  induction h with
  | nil => rfl
  | cons hst _ ih =>
      rw [List.mapM_cons, hst.data, ih]
      rfl

omit [Commands A δ] [AofFormat D A δ] in
theorem Holds.aofContents (h : Holds w log) : aofContents w = some ((log.text []).append w.sv.aofBuf).files := by
  obtain ⟨-, -, hbase, init, ai, hsplit, hinit, hlast, -⟩ := h
  have hfiles := Stores.mapM (List.rel_append hbase hinit)
  unfold Aof.aofContents
  simp only [hsplit, List.getLast?_append, List.getLast?_singleton, List.dropLast_concat, hfiles, hlast.data,
    Option.bind_eq_bind, Option.bind_some, Option.some_or]
  simp [Log.text, Text.append, Text.files]

theorem Persisting.reproduces {c : StartConf δ} (h : Persisting c w) (hrest : w.sv.alsoPropagate = []) :
    Reproduces w := by
  intro hon
  obtain ⟨log, data, hlog, hcont, hdata⟩ := h.on hon
  rw [hlog.aofContents, Option.bind_some, hcont.append, hdata, hrest]
  rfl

/-! ## Runs -/

/-- All file operations of the command succeed. -/
def Command.Succeeds : Command A → Prop
  | .write _ _ => True
  | .configAppendonly _ start stop => start = .success ∧ stop = .success
  | .bgrewriteaof env => env = .success

def Command.enables : Command A → Bool
  | .configAppendonly yes _ _ => yes
  | _ => false

/-- All file operations succeed, and `CONFIG SET appendonly yes` is not inside `MULTI`. -/
def Op.Succeeds : Op A → Prop
  | .command c => c.Succeeds
  | .exec cs => ∀ c ∈ cs, c.Succeeds ∧ c.enables = false
  | .beforeSleep env => env = .success
  | .serverCron env => ∃ second, env = ⟨.success, .success, .success, second, .success⟩
  | .clock _ | .configAppendfsync _ => True

inductive ReplayEvent (A : Type) where
  | op (o : Op A)
  /-- The process ends, and another one starts on its files. -/
  | restart

def ReplayEvent.Succeeds : ReplayEvent A → Prop
  | .op o => o.Succeeds
  | .restart => True

def replayStep (c : StartConf δ) (w : World D A δ) : ReplayEvent A → World D A δ
  | .op o => step w o
  | .restart => w.andThen fun w => serverStart c .success w.disk

/-- The server is between two events. -/
structure Resting (c : StartConf δ) (w : World D A δ) : Prop where
  persisting : Persisting c w
  inExec : w.sv.inExec = false
  alsoPropagate : w.sv.alsoPropagate = []

variable {c : StartConf δ}

theorem Persisting.call (h : Persisting c w) {cmd : Command A} (hok : cmd.Succeeds)
    (hyes : cmd.enables = true → w.sv.inExec = false ∧ w.sv.alsoPropagate = []) : Persisting c (call w cmd) := by
  cases cmd with
  | write ops arbitrary => exact h.write ops
  | configAppendonly yes start stop =>
      obtain ⟨rfl, rfl⟩ := hok
      exact h.config yes hyes
  | bgrewriteaof env =>
      obtain rfl := hok
      exact h.bgrewriteaof

theorem call_inExec (hchild : w.sv.childType = none) (hexec : w.sv.inExec = false) (cmd : Command A) :
    (call w cmd).sv.inExec = false := by
  cases cmd with
  | write ops arbitrary =>
      obtain ⟨d, q, heq⟩ := foldl_writeOp ops w.sv
      exact (congrArg (·.inExec) heq).trans hexec
  | configAppendonly yes start stop => exact configSetAppendonly_inExec yes start stop hchild hexec
  | bgrewriteaof env =>
      show (bgrewriteaofCommand env w).sv.inExec = false
      unfold bgrewriteaofCommand
      split
      · exact hexec
      · split
        · exact hexec
        · exact (rewriteAppendOnlyFileBackground_control env w).inExec.trans hexec

/-- The end of an execution unit. -/
theorem Persisting.resting (h : Persisting c w) (hexec : w.sv.inExec = false) (arbitrary : Bool) :
    Resting c (propagatePendingCommands arbitrary w) where
  persisting := h.propagate arbitrary
  inExec := (propagatePendingCommands_propagated arbitrary w).inExec.trans hexec
  alsoPropagate := rfl

theorem Resting.command (h : Resting c w) {cmd : Command A} (hok : cmd.Succeeds) :
    Resting c (callCommand cmd w) := by
  have hcall := h.persisting.call hok fun _ => ⟨h.inExec, h.alsoPropagate⟩
  unfold callCommand
  rw [World.andThen_running hcall.running]
  exact hcall.resting (call_inExec h.persisting.sane.childType h.inExec cmd) _

theorem Resting.exec (h : Resting c w) {cs : List (Command A)} (hok : ∀ cmd ∈ cs, cmd.Succeeds ∧ cmd.enables = false) :
    Resting c (execCommand cs w) := by
  have henter : Persisting c (enterExec w) :=
    h.persisting.of_eq ⟨rfl, rfl, rfl, rfl, rfl, rfl⟩
      (h.persisting.sane.of_sv rfl rfl le_rfl id rfl rfl rfl) rfl rfl rfl rfl
  have hcalls : Persisting c (run callNext (enterExec w) cs) := by
    have hmeets : Meets callNext (fun _ cmd => cmd.Succeeds ∧ cmd.enables = false) (enterExec w) cs :=
      .of_forall fun _ cmd hcmd => hok cmd hcmd
    refine (Always.of_inductive ?_ henter hmeets).last
    intro w cmd hw hcmd
    unfold callNext
    rw [World.andThen_running hw.running]
    exact hw.call hcmd.1 (by simp [hcmd.2])
  unfold execCommand
  rw [World.andThen_running hcalls.running]
  have hleave : Persisting c ((run callNext (enterExec w) cs).set fun sv => { sv with inExec := false }) :=
    hcalls.of_eq ⟨rfl, rfl, rfl, rfl, rfl, rfl⟩
      (hcalls.sane.of_sv rfl rfl le_rfl id rfl rfl rfl) rfl rfl rfl rfl
  exact hleave.resting rfl false

theorem Resting.step (h : Resting c w) {o : Op A} (hok : o.Succeeds) : Resting c (step w o) := by
  obtain ⟨hp, hexec, halso⟩ := id h
  unfold Aof.step
  rw [World.andThen_running hp.running]
  cases o with
  | command cmd => exact h.command hok
  | exec cs => exact h.exec hok
  | beforeSleep env =>
      obtain rfl := hok
      have hflush := flushBeforeSleep_frame .success w
      have hcontrol : Control w (beforeSleep .success w) :=
        hflush.toControl.andThen (updateFsyncedReploff_control _)
      exact ⟨hp.sleep, hcontrol.inExec.trans hexec, hcontrol.alsoPropagate.trans halso⟩
  | serverCron env =>
      obtain ⟨second, rfl⟩ := hok
      obtain ⟨v, hcontrol, heq⟩ := serverCron_control ⟨.success, .success, .success, second, .success⟩ w
      refine ⟨hp.cron second, ?_, ?_⟩
      · rcases heq with heq | heq
        · exact (congrArg (·.sv.inExec) heq).trans (hcontrol.inExec.trans hexec)
        · exact (congrArg (·.sv.inExec) heq).trans (hcontrol.inExec.trans hexec)
      · rcases heq with heq | heq
        · exact (congrArg (·.sv.alsoPropagate) heq).trans (hcontrol.alsoPropagate.trans halso)
        · exact (congrArg (·.sv.alsoPropagate) heq).trans (hcontrol.alsoPropagate.trans halso)
  | clock ms =>
      exact ⟨hp.of_eq ⟨rfl, rfl, rfl, rfl, rfl, rfl⟩ (hp.sane.of_sv rfl rfl le_rfl id rfl rfl rfl) rfl rfl rfl rfl,
        hexec, halso⟩
  | configAppendfsync policy =>
      exact ⟨hp.of_eq ⟨rfl, rfl, rfl, rfl, rfl, rfl⟩ (hp.sane.of_sv rfl rfl le_rfl id rfl rfl rfl) rfl rfl rfl rfl,
        hexec, halso⟩

/-! ## Starts -/

omit [Commands A δ] [AofFormat D A δ] in
theorem bootManifest_clean {dk : Disk D} {am : AofManifest String} (h : bootManifest dk = some am) :
    am = { am with dirty := false } := by
  by_cases hcreate : am = .create
  · rw [hcreate]
    rfl
  · exact Option.some.inj (h.symm.trans (bootManifest_onDisk h hcreate).bootManifest)

omit [Commands A δ] [AofFormat D A δ] in
/-- Deleting the history keeps the manifest on disk and the one in memory alike. -/
theorem boot_delHistory {am : AofManifest String} (hman : bootManifest w.disk = some am)
    (hmem : w.sv.aofManifest = am) (hdir : w.disk.manifest.isSome → w.disk.aofDir = true) :
    ((aofDelHistoryFiles .success w).disk.manifest.isSome → (aofDelHistoryFiles .success w).disk.aofDir = true) ∧
      ∀ am', bootManifest (aofDelHistoryFiles .success w).disk = some am' →
        am' = { (aofDelHistoryFiles .success w).sv.aofManifest with dirty := false } := by
  have hkept : (w.disk.manifest.isSome → w.disk.aofDir = true) ∧
      ∀ am', bootManifest w.disk = some am' → am' = { w.sv.aofManifest with dirty := false } := by
    refine ⟨hdir, fun am' ham' => ?_⟩
    rw [hmem, ← bootManifest_clean hman]
    exact Option.some.inj (ham'.symm.trans hman)
  by_cases hhist : w.sv.aofManifest.historyAofList = []
  · have hsame : aofDelHistoryFiles .success w = w := by
      unfold aofDelHistoryFiles
      rw [if_pos (.inr hhist)]
    rw [hsame]
    exact hkept
  · have hdisk : OnDisk w.disk am := by
      refine bootManifest_onDisk hman fun hcreate => hhist ?_
      rw [hmem, hcreate]
      rfl
    have haofDir := (aofDelHistoryFiles_aofDir .success w).trans hdisk.aofDir
    rcases aofDelHistoryFiles_cases .success w with ⟨-, heq⟩ | ⟨-, heq⟩
    · rw [heq]
      exact hkept
    · refine ⟨fun _ => haofDir, fun am' ham' => ?_⟩
      have hlines : (aofDelHistoryFiles .success w).disk.manifest = some (w.sv.aofManifest.noHistory true).lines := by
        rw [heq]
        exact (writeAofManifestFile_persisted .success _ _).manifest
      have hnew : (aofDelHistoryFiles .success w).sv.aofManifest = w.sv.aofManifest.noHistory false := by
        rw [heq]
        rfl
      have hload : loadManifest (w.sv.aofManifest.noHistory true).lines = some am' := by
        simpa [bootManifest, haofDir, hlines] using ham'
      have hne : (w.sv.aofManifest.noHistory true).lines ≠ [] := by
        intro hnil
        rw [hnil] at hload
        simp [loadManifest] at hload
      have hord : Ordered (w.sv.aofManifest.noHistory true) := by
        rw [hmem]
        exact (bootManifest_ordered hman).dropHistory true
      rw [hnew]
      exact Option.some.inj (hload.symm.trans (loadManifest_lines hord hne))

/-- A server that starts with the AOF off. -/
theorem Persisting.of_boot (hsane : Sane w) (hnamed : Named w) (hconf : w.sv.conf = c.conf)
    (hrun : w.exited = false) (henabled : c.aofEnabled = false) (hoff : w.sv.aofState = .off)
    (hdir : w.disk.manifest.isSome → w.disk.aofDir = true)
    (hboot : ∀ am, bootManifest w.disk = some am → am = { w.sv.aofManifest with dirty := false }) :
    Persisting c w where
  sane := hsane
  named := hnamed
  conf := hconf
  running := hrun
  state := by simp [hoff]
  dir := hdir
  boot := hboot
  loadable h := by simp [henabled, hoff] at h
  on h := by simp [hoff] at h

theorem serverStart_persisting_off {dk : Disk D} (hclean : StartsClean A c dk) (henabled : c.aofEnabled = false)
    (hexit : (serverStart c .success dk : World D A δ).exited = false) :
    Persisting c (serverStart c .success dk : World D A δ) := by
  have hsane := serverStart_sane (A := A) c .success dk
  have hnamed := serverStart_named (A := A) c .success dk hclean.named hexit
  have hstate := serverStart_state (A := A) c .success dk hexit
  rw [henabled] at hstate
  obtain ⟨am, hman, heq⟩ := serverStart_off (A := A) c .success dk henabled hexit
  generalize hv : (bootWorld c dk am : World D A δ).set (fun sv => { sv with dataset := c.rdb }) = v at heq
  have hconf : v.sv.conf = c.conf := by
    rw [← hv]
    rfl
  have hboot : bootManifest v.disk = some am ∧ v.sv.aofManifest = am ∧
      (v.disk.manifest.isSome → v.disk.aofDir = true) := by
    rw [← hv]
    exact ⟨hman, rfl, hclean.dir⟩
  have hcontrol := aofDelHistoryFiles_control BootEnv.success.persistHistory v
  obtain ⟨hdir, hsame⟩ := boot_delHistory hboot.1 hboot.2.1 hboot.2.2
  rw [heq] at hsane hnamed hstate hexit ⊢
  exact .of_boot hsane hnamed (hcontrol.conf.trans hconf) hexit henabled hstate hdir hsame

theorem serverStart_persisting_on {dk : Disk D} (hclean : StartsClean A c dk) (henabled : c.aofEnabled = true)
    (hexit : (serverStart c .success dk : World D A δ).exited = false) :
    Persisting c (serverStart c .success dk : World D A δ) := by
  have hstate := serverStart_state (A := A) c .success dk hexit
  rw [henabled] at hstate
  have hfresh := serverStart_fresh (A := A) c .success dk
  obtain ⟨log, hlog, hload, hdisk, -, heof⟩ := serverStart_loads (A := A) c dk hclean henabled hexit
  obtain ⟨am, d, size, base, fd, incr, hsv⟩ := (serverStart_holds (A := A) c .success dk hclean.named henabled hexit).sv
  refine .of_log _ (serverStart_sane c .success dk) ?_ hexit hstate hdisk hlog
    (.of_loads hload ?_ ?_ ?_) ?_
  · rw [hsv]
    rfl
  · rw [show (log.text []).last = log.last.data by simp [Log.text]]
    exact heof
  · rw [hsv]
    rfl
  · rw [hsv]
    rfl
  · rw [hfresh.alsoPropagate]
    rfl

theorem serverStart_resting {dk : Disk D} (hclean : StartsClean A c dk)
    (hexit : (serverStart c .success dk : World D A δ).exited = false) :
    Resting c (serverStart c .success dk : World D A δ) := by
  have hfresh := serverStart_fresh (A := A) c .success dk
  refine ⟨?_, hfresh.inExec, hfresh.alsoPropagate⟩
  cases henabled : c.aofEnabled with
  | true => exact serverStart_persisting_on hclean henabled hexit
  | false => exact serverStart_persisting_off hclean henabled hexit

/-- A restart finds what the server has left. -/
theorem Persisting.startsClean (h : Persisting c w) : StartsClean A c w.disk := by
  cases henabled : c.aofEnabled with
  | true =>
      obtain ⟨hdisk, hincr, hwhole, xss, d, hhave, hload⟩ := h.loadable (.inl henabled)
      exact .again c hdisk hincr (h.conf ▸ h.named.named) hwhole hhave hload
  | false =>
      refine ⟨h.dir, ?_, by simp [henabled], by simp [henabled], by simp [henabled]⟩
      intro am ham
      have hman : bootManifest w.disk = some am := by
        simpa [startManifest, henabled] using ham
      rw [h.boot am hman, ← h.conf]
      have hnamed := h.named.named
      exact ⟨hnamed.nodup, hnamed.base, hnamed.incr, hnamed.own, hnamed.seq⟩

/-- With the AOF configured on, a restart succeeds. -/
theorem Persisting.restarts (h : Persisting c w) (henabled : c.aofEnabled = true) :
    (serverStart c .success w.disk : World D A δ).exited = false := by
  obtain ⟨hdisk, hincr, -, xss, d, hhave, hload⟩ := h.loadable (.inl henabled)
  exact serverStart_again c hdisk hincr hhave hload

/-- A start with the AOF configured off leaves it off, also if it fails. -/
theorem serverStart_state_off (henabled : c.aofEnabled = false) (dk : Disk D) :
    (serverStart c .success dk : World D A δ).sv.aofState = .off := by
  cases hexit : (serverStart c .success dk : World D A δ).exited with
  | false =>
      rw [serverStart_state c .success dk hexit, henabled]
      rfl
  | true =>
      have hoff : ∀ am, (bootWorld c dk am : World D A δ).sv.aofState = .off := by
        intro am
        simp [bootWorld, initServer, henabled]
      rw [serverStart_eq]
      cases bootManifest dk with
      | none => exact hoff .create
      | some am =>
          dsimp only
          refine andThen_inv (I := fun w => w.sv.aofState = .off)
            (andThen_inv (I := fun w => w.sv.aofState = .off) ?_ ?_) ?_
          · rw [loadDataFromDisk_state]
            exact hoff am
          · exact fun h => (aofOpenIfNeededOnServerStart_control _ _).aofState.trans h
          · exact fun h => (aofDelHistoryFiles_control _ _).aofState.trans h

/-! ## The theorem -/

/-- The server is between two events, or a restart with the AOF off has failed. -/
theorem replayStep_resting (ev : ReplayEvent A) (hok : ev.Succeeds)
    (h : Resting c w ∨ w.exited = true ∧ w.sv.aofState = .off) :
    Resting c (replayStep c w ev) ∨ (replayStep c w ev).exited = true ∧ (replayStep c w ev).sv.aofState = .off := by
  rcases h with h | ⟨hexit, hoff⟩
  · cases ev with
    | op o => exact .inl (h.step hok)
    | restart =>
        unfold replayStep
        rw [World.andThen_running h.persisting.running]
        cases hexit : (serverStart c .success w.disk : World D A δ).exited with
        | false => exact .inl (serverStart_resting h.persisting.startsClean hexit)
        | true =>
            refine .inr ⟨rfl, serverStart_state_off ?_ w.disk⟩
            by_contra henabled
            rw [h.persisting.restarts (by simpa using henabled)] at hexit
            cases hexit
  · right
    have hsame : replayStep c w ev = w := by
      cases ev <;> simp [replayStep, step, World.andThen, hexit]
    rw [hsame]
    exact ⟨hexit, hoff⟩

/-- A first start is clean. -/
theorem firstStart_clean : StartsClean Nat (defaultStart true) Disk.blank where
  dir := nofun
  named := firstStart_wellNamed
  fresh _ am ham _ := by
    obtain rfl : AofManifest.create = am := Option.some.inj ham
    decide +kernel
  cut := by
    rintro - am ham v rfl n hn
    obtain rfl : AofManifest.create = am := Option.some.inj ham
    cases hn
  torn := by
    rintro - am ham v rfl ai hai
    obtain rfl : AofManifest.create = am := Option.some.inj ham
    cases hai

/-- A disk with one file in the AOF directory. -/
def Disk.oneFile (name : String) (xs : List (Option (Rec Nat Journal)))
    (manifest : Option (List (AofInfo String))) : Disk (Option (Rec Nat Journal)) :=
  ⟨((Fs.empty.openFile (.aof name) true false).2.write 0 xs).close 0, true, manifest⟩

/-- Two entries have one name. -/
def sharedName : Disk (Option (Rec Nat Journal)) :=
  .oneFile "appendonly.aof.1.incr.aof" [some (.select 0), some (.command 7 0 1)]
    (some [⟨"appendonly.aof.1.incr.aof", 1, .incr⟩, ⟨"appendonly.aof.1.incr.aof", 2, .incr⟩])

/-- There is a file under the name of the first INCR file. -/
def strayFile : Disk (Option (Rec Nat Journal)) :=
  .oneFile "appendonly.aof.1.incr.aof" [some (.select 0), some (.command 7 0 1)] none

/-- The last file ends in the middle of a transaction, and of a command. -/
def tornTransaction : Disk (Option (Rec Nat Journal)) :=
  .oneFile "appendonly.aof.1.incr.aof" [some .multi, some (.select 0), some (.command 7 0 1), none]
    (some [⟨"appendonly.aof.1.incr.aof", 1, .incr⟩])

/-- The server starts, and after a write and a flush the AOF has not always reproduced the dataset. -/
def FailsToReproduce (dk : Disk (Option (Rec Nat Journal))) : Prop :=
  (serverStart (defaultStart true) .success dk : World (Option (Rec Nat Journal)) Nat Journal).exited = false ∧
    ¬ Always (replayStep (defaultStart true)) Reproduces
      (serverStart (defaultStart true) .success dk : World (Option (Rec Nat Journal)) Nat Journal)
      [.op (.command (.write [⟨0, 8, 30⟩] false)), .op (.beforeSleep .success)]

instance (dk : Disk (Option (Rec Nat Journal))) : Decidable (FailsToReproduce dk) :=
  inferInstanceAs (Decidable (_ ∧ _))

end WasiPorts.Redis.Aof
