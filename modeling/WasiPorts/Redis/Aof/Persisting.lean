import WasiPorts.Redis.Aof.Restart

/-!
# The dataset persists

While the AOF is on, loading its files and then `aof_buf` gives the dataset, up to the commands that are
still to be propagated (`Continued`). While it is off, its files stay as they were left, so that the server
starts on them again (`Loadable`). `Persisting` has both, and every operation keeps it when its file
operations succeed.
-/

namespace WasiPorts.Redis.Aof

open WasiPorts.Posix WasiPorts.Posix.Fs

variable {D A δ : Type} [Commands A δ] [AofFormat D A δ] {w w' : World D A δ} {log : Log D} {t : Text D} {data : δ}

/-! ## The files and the buffer -/

/-- The files can be loaded, and with `aof_buf` after the last one they come to `data`. -/
def Continued (w : World D A δ) (t : Text D) (data : δ) : Prop :=
  ∃ d d₁, loadContents (t.base ++ t.incrs) (Commands.empty A) = some d ∧ loadContents [t.last] d = some d₁ ∧
    Streams w t.last d false data

theorem Text.files_split (t : Text D) (d : δ) :
    loadContents t.files d = (loadContents (t.base ++ t.incrs) d).bind (loadContents [t.last]) :=
  loadContents_append _ _ d

namespace Continued

theorem files (h : Continued w t data) : ∃ d, loadContents t.files (Commands.empty A) = some d := by
  obtain ⟨d, d₁, hload, hlast, -⟩ := h
  rw [Text.files_split, hload]
  exact ⟨d₁, hlast⟩

theorem append (h : Continued w t data) :
    loadContents (t.append w.sv.aofBuf).files (Commands.empty A) = some data := by
  obtain ⟨d, d₁, hload, hlast, hstreams⟩ := h
  rw [Text.files_split]
  show (loadContents (t.base ++ t.incrs) (Commands.empty A)).bind _ = _
  rw [hload]
  exact hstreams.loads

/-- The last file is in one piece. -/
theorem last_eof (h : Continued w t data) : (AofFormat.parse t.last).2 = .eof := by
  obtain ⟨d, d₁, -, -, heof, -⟩ := h
  exact heof

theorem of_loads (h : loadContents t.files (Commands.empty A) = some data)
    (heof : (AofFormat.parse t.last).2 = .eof) (hbuf : w.sv.aofBuf = []) (hsel : w.sv.aofSelectedDb = none) :
    Continued w t data := by
  rw [Text.files_split, Option.bind_eq_some_iff] at h
  obtain ⟨d, hload, hlast⟩ := h
  exact ⟨d, data, hload, hlast, .of_loads hlast heof hbuf hsel⟩

/-- The buffer has moved to the last file. -/
theorem flushed (h : Continued w t data) (hbuf : w'.sv.aofBuf = [])
    (hsel : w'.sv.aofSelectedDb = w.sv.aofSelectedDb) : Continued w' (t.append w.sv.aofBuf) data := by
  obtain ⟨d, d₁, hload, hlast, hstreams⟩ := h
  exact ⟨d, data, hload, hstreams.loads, hstreams.flushed hbuf hsel⟩

/-- A new file begins, with nothing in the buffer. -/
theorem switched (h : Continued w t data) (hbuf : w'.sv.aofBuf = []) (hsel : w'.sv.aofSelectedDb = none) :
    Continued w' (t.append w.sv.aofBuf).switch data := by
  refine of_loads ?_ (by rw [Text.switch, AofFormat.parse_nil]) hbuf hsel
  have hfiles : (t.append w.sv.aofBuf).switch.files = (t.append w.sv.aofBuf).files ++ [[]] := by
    simp [Text.switch, Text.files]
  rw [hfiles, loadContents_append, h.append]
  exact loadContents_all_empty (by simp) data

theorem of_eq (h : Continued w t data) (hbuf : w'.sv.aofBuf = w.sv.aofBuf)
    (hsel : w'.sv.aofSelectedDb = w.sv.aofSelectedDb) : Continued w' t data := by
  obtain ⟨d, d₁, hload, hlast, hstreams⟩ := h
  exact ⟨d, d₁, hload, hlast, hstreams.of_eq hbuf (.inr hsel)⟩

theorem propagate (h : Continued w t data) (hon : w.sv.aofState = .on) (arbitrary : Bool) :
    Continued (propagatePendingCommands arbitrary w) t (applyOps w.sv.alsoPropagate data) := by
  obtain ⟨d, d₁, hload, hlast, hstreams⟩ := h
  exact ⟨d, d₁, hload, hlast, hstreams.propagate hon arbitrary⟩

end Continued

/-! ## The invariant -/

/-- A start finds the manifest, and its files can be loaded. -/
structure Loadable (w : World D A δ) : Prop where
  onDisk : OnDisk w.disk w.sv.aofManifest
  incr : w.sv.aofManifest.incrAofList ≠ []
  whole : LastIncrWhole w.sv.aofManifest w.disk
  loads : ∃ xss d, HaveContents w.disk w.sv.aofManifest.loadNames xss ∧
    loadContents xss (Commands.empty A) = some d

theorem Holds.loadable (h : Holds w log) (hcont : Continued w (log.text []) data)
    (hdisk : OnDisk w.disk w.sv.aofManifest) : Loadable w := by
  obtain ⟨d, hload⟩ := hcont.files
  have heof := hcont.last_eof
  have hlast : (log.text []).last = log.last.data := by simp [Log.text]
  rw [hlast] at heof
  obtain ⟨init, ai, hsplit, -, hst, -⟩ := h.incr
  refine ⟨hdisk, by simp [hsplit], ?_, _, d, h.haveContents, hload⟩
  intro ai' hai' xs hxs
  obtain rfl : ai = ai' := by simpa [hsplit] using hai'
  rw [hst.data] at hxs
  rw [← Option.mem_some_iff.mp hxs, heof]
  intro h
  cases h

structure Persisting (c : StartConf δ) (w : World D A δ) : Prop where
  sane : Sane w
  named : Named w
  conf : w.sv.conf = c.conf
  running : w.exited = false
  state : w.sv.aofState ≠ .waitRewrite
  dir : w.disk.manifest.isSome → w.disk.aofDir = true
  /-- A start that finds a manifest finds the one in memory. -/
  boot : ∀ am, bootManifest w.disk = some am → am = { w.sv.aofManifest with dirty := false }
  loadable : c.aofEnabled = true ∨ w.sv.aofState = .on → Loadable w
  on : w.sv.aofState = .on → ∃ log data, Holds w log ∧ Continued w (log.text []) data ∧
    w.sv.dataset = applyOps w.sv.alsoPropagate data

variable {c : StartConf δ}

namespace Persisting

theorem of_log (data : δ) (hsane : Sane w) (hconf : w.sv.conf = c.conf) (hrun : w.exited = false)
    (hon : w.sv.aofState = .on) (hdisk : OnDisk w.disk w.sv.aofManifest) (hlog : Holds w log)
    (hcont : Continued w (log.text []) data) (hdata : w.sv.dataset = applyOps w.sv.alsoPropagate data) :
    Persisting c w where
  sane := hsane
  named := ⟨hlog.named, hlog.ordered⟩
  conf := hconf
  running := hrun
  state := by simp [hon]
  dir _ := hdisk.aofDir
  boot am ham := Option.some.inj (ham.symm.trans hdisk.bootManifest)
  loadable _ := hlog.loadable hcont hdisk
  on _ := ⟨log, data, hlog, hcont, hdata⟩

omit [Commands A δ] [AofFormat D A δ] in
theorem bootManifest_dirCreate {dk dk' : Disk D} (hdir : dk.manifest.isSome → dk.aofDir = true)
    (hman : dk'.manifest = dk.manifest) (hdir' : dk'.aofDir = dk.aofDir ∨ dk'.aofDir = true) :
    bootManifest dk' = bootManifest dk := by
  unfold bootManifest
  rw [hman]
  rcases hdir' with hsame | htrue
  · rw [hsame]
  · rw [htrue]
    cases hcase : dk.manifest with
    | none => simp
    | some lines =>
        rw [hdir (by simp [hcase])]

/-- The AOF is off afterwards, and its files and manifest are as before. -/
theorem of_off (h : Persisting c w) (hsane : Sane w') (hoff : w'.sv.aofState = .off)
    (hconf : w'.sv.conf = w.sv.conf) (hrun : w'.exited = false)
    (hman : w'.sv.aofManifest = w.sv.aofManifest) (hlines : w'.disk.manifest = w.disk.manifest)
    (hdir : w'.disk.aofDir = w.disk.aofDir ∨ w'.disk.aofDir = true)
    (hdata : ∀ p, w'.disk.fs.data p = w.disk.fs.data p) : Persisting c w' where
  sane := hsane
  named := h.named.of_eq hconf hman
  conf := hconf.trans h.conf
  running := hrun
  state := by simp [hoff]
  dir hsome := by
    have hwas := h.dir (hlines ▸ hsome)
    rcases hdir with hsame | htrue
    · exact hsame.trans hwas
    · exact htrue
  boot am ham := by
    rw [bootManifest_dirCreate h.dir hlines hdir] at ham
    rw [hman]
    exact h.boot am ham
  loadable henabled := by
    obtain ⟨hdisk, hincr, hwhole, xss, d, hhave, hload⟩ := h.loadable (henabled.imp_right (by simp [hoff]))
    have hdir' : w'.disk.aofDir = true := by
      rcases hdir with hsame | htrue
      · exact hsame.trans hdisk.aofDir
      · exact htrue
    refine ⟨?_, ?_, ?_, xss, d, ?_, hload⟩
    · rw [hman]
      exact hdisk.of_eq hdir' hlines
    · rw [hman]
      exact hincr
    · rw [hman]
      exact hwhole.congr fun n _ => hdata (.aof n)
    · rw [hman]
      exact hhave.congr fun n _ => hdata (.aof n)
  on hon := by simp [hoff] at hon

/-- The files, the manifest and the descriptor stay. -/
theorem of_same (h : Persisting c w) (hsame : SameFiles w w') (hsane : Sane w')
    (hon : w.sv.aofState = .on → ∀ t data, Continued w t data →
      w.sv.dataset = applyOps w.sv.alsoPropagate data →
      ∃ data', Continued w' t data' ∧ w'.sv.dataset = applyOps w'.sv.alsoPropagate data') :
    Persisting c w' := by
  have hrun := hsame.exited.trans h.running
  by_cases hstate : w.sv.aofState = .on
  · obtain ⟨log, data, hlog, hcont, hdata⟩ := h.on hstate
    obtain ⟨data', hcont', hdata'⟩ := hon hstate _ _ hcont hdata
    have hlog' : Holds w' log := hlog.of_sv (by rw [hsame.disk]) hsame.conf hsame.aofManifest hsame.aofFd
    refine of_log data' hsane (hsame.conf.trans h.conf) hrun (hsame.aofState.trans hstate) ?_ hlog' hcont' hdata'
    rw [hsame.disk, hsame.aofManifest]
    exact (h.loadable (.inr hstate)).onDisk
  · have hoff : w.sv.aofState = .off := by
      cases hcase : w.sv.aofState with
      | off => rfl
      | on => exact absurd hcase hstate
      | waitRewrite => exact absurd hcase h.state
    refine h.of_off hsane (hsame.aofState.trans hoff) hsame.conf hrun hsame.aofManifest ?_ (.inl ?_) ?_
    · rw [hsame.disk]
    · rw [hsame.disk]
    · intro p
      rw [hsame.disk]

/-- The buffer, its database and the dataset stay as well. -/
theorem of_eq (h : Persisting c w) (hsame : SameFiles w w') (hsane : Sane w')
    (hbuf : w'.sv.aofBuf = w.sv.aofBuf) (hsel : w'.sv.aofSelectedDb = w.sv.aofSelectedDb)
    (halso : w'.sv.alsoPropagate = w.sv.alsoPropagate) (hdata : w'.sv.dataset = w.sv.dataset) :
    Persisting c w' := by
  refine h.of_same hsame hsane fun _ t data hcont hd => ⟨data, hcont.of_eq hbuf hsel, ?_⟩
  rw [hdata, hd, halso]

theorem off_of_not_on (h : Persisting c w) (hon : w.sv.aofState ≠ .on) : w.sv.aofState = .off := by
  cases hcase : w.sv.aofState with
  | off => rfl
  | on => exact absurd hcase hon
  | waitRewrite => exact absurd hcase h.state

/-! ## Writes -/

theorem write (h : Persisting c w) (ops : List (RedisOp A)) :
    Persisting c (w.set fun sv => ops.foldl writeOp sv) := by
  have hsane : Sane (w.set fun sv => ops.foldl writeOp sv) := h.sane.call (.write ops false)
  obtain ⟨d, q, heq⟩ := foldl_writeOp ops w.sv
  have hsame : SameFiles w (w.set fun sv => ops.foldl writeOp sv) :=
    ⟨rfl, rfl, congrArg (·.conf) heq, congrArg (·.aofState) heq, congrArg (·.aofManifest) heq,
      congrArg (·.aofFd) heq⟩
  refine h.of_same hsame hsane fun hon t data hcont hdata => ⟨data, ?_, ?_⟩
  · refine hcont.of_eq ?_ ?_
    · exact congrArg (·.aofBuf) heq
    · exact congrArg (·.aofSelectedDb) heq
  · obtain ⟨hdata', halso⟩ := foldl_writeOp_on ops w.sv hon
    show (ops.foldl writeOp w.sv).dataset = applyOps (ops.foldl writeOp w.sv).alsoPropagate data
    rw [hdata', halso, hdata]
    exact (List.foldl_append).symm

theorem propagate (h : Persisting c w) (arbitrary : Bool) :
    Persisting c (propagatePendingCommands arbitrary w) := by
  have hp := propagatePendingCommands_propagated arbitrary w
  refine h.of_same hp.toSameFiles (h.sane.propagate arbitrary) fun hon t data hcont hdata => ?_
  refine ⟨_, hcont.propagate hon arbitrary, ?_⟩
  rw [hp.dataset, hdata]
  rfl

/-! ## Flushes and rewrite attempts -/

theorem flush (h : Persisting c w) (force : Bool) : Persisting c (flushAppendOnlyFile force .success w) := by
  have hsane := h.sane.flush force .success
  have hframe := flushAppendOnlyFile_frame force .success w
  by_cases hon : w.sv.aofState = .on
  · obtain ⟨log, data, hlog, hcont, hdata⟩ := h.on hon
    have hwhole : FlushEnv.success.Whole := .inl rfl
    obtain ⟨hbuf, log', hlog', htext⟩ := hlog.flushed force hwhole
    have hrun := (hlog.flush_exited force hwhole fun _ => ⟨rfl, rfl⟩).trans h.running
    refine of_log data hsane (hframe.conf.trans h.conf) hrun (hframe.aofState.trans hon) ?_ hlog' ?_ ?_
    · rw [hframe.aofManifest]
      have hdisk := (h.loadable (.inr hon)).onDisk
      exact hdisk.of_eq ((hlog.flush_aofDir force hwhole).trans hdisk.aofDir) hframe.manifest
    · rw [htext]
      exact hcont.flushed hbuf hframe.aofSelectedDb
    · rw [hframe.dataset, hframe.alsoPropagate, hdata]
  · obtain ⟨hbuf, hoff⟩ := h.sane.idle hon
    rw [flushAppendOnlyFile_idle force .success hbuf hoff] at hsane ⊢
    exact h.of_eq ⟨rfl, rfl, rfl, rfl, rfl, rfl⟩ hsane rfl rfl rfl rfl

omit [Commands A δ] in
/-- An attempt with the AOF off only makes the AOF directory. -/
theorem attempt_off (hsane : Sane w) (hrun : w.exited = false) (hoff : w.sv.aofState = .off) :
    ∃ off, (rewriteAppendOnlyFileBackground .success w).2 = (prepareRewrite w).set fun sv => { sv with
      fsyncedReploffPending := off
      aofLastbgrewriteStatus := .err } := by
  have hprep : Sane (prepareRewrite w) := hsane.of_sv rfl rfl le_rfl id rfl rfl rfl
  obtain ⟨hbuf, hsize⟩ := hprep.idle (by
    show w.sv.aofState ≠ .on
    simp [hoff])
  refine ⟨w.sv.masterReplOffset, ?_⟩
  unfold rewriteAppendOnlyFileBackground rewriteBackground
  rw [if_neg (by simp [hasActiveChildProcess, hsane.childType]), if_neg (by simp [RewriteEnv.success])]
  dsimp only
  rw [flushAppendOnlyFile_idle true _ hbuf hsize]
  generalize hv : World.set (prepareRewrite w) _ = v
  have hvoff : v.sv.aofState = .off := by
    rw [← hv]
    exact hoff
  have hopen : openNewIncrAofForAppend RewriteEnv.success.incr v = (.ok, v) := by
    unfold openNewIncrAofForAppend
    rw [hvoff]
  have hfork : (forkRewrite redisFork v).2 = v.set fun sv => { sv with aofLastbgrewriteStatus := .err } := by
    unfold forkRewrite redisFork
    dsimp only
    rw [if_neg (by simp [hvoff])]
  rw [if_neg (by
    rw [← hv]
    simp [World.set, prepareRewrite, World.dirCreate, World.sys, hrun]), hopen]
  dsimp only
  rw [hfork, ← hv]
  rfl

theorem attempt (h : Persisting c w) : Persisting c (rewriteAppendOnlyFileBackground .success w).2 := by
  have hsane := h.sane.rewriteBackground .success
  by_cases hon : w.sv.aofState = .on
  · obtain ⟨log, data, hlog, hcont, hdata⟩ := h.on hon
    have hattempt : Attempted .success w log (rewriteAppendOnlyFileBackground .success w).2 :=
      hlog.attempt (.inl rfl) hon h.sane.childType (fun _ => ⟨rfl, rfl⟩) h.running
    obtain ⟨hbuf, ⟨log', hlog', htext⟩, hsel, hexit, hcontrol, hman, hdir⟩ := hattempt
    have hincr : (rewriteAppendOnlyFileBackground .success w).2.sv.aofManifest.incrAofList ≠ [] := by
      obtain ⟨init, ai, hsplit, -⟩ := hlog'.incr
      simp [hsplit]
    refine of_log data hsane (hcontrol.conf.trans h.conf) (hexit.trans h.running)
      (hcontrol.aofState.trans hon) ?_ hlog' ?_ ?_
    · exact .of_lines (hdir rfl) (hman rfl) hlog'.ordered (lines_ne_nil_of_incr hincr)
    · rw [htext]
      exact hcont.switched hbuf hsel
    · rw [hcontrol.dataset, hcontrol.alsoPropagate, hdata]
  · have hoff := h.off_of_not_on hon
    obtain ⟨off, heq⟩ := attempt_off h.sane h.running hoff
    rw [heq] at hsane ⊢
    exact h.of_off hsane hoff rfl h.running rfl rfl (.inr rfl) fun _ => rfl

/-! ## Turning the AOF off and on -/

omit [Commands A δ] [AofFormat D A δ] in
/-- `stopAppendOnly` leaves the files as the flush has left them. -/
theorem closeAof_data (w : World D A δ) (p : Path) : (closeAof true w).disk.fs.data p = w.disk.fs.data p := by
  unfold closeAof
  cases w.sv.aofFd with
  | none => rfl
  | some fd =>
      have hk : Keeps ∅ ∅ w.disk.fs (w.disk.fs.fsync fd) := .fsync _ fd
      exact hk.data (Set.notMem_empty p)

omit [Commands A δ] [AofFormat D A δ] in
theorem closeAof_aofDir (w : World D A δ) : (closeAof true w).disk.aofDir = w.disk.aofDir := by
  unfold closeAof
  cases w.sv.aofFd <;> rfl

omit [Commands A δ] [AofFormat D A δ] in
theorem closeAof_exited (w : World D A δ) : (closeAof true w).exited = w.exited := by
  unfold closeAof
  cases w.sv.aofFd <;> rfl

theorem stop (h : Persisting c w) : Persisting c (stopAppendOnly .success w) := by
  have hsane := h.sane.stop .success
  have hflush := h.flush true
  unfold stopAppendOnly at hsane ⊢
  generalize hv : flushAppendOnlyFile true StopEnv.success.flush w = v at hsane ⊢
  have hpersist : Persisting c v := by
    rw [← hv]
    exact hflush
  dsimp only at hsane ⊢
  rw [if_neg (by simp [hpersist.running])] at hsane ⊢
  have hclose := closeAof_frame true v
  exact hpersist.of_off hsane rfl hclose.conf ((closeAof_exited v).trans hpersist.running) hclose.aofManifest
    hclose.manifest (.inl (closeAof_aofDir v)) (closeAof_data v)

omit [Commands A δ] [AofFormat D A δ] in
theorem persistAofManifest_aofDir (env : ManifestWrite) (am : AofManifest String) (w : World D A δ) :
    (persistAofManifest env am w).2.2.disk.aofDir = w.disk.aofDir := by
  unfold persistAofManifest
  split
  · exact (writeAofManifestFile_persisted env am.lines w).aofDir
  · rfl

omit [Commands A δ] [AofFormat D A δ] in
theorem adoptRewrite_aofDir (env : StartEnv) (w : World D A δ) :
    (adoptRewrite env w).2.disk.aofDir = w.disk.aofDir := by
  unfold adoptRewrite
  dsimp only
  split
  · rfl
  · split
    · rfl
    · generalize hv : World.onFs _ _ = v
      have hdir : v.disk.aofDir = w.disk.aofDir := by
        rw [← hv]
        rfl
      split
      · next heq =>
          have hpersist := congrArg (·.2.2.disk.aofDir) heq
          rw [persistAofManifest_aofDir] at hpersist
          exact hpersist.symm.trans hdir
      · next heq =>
          have hpersist := congrArg (·.2.2.disk.aofDir) heq
          rw [persistAofManifest_aofDir] at hpersist
          exact (aofDelHistoryFiles_aofDir _ _).trans (hpersist.symm.trans hdir)

omit [Commands A δ] in
theorem startSync_aofDir {env : StartEnv} (hdir : env.dirCreate = true) (w : World D A δ) :
    (startSync env w).2.disk.aofDir = true := by
  have hopen := openNewIncrAofForAppend_aofDir env.incr (prepareRewrite w)
  unfold startSync
  rw [if_neg (by simp [hdir])]
  split
  · next heq =>
      rw [heq] at hopen
      exact hopen
  · next v heq =>
      rw [heq] at hopen
      have hbase := rewriteAppendOnlyFile_aofDir env.rewrite (.cwd syncTempName) v
      split
      · next heq' =>
          rw [heq'] at hbase
          exact hbase.trans hopen
      · next v' heq' =>
          rw [heq'] at hbase
          exact (adoptRewrite_aofDir env v').trans (hbase.trans hopen)

omit [Commands A δ] in
/-- An enable succeeds if its file operations do, and puts its manifest on disk. -/
theorem startAppendOnly_success (hsane : Sane w) (hexec : w.sv.inExec = false)
    (hnamed : WellNamed w.sv.conf w.sv.aofManifest) (hord : Ordered w.sv.aofManifest) :
    ∃ w', startAppendOnly .success w = (.ok, w') ∧ OnDisk w'.disk w'.sv.aofManifest := by
  rw [startAppendOnly_eq .success hsane.childType hexec]
  generalize hw₁ : w.set (fun sv => { sv with aofState := .waitRewrite }) = w₁
  have hwait : w₁.sv.aofState = .waitRewrite := by
    rw [← hw₁]
    rfl
  have hseq : w₁.sv.aofManifest.currBaseFileSeq + 1 ≠ 0 := by
    have := hnamed.seq
    rw [← hw₁]
    show w.sv.aofManifest.currBaseFileSeq + 1 ≠ 0
    omega
  have hord₁ : Ordered w₁.sv.aofManifest := by
    rw [← hw₁]
    exact hord
  have hdir : (startSync .success w₁).2.disk.aofDir = true := startSync_aofDir rfl w₁
  obtain ⟨fd, v, hv, heq⟩ := startSync_replaced .success hwait rfl
  rw [if_pos (show StartEnv.success.persist.fsyncDir = true from rfl)] at heq
  rw [heq] at hdir ⊢
  refine ⟨_, rfl, ?_⟩
  have hinstalled :
      (installManifest (newBaseName w₁.sv) { rewrittenManifest w₁.sv with dirty := false } v).sv.aofManifest = { rewrittenManifest w₁.sv with dirty := false } := rfl
  have hincr : (rewrittenManifest w₁.sv).incrAofList ≠ [] := by
    rw [rewrittenManifest_eq]
    simp
  have hord' := (rewrittenManifest_ordered w₁ hord₁ hseq).setDirty false
  have hbefore : OnDisk v.disk { rewrittenManifest w₁.sv with dirty := false } := by
    refine .of_lines ?_ ?_ hord' (lines_ne_nil_of_incr hincr)
    · have hkept := aofDelHistoryFiles_aofDir StartEnv.success.persistHistory
        (installManifest (newBaseName w₁.sv) { rewrittenManifest w₁.sv with dirty := false } v)
      exact hkept.symm.trans hdir
    · exact hv.manifest
  exact (OnDisk.delHistory (w := installManifest _ _ v) hbefore (hinstalled ▸ hord') hincr).1

theorem start (h : Persisting c w) (hoff : w.sv.aofState = .off) (hexec : w.sv.inExec = false)
    (halso : w.sv.alsoPropagate = []) : ∃ w', startAppendOnly .success w = (.ok, w') ∧ Persisting c w' := by
  obtain ⟨w', hok, hdisk⟩ := startAppendOnly_success h.sane hexec h.named.1 h.named.2
  have hsane := h.sane.start .success (by simp [hoff])
  rw [hok] at hsane
  obtain ⟨⟨base, hlog, hbase, -⟩, hsteady, hon, hbuf, hsel, -, -, -, -, hexit⟩ :=
    startAppendOnly_holds .success h.sane hexec rfl h.named.1 h.named.2 hok
  refine ⟨w', hok, of_log w.sv.dataset hsane (hsteady.conf.trans h.conf) (hexit.trans h.running) hon hdisk
    hlog (.of_loads ?_ ?_ hbuf hsel) ?_⟩
  · show loadContents [base.data, []] _ = _
    rw [hbase, loadContents, baseContents, readAof_base]
    exact loadContents_all_empty (by simp) _
  · show (AofFormat.parse ([] : List D)).2 = .eof
    rw [AofFormat.parse_nil]
  · rw [show w'.sv.dataset = w.sv.dataset from hsteady.dataset,
      show w'.sv.alsoPropagate = w.sv.alsoPropagate from hsteady.alsoPropagate, halso]
    rfl

/-- `CONFIG SET appendonly`, with `yes` only outside `MULTI`. -/
theorem config (h : Persisting c w) (yes : Bool)
    (hyes : yes = true → w.sv.inExec = false ∧ w.sv.alsoPropagate = []) :
    Persisting c (configSetAppendonly yes .success .success w) := by
  have hset : Persisting c (w.set fun sv => { sv with aofEnabled := yes }) :=
    h.of_eq ⟨rfl, rfl, rfl, rfl, rfl, rfl⟩ (h.sane.of_sv rfl rfl le_rfl id rfl rfl rfl) rfl rfl rfl rfl
  unfold configSetAppendonly
  dsimp only
  split
  · exact h
  · split
    · exact hset.stop
    · split
      · next hstart =>
          obtain ⟨hexec, halso⟩ := hyes hstart.1
          obtain ⟨w', hok, hw'⟩ := hset.start hstart.2 hexec halso
          rw [hok]
          exact hw'
      · exact hset

/-! ## The event loop -/

theorem bgrewriteaof (h : Persisting c w) : Persisting c (bgrewriteaofCommand .success w) := by
  unfold bgrewriteaofCommand
  split
  · exact h
  · split
    · exact h.of_eq ⟨rfl, rfl, rfl, rfl, rfl, rfl⟩ (h.sane.of_sv rfl rfl le_rfl id rfl rfl rfl) rfl rfl rfl rfl
    · exact h.attempt

omit [Commands A δ] [AofFormat D A δ] in
theorem aofRewriteLimited_eq (w : World D A δ) :
    ∃ n t, (aofRewriteLimited w).2 = w.set fun sv => { sv with nextDelayMinutes := n, nextRewriteTime := t } := by
  unfold aofRewriteLimited
  dsimp only
  split
  · exact ⟨0, 0, rfl⟩
  · split
    · split
      · exact ⟨_, _, rfl⟩
      · exact ⟨_, _, rfl⟩
    · exact ⟨_, _, rfl⟩

theorem unlessLimited (h : Persisting c w) : Persisting c (rewriteUnlessLimited .success w) := by
  obtain ⟨n, t, heq⟩ := aofRewriteLimited_eq w
  have hlim : Persisting c (aofRewriteLimited w).2 := by
    rw [heq]
    exact h.of_eq ⟨rfl, rfl, rfl, rfl, rfl, rfl⟩ (h.sane.of_sv rfl rfl le_rfl id rfl rfl rfl) rfl rfl rfl rfl
  unfold rewriteUnlessLimited
  split
  · next heq' =>
      rw [heq'] at hlim
      exact hlim
  · next heq' =>
      rw [heq'] at hlim
      exact hlim.attempt

theorem cron (h : Persisting c w) (second : Bool) :
    Persisting c (serverCron ⟨.success, .success, .success, second, .success⟩ w) := by
  have hscheduled : Persisting c (cronScheduled .success w) := by
    unfold cronScheduled
    split
    · exact h.unlessLimited
    · exact h
  have hgrowth := andThen_inv (f := cronGrowth .success) hscheduled fun h => by
    unfold cronGrowth
    split
    · exact h.unlessLimited
    · exact h
  have hpostponed := andThen_inv (f := cronPostponed .success) hgrowth fun h => by
    unfold cronPostponed
    split
    · exact h.flush false
    · exact h
  have hretry := andThen_inv (f := cronRetry second .success) hpostponed fun h => by
    unfold cronRetry
    split
    · exact h.flush false
    · exact h
  exact andThen_inv hretry fun h =>
    h.of_eq ⟨rfl, rfl, rfl, rfl, rfl, rfl⟩ ⟨h.sane.childType, h.sane.fd, h.sane.idle⟩ rfl rfl rfl rfl

theorem sleep (h : Persisting c w) : Persisting c (beforeSleep .success w) := by
  have hflush : Persisting c (flushBeforeSleep .success w) := by
    unfold flushBeforeSleep
    split
    · exact h
    · exact h.flush false
  refine andThen_inv hflush fun h => ?_
  unfold updateFsyncedReploff
  split
  · exact h.of_eq ⟨rfl, rfl, rfl, rfl, rfl, rfl⟩ (h.sane.of_sv rfl rfl le_rfl id rfl rfl rfl) rfl rfl rfl rfl
  · exact h

end Persisting

end WasiPorts.Redis.Aof
