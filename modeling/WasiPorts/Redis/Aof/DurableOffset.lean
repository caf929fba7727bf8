import WasiPorts.Redis.Aof.Accounting

/-!
# The reported durable offset

`fsynced_reploff` is what `WAITAOF` clients are told: every write up to this replication offset is on
stable storage. An fsync job that fails does not keep the server from reporting the writes it should
have made durable: `aof_last_incr_fsync_offset` is moved up all the same, and the next flush with an
empty buffer trusts it.

* `durable_offset_behind_disk` — the reported offset is never ahead of the disk in a run in which no
  fsync job of the AOF fails, no new INCR file is begun with a part of `aof_buf` not written, and
  cutting off a short write spares what is stored.
-/

namespace WasiPorts.Redis.Aof

open WasiPorts.Posix WasiPorts.Posix.Fs WasiPorts.Run

variable {D A δ : Type}

/-! ## Steps of the server -/

section Steps

variable [AofFormat D A δ] {w w' : World D A δ} {log : Log D}

/-- No write was fed with a later offset than `master_repl_offset`, nor is a later one pending. -/
structure Ledger (w : World D A δ) : Prop where
  bound : ∀ x ∈ fedWrites w, x.off ≤ w.sv.masterReplOffset
  pending : w.sv.fsyncedReploffPending ≤ w.sv.masterReplOffset
  on : w.sv.aofState = .on → ∃ log, HoldsWith true w log ∧ Reported w log ∧
    (w.exited = false → Accounted w log)

theorem Ledger.durableOffset (h : Ledger w) : DurableOffset w := by
  intro hon
  obtain ⟨log, hlog, hrep, -⟩ := h.on hon
  exact hrep.durableOffset hlog hon

/-- With the AOF off, nothing needs to be on stable storage. -/
theorem Ledger.of_not_on (h : Ledger w) (hfeeds : w'.feeds = w.feeds)
    (hmaster : w'.sv.masterReplOffset = w.sv.masterReplOffset)
    (hpending : w'.sv.fsyncedReploffPending ≤ w.sv.masterReplOffset) (hoff : w'.sv.aofState ≠ .on) :
    Ledger w' := by
  refine ⟨?_, hmaster ▸ hpending, fun hon => absurd hon hoff⟩
  rw [fedWrites_congr hfeeds, hmaster]
  exact h.bound

/-- Changes to the rest of `server`. -/
theorem Ledger.of_eq (h : Ledger w) (hfeeds : w'.feeds = w.feeds) (hexit : w'.exited = w.exited)
    (hfs : w'.disk.fs = w.disk.fs)
    (hconf : w'.sv.conf = w.sv.conf) (hman : w'.sv.aofManifest = w.sv.aofManifest)
    (hfd : w'.sv.aofFd = w.sv.aofFd) (hstate : w'.sv.aofState = w.sv.aofState)
    (hbuf : w'.sv.aofBuf = w.sv.aofBuf)
    (hoff : w'.sv.aofLastIncrFsyncOffset = w.sv.aofLastIncrFsyncOffset)
    (hsize : w'.sv.aofLastIncrSize = w.sv.aofLastIncrSize)
    (hpending : w'.sv.fsyncedReploffPending = w.sv.fsyncedReploffPending)
    (hrep : w'.sv.fsyncedReploff = w.sv.fsyncedReploff)
    (hmaster : w'.sv.masterReplOffset = w.sv.masterReplOffset) : Ledger w' := by
  refine ⟨?_, ?_, ?_⟩
  · rw [fedWrites_congr hfeeds, hmaster]
    exact h.bound
  · rw [hpending, hmaster]
    exact h.pending
  · intro hon
    obtain ⟨log, hlog, hreported, hacc⟩ := h.on (hstate ▸ hon)
    refine ⟨log, hlog.of_sv hfs hconf hman hfd, hreported.of_eq hfeeds hpending hrep, fun hrun => ?_⟩
    exact (hacc (hexit ▸ hrun)).of_sv hfs hconf hman hfd hfeeds hbuf hoff hsize hpending hrep

/-! ### Propagation -/

omit [AofFormat D A δ] in
theorem FeedEvent.cmd_of_write {e : FeedEvent D A δ} {x : Write A} (h : e.write = some x) : e.cmd = x.cmd := by
  unfold write at h
  split at h
  · next heq =>
      obtain rfl := Option.some.inj h
      exact heq
  · cases h

/-- A call of `feedAppendOnlyFile` adds at most the write of its command. -/
theorem mem_fedWrites_feed {dictid : Option Nat} {cmd : Rec A δ} {x : Write A}
    (hx : x ∈ fedWrites (feedAppendOnlyFile dictid cmd w)) : x ∈ fedWrites w ∨ cmd = x.cmd := by
  simp only [fedWrites, feedAppendOnlyFile, List.filterMap_append, List.mem_append] at hx
  refine hx.imp_right fun hx => ?_
  obtain ⟨e, he, hwrite⟩ := List.mem_filterMap.mp hx
  obtain rfl := List.mem_singleton.mp he
  exact FeedEvent.cmd_of_write hwrite

omit [AofFormat D A δ] in
theorem replAdvance_pos (sv : Server D A δ) {len : Nat} (h : 0 < len) : 0 < replAdvance sv len := by
  unfold replAdvance
  split
  · exact h
  · exact Nat.one_pos

/-- A command is fed at an offset that no write has yet. It waits in `aof_buf`. -/
theorem Accounted.feed (h : Accounted w log) (hon : w.sv.aofState = .on) (dictid : Option Nat)
    {cmd : Rec A δ}
    (hnew : ∀ x : Write A, cmd = x.cmd → w.sv.fsyncedReploffPending < x.off) :
    Accounted (feedAppendOnlyFile dictid cmd w) log := by
  have hbuf : (feedAppendOnlyFile dictid cmd w).sv.aofBuf =
      w.sv.aofBuf ++ (feedRecs w.sv dictid cmd).flatMap AofFormat.enc := by
    simp [feedAppendOnlyFile, feedAppends, hon]
  have hold : w.sv.aofBuf <:+: (feedAppendOnlyFile dictid cmd w).sv.aofBuf := by
    rw [hbuf]
    exact (List.prefix_append _ _).isInfix
  have hadded : ∀ x : Write A, cmd = x.cmd → Contains x (feedAppendOnlyFile dictid cmd w).sv.aofBuf := by
    rintro x rfl
    left
    rw [hbuf]
    unfold feedRecs
    rw [List.flatMap_append, List.flatMap_singleton, ← List.append_assoc]
    exact (List.suffix_append _ _).isInfix
  refine ⟨⟨?_, h.reported⟩, ?_, ?_, h.offset, h.size⟩
  · intro x hx hle
    rcases mem_fedWrites_feed hx with hx | heq
    · exact h.pending x hx hle
    · have hlt := hnew x heq
      have hle' : x.off ≤ w.sv.fsyncedReploffPending := hle
      omega
  · intro x hx
    rcases mem_fedWrites_feed hx with hx | heq
    · rcases h.stored x hx with hdur | hlast | hpend | ⟨hat, hsplit⟩
      · exact .inl hdur
      · exact .inr (.inl hlast)
      · exact .inr (.inr (.inl (hpend.mono hold)))
      · refine .inr (.inr (.inr ⟨hat.of_sv rfl rfl rfl rfl, hsplit.mono ?_⟩))
        rw [hbuf, ← List.append_assoc]
        exact (List.prefix_append _ _).isInfix
    · exact .inr (.inr (.inl (hadded x heq)))
  · intro hoff x hx
    rcases mem_fedWrites_feed hx with hx | heq
    · rcases h.synced hoff x hx with hdur | hpend
      · exact .inl hdur
      · exact .inr (hpend.mono hold)
    · exact .inr (hadded x heq)

theorem Ledger.propagated (h : Ledger w) {dictid : Option Nat} {len : Nat} {cmd : Nat → Rec A δ}
    (hlen : 0 < len) (hcmd : ∀ off, ∀ x : Write A, cmd off = x.cmd → x.off = off) :
    Ledger (propagateNow dictid len cmd w) := by
  unfold propagateNow
  split
  · have hpos := replAdvance_pos w.sv hlen
    dsimp only
    generalize hoff : w.sv.masterReplOffset + replAdvance w.sv len = off
    have hlt : w.sv.masterReplOffset < off := by omega
    have hnew : ∀ x : Write A, cmd off = x.cmd → w.sv.fsyncedReploffPending < x.off := by
      intro x heq
      rw [hcmd off x heq]
      exact Nat.lt_of_le_of_lt h.pending hlt
    split
    · refine ⟨?_, Nat.le_of_lt (Nat.lt_of_le_of_lt h.pending hlt), ?_⟩
      · intro x hx
        rcases mem_fedWrites_feed (w := w) hx with hx' | heq
        · exact Nat.le_of_lt (Nat.lt_of_le_of_lt (h.bound x hx') hlt)
        · exact (hcmd off x heq).le
      · intro hon
        obtain ⟨log, hlog, hrep, hacc⟩ := h.on hon
        refine ⟨log, hlog.of_sv rfl rfl rfl rfl, ⟨?_, hrep.reported⟩, fun hrun => ?_⟩
        · intro x hx hle
          rcases mem_fedWrites_feed (w := w) hx with hx' | heq
          · exact hrep.pending x hx' hle
          · exact absurd hle (Nat.not_le.mpr (hnew x heq))
        · exact ((hacc hrun).feed hon dictid hnew).of_sv rfl rfl rfl rfl rfl rfl rfl rfl rfl rfl
    · next hstate =>
        refine ⟨?_, Nat.le_of_lt (Nat.lt_of_le_of_lt h.pending hlt), ?_⟩
        · exact fun x hx => Nat.le_of_lt (Nat.lt_of_le_of_lt (h.bound x hx) hlt)
        · intro hon
          have hon' : w.sv.aofState = .on := hon
          simp [hon'] at hstate
  · exact h

theorem Ledger.write [Commands A δ] (h : Ledger w) (ops : List (RedisOp A)) (arbitrary : Bool) :
    Ledger (callCommand (.write ops arbitrary) w) := by
  have hcall : Ledger (call w (.write ops arbitrary)) := by
    obtain ⟨d, q, heq⟩ := foldl_writeOp ops w.sv
    show Ledger { w with sv := ops.foldl writeOp w.sv }
    rw [heq]
    exact h.of_eq rfl rfl rfl rfl rfl rfl rfl rfl rfl rfl rfl rfl rfl
  refine andThen_inv hcall fun hcall => propagatePendingCommands_inv_of ?_ ?_ ?_ ?_ _ hcall
  · intro op w h
    refine h.propagated (Nat.succ_pos _) ?_
    rintro off ⟨argv, db, off'⟩ heq
    have heq' : Rec.command op.argv op.db off = .command argv db off' := heq
    simp only [Rec.command.injEq] at heq'
    exact heq'.2.2.symm
  · exact fun w h => h.propagated (by decide) fun off x heq => by cases heq
  · exact fun w h => h.propagated (by decide) fun off x heq => by cases heq
  · intro w h
    exact h.of_eq rfl rfl rfl rfl rfl rfl rfl rfl rfl rfl rfl rfl rfl

/-! ### Flushes and rewrite attempts -/

omit [AofFormat D A δ] in
theorem Fsync.pending {env : FlushEnv} {fd : Nat} (h : Fsync env fd w w') :
    w'.sv.fsyncedReploffPending = w.sv.fsyncedReploffPending ∨
      w'.sv.fsyncedReploffPending = w.sv.masterReplOffset := by
  cases h with
  | skipped => exact .inl rfl
  | exit => exact .inl rfl
  | always => exact .inr rfl
  | job =>
      cases env.fsync with
      | false => exact .inl rfl
      | true => exact .inr rfl

omit [AofFormat D A δ] in
theorem tryFsync_pending (env : FlushEnv) (w : World D A δ) {fd : Nat} (hfd : w.sv.aofFd = some fd) :
    (tryFsync env w).sv.fsyncedReploffPending = w.sv.fsyncedReploffPending ∨
      (tryFsync env w).sv.fsyncedReploffPending = w.sv.masterReplOffset :=
  (tryFsync_fsync env hfd).pending

theorem flushAppendOnlyFile_pending (force : Bool) (env : FlushEnv) (w : World D A δ) {fd : Nat}
    (hfd : w.sv.aofFd = some fd) :
    (flushAppendOnlyFile force env w).sv.fsyncedReploffPending = w.sv.fsyncedReploffPending ∨
      (flushAppendOnlyFile force env w).sv.fsyncedReploffPending = w.sv.masterReplOffset := by
  have hpost : flushPostponed force w.sv = false := by
    simp [flushPostponed, aofFsyncInProgress]
  have hfsync := tryFsync_pending env w hfd
  unfold flushAppendOnlyFile
  dsimp only
  split
  · split
    · exact .inr rfl
    · split
      · exact hfsync
      · split
        · exact hfsync
        · exact .inl rfl
  · rw [hpost, if_neg (by simp), hfd]
    dsimp only
    split
    · exact tryFsync_pending env (writeDone fd w) hfd
    · left
      have hsv := writeShort_sv env (aofWrite env w.sv.aofBuf.length) w
      unfold writeFailed
      dsimp only
      split
      · exact congrArg (·.fsyncedReploffPending) hsv
      · exact congrArg (·.fsyncedReploffPending) hsv

theorem Ledger.flush (h : Ledger w) (hsane : Sane w) (hrun : w.exited = false) (force : Bool)
    {env : FlushEnv} (hok : FlushSyncs w env) : Ledger (flushAppendOnlyFile force env w) := by
  have hframe := flushAppendOnlyFile_frame force env w
  by_cases hon : w.sv.aofState = .on
  · obtain ⟨log, hlog, -, hacc⟩ := h.on hon
    refine ⟨?_, ?_, fun _ => (hacc hrun).flushed hlog force h.pending hok⟩
    · rw [fedWrites_congr hframe.feeds, hframe.masterReplOffset]
      exact h.bound
    · obtain ⟨-, -, -, init, ai, -, -, -, fd, hfd, -⟩ := hlog
      rw [hframe.masterReplOffset]
      rcases flushAppendOnlyFile_pending force env w hfd with hsame | hnew
      · rw [hsame]
        exact h.pending
      · exact hnew.le
  · obtain ⟨hbuf, hoff⟩ := hsane.idle hon
    rw [flushAppendOnlyFile_idle force env hbuf hoff]
    exact h.of_not_on rfl rfl (Nat.le_refl _) hon

/-- A rewrite attempt with the AOF on, whose fsync of the old file succeeds. -/
theorem Ledger.openNewIncr (h : Ledger w) (hon : w.sv.aofState = .on) (hrun : w.exited = false)
    {env : OpenIncrEnv}
    (hok : env.openNew = true ∧ env.persist.status = .ok → env.closeFsync = true ∧ w.sv.aofBuf = []) :
    Ledger (openNewIncrAofForAppend env w).2 ∧
      (openNewIncrAofForAppend env w).2.sv.aofState = .on := by
  have hcontrol := openNewIncrAofForAppend_control env w
  refine ⟨?_, hcontrol.aofState.trans hon⟩
  obtain ⟨log, hlog, -, hacc⟩ := h.on hon
  have hacc := hacc hrun
  have hbound : ∀ x ∈ fedWrites (openNewIncrAofForAppend env w).2,
      x.off ≤ (openNewIncrAofForAppend env w).2.sv.masterReplOffset := by
    rw [fedWrites_congr hcontrol.feeds, hcontrol.masterReplOffset]
    exact h.bound
  by_cases hsw : env.openNew = true ∧ env.persist.status = .ok
  · obtain ⟨hclose, hbuf⟩ := hok hsw
    obtain ⟨w', heq, hre, -, hlog'⟩ := hlog.openNewIncr_ok env hon hsw.1 hsw.2
    rw [heq] at hbound hcontrol ⊢
    rw [hclose] at hlog'
    -- the pending offset is the old one, or that of the fsync before the close
    have hle : w'.sv.fsyncedReploffPending ≤ w.sv.masterReplOffset := by
      rcases hre.pending with hsame | hnew
      · rw [hsame]
        exact h.pending
      · exact hnew.le
    have hnext : Accounted w' (log.trySync true).switch := by
      refine .all (w := w) hcontrol.feeds ?_ ?_ ?_ ?_
      · exact fun x hx => (hacc.sync hbuf x hx).switch
      · rw [hre.aofLastIncrSize, hre.aofLastIncrFsyncOffset]
      · rw [hre.aofLastIncrSize]
        exact fun _ => rfl
      · intro o ho
        rw [hre.fsyncedReploff] at ho
        have hreported := hacc.reported o ho
        rcases hre.pending with hsame | hnew
        · exact hsame ▸ hreported
        · exact hnew ▸ Nat.le_trans hreported h.pending
    exact ⟨hbound, hcontrol.masterReplOffset ▸ hle,
      fun _ => ⟨_, hlog', hnext.toReported, fun _ => hnext⟩⟩
  -- the old file stays open; its log is as before
  · obtain ⟨dk, tr, heq, hlog', hhandle⟩ := hlog.openNewIncr_err env hon hsw
    rw [heq] at hbound ⊢
    have hat : Holds w log → Holds { w with disk := dk, trace := tr } log := by
      intro hat
      obtain ⟨dk', tr', heq', hlog'', -⟩ := hat.openNewIncr_err env hon hsw
      rw [heq] at heq'
      rw [(Prod.mk.inj heq').2]
      exact hlog''
    have hsame : SameAccount w { w with disk := dk, trace := tr } := by
      refine ⟨rfl, rfl, rfl, rfl, rfl, rfl, fun happ => ?_⟩
      obtain ⟨-, -, -, init, ai, -, -, -, fd, hfd, -⟩ := hlog
      simpa only [Appending, hfd, Option.bind_some, hhandle fd hfd] using happ
    have hacc' := hacc.of_same hsame hat
    exact ⟨hbound, h.pending, fun _ => ⟨log, hlog', hacc'.toReported, fun _ => hacc'⟩⟩

omit [AofFormat D A δ] in
theorem openNewIncrAofForAppend_pending (env : OpenIncrEnv) (w : World D A δ) (hon : w.sv.aofState ≠ .on) :
    (openNewIncrAofForAppend env w).2.sv.fsyncedReploffPending = w.sv.fsyncedReploffPending ∨
      (openNewIncrAofForAppend env w).2.sv.fsyncedReploffPending = w.sv.masterReplOffset := by
  cases hstate : w.sv.aofState with
  | on => exact absurd hstate hon
  | off =>
      left
      unfold openNewIncrAofForAppend
      rw [hstate]
  | waitRewrite =>
      rw [openNewIncrAofForAppend_wait env hstate]
      dsimp only
      split
      · exact .inl rfl
      · exact (switchIncr_reopened _ _ _ _).pending

/-- A rewrite attempt with the AOF off, or about to be on, reports no later offset than
`master_repl_offset`. -/
theorem rewriteAppendOnlyFileBackground_pending (env : RewriteEnv) (hsane : Sane w) (hon : w.sv.aofState ≠ .on)
    (hpending : w.sv.fsyncedReploffPending ≤ w.sv.masterReplOffset) :
    (rewriteAppendOnlyFileBackground env w).2.sv.fsyncedReploffPending ≤ w.sv.masterReplOffset := by
  unfold rewriteAppendOnlyFileBackground rewriteBackground
  split
  · exact hpending
  · split
    · exact hpending
    · have hprep : Sane (prepareRewrite w) := hsane.of_sv rfl rfl le_rfl id rfl rfl rfl
      obtain ⟨hbuf, hoff⟩ := hprep.idle hon
      rw [flushAppendOnlyFile_idle true env.flush hbuf hoff]
      dsimp only
      generalize hv : World.set (prepareRewrite w) _ = v
      have hmaster : v.sv.fsyncedReploffPending = w.sv.masterReplOffset ∧
          v.sv.masterReplOffset = w.sv.masterReplOffset ∧ v.sv.aofState ≠ .on := by
        subst hv
        exact ⟨rfl, rfl, hon⟩
      obtain ⟨hpend, hrepl, hvon⟩ := hmaster
      have hcontrol := openNewIncrAofForAppend_control env.incr v
      have hopen : (openNewIncrAofForAppend env.incr v).2.sv.fsyncedReploffPending = w.sv.masterReplOffset := by
        rcases openNewIncrAofForAppend_pending env.incr v hvon with hsame | hnew
        · exact hsame.trans hpend
        · exact hnew.trans hrepl
      split
      · exact hpend.le
      · split
        · next heq =>
            rw [heq] at hopen
            exact hopen.le
        · next v' heq =>
            rw [heq] at hopen hcontrol
            have hrepl' : v'.sv.masterReplOffset = w.sv.masterReplOffset :=
              hcontrol.masterReplOffset.trans hrepl
            unfold forkRewrite redisFork
            dsimp only
            split
            · exact hrepl'.le
            · exact hopen.le

/-- What an attempt may not do: fail an fsync job, begin a new file with a part of `aof_buf` not
written, or cut off a short write where that does harm. -/
structure AttemptSyncs (w : World D A δ) (env : RewriteEnv) : Prop where
  flush : env.dirCreate = true → FlushSyncs w env.flush
  close : env.switches = true → env.incr.closeFsync = true
  buf : env.switches = true → aofWrite env.flush w.sv.aofBuf.length = w.sv.aofBuf.length

/-- A flush that writes the whole buffer leaves it empty. -/
theorem flushAppendOnlyFile_empties (force : Bool) {env : FlushEnv} {fd : Nat}
    (hfd : w.sv.aofFd = some fd) (hall : aofWrite env w.sv.aofBuf.length = w.sv.aofBuf.length) :
    (flushAppendOnlyFile force env w).sv.aofBuf = [] := by
  have hpost : flushPostponed force w.sv = false := by
    simp [flushPostponed, aofFsyncInProgress]
  have hfsync : ∀ v : World D A δ, (tryFsync env v).sv.aofBuf = v.sv.aofBuf := by
    intro v
    unfold tryFsync bioAofFsync
    simp only [aofFsyncInProgress, Bool.false_eq_true, if_false]
    repeat' split
    all_goals rfl
  unfold flushAppendOnlyFile
  dsimp only
  split
  · next hbuf =>
      split
      · exact hbuf
      · split
        · rw [hfsync, hbuf]
        · split
          · rw [hfsync, hbuf]
          · exact hbuf
  · rw [hpost, if_neg (by simp), hfd]
    dsimp only
    exact hfsync (writeDone fd w)

theorem Ledger.attempt_on (h : Ledger w) (hsane : Sane w) (hon : w.sv.aofState = .on)
    (hrun : w.exited = false) {env : RewriteEnv} (hok : AttemptSyncs w env) :
    Ledger (rewriteAppendOnlyFileBackground env w).2 := by
  unfold rewriteAppendOnlyFileBackground rewriteBackground
  rw [if_neg (by simp [hasActiveChildProcess, hsane.childType])]
  cases hdir : env.dirCreate with
  | false => exact h.of_eq rfl rfl rfl rfl rfl rfl rfl rfl rfl rfl rfl rfl rfl
  | true =>
      rw [if_neg (by simp)]
      dsimp only
      have hprep : Ledger (prepareRewrite w) := h.of_eq rfl rfl rfl rfl rfl rfl rfl rfl rfl rfl rfl rfl rfl
      have hprepSane : Sane (prepareRewrite w) := hsane.of_sv rfl rfl le_rfl id rfl rfl rfl
      have hframe := flushAppendOnlyFile_frame true env.flush (prepareRewrite w)
      have hsyncs : FlushSyncs (prepareRewrite w) env.flush :=
        ⟨(hok.flush hdir).fsync, (hok.flush hdir).cut⟩
      have hledger := hprep.flush hprepSane hrun true hsyncs
      have hempties : env.switches = true →
          (flushAppendOnlyFile true env.flush (prepareRewrite w)).sv.aofBuf = [] := by
        intro hswitches
        obtain ⟨log, hlog, -⟩ := hprep.on hon
        obtain ⟨-, -, -, init, ai, -, -, -, fd, hfd, -⟩ := hlog
        exact flushAppendOnlyFile_empties true hfd (hok.buf hswitches)
      generalize flushAppendOnlyFile true env.flush (prepareRewrite w) = v at *
      split
      · exact hledger
      · next hexit =>
        have hsw : env.incr.openNew = true ∧ env.incr.persist.status = .ok →
            env.incr.closeFsync = true ∧ v.sv.aofBuf = [] := by
          rintro ⟨hopen, hst⟩
          have hswitches : env.switches = true := by simp [RewriteEnv.switches, hdir, hopen, hst]
          exact ⟨hok.close hswitches, hempties hswitches⟩
        obtain ⟨hnew, hnewOn⟩ := hledger.openNewIncr (hframe.aofState.trans hon) (by simpa using hexit) hsw
        split
        · next heq =>
            rw [heq] at hnew
            exact hnew.of_eq rfl rfl rfl rfl rfl rfl rfl rfl rfl rfl rfl rfl rfl
        · next v' heq =>
            rw [heq] at hnew hnewOn
            have hnewOn' : v'.sv.aofState = .on := hnewOn
            unfold forkRewrite redisFork
            dsimp only
            rw [if_neg (by simp [hnewOn'])]
            exact hnew.of_eq rfl rfl rfl rfl rfl rfl rfl rfl rfl rfl rfl rfl rfl

theorem Ledger.attempt (h : Ledger w) (hsane : Sane w) (hrun : w.exited = false) {env : RewriteEnv}
    (hok : w.sv.aofState = .on → AttemptSyncs w env) :
    Ledger (rewriteAppendOnlyFileBackground env w).2 := by
  by_cases hon : w.sv.aofState = .on
  · exact h.attempt_on hsane hon hrun (hok hon)
  · have hcontrol := rewriteAppendOnlyFileBackground_control env w
    refine h.of_not_on hcontrol.feeds hcontrol.masterReplOffset ?_ (hcontrol.aofState ▸ hon)
    exact rewriteAppendOnlyFileBackground_pending env hsane hon h.pending

/-! ### Turning the AOF off and on -/

/-- Only a flush under `always` ends the process. -/
theorem flushAppendOnlyFile_exits {force : Bool} {env : FlushEnv} (hrun : w.exited = false)
    (hexit : (flushAppendOnlyFile force env w).exited = true) : w.sv.aofFsync = .always := by
  by_contra hpolicy
  have hfsync : ∀ v : World D A δ, v.sv.aofFsync = w.sv.aofFsync →
      (tryFsync env v).exited = v.exited := by
    intro v hv
    unfold tryFsync bioAofFsync
    simp only [aofFsyncInProgress, Bool.false_eq_true, if_false]
    rw [hv, if_neg hpolicy]
    repeat' split
    all_goals rfl
  have hshort : ∀ n, (writeFailed env n w).exited = w.exited := by
    intro n
    unfold writeFailed writeShort
    dsimp only
    rw [if_neg hpolicy]
    repeat' split
    all_goals rfl
  have hsame : (flushAppendOnlyFile force env w).exited = w.exited := by
    unfold flushAppendOnlyFile
    dsimp only
    split
    · split
      · rfl
      · split
        · exact hfsync w rfl
        · rfl
    · split
      · rfl
      · split
        · split
          · exact hfsync (writeDone _ w) rfl
          · exact hshort _
        · exact hshort 0
  rw [hsame, hrun] at hexit
  cases hexit

theorem Ledger.stop (h : Ledger w) (hsane : Sane w) (hrun : w.exited = false) {env : StopEnv}
    (hok : CutsOff env.flush w.sv → CutSpares w) : Ledger (stopAppendOnly env w) := by
  have hflush := flushAppendOnlyFile_frame true env.flush w
  have hclose := hflush.trans (closeAof_frame env.fsync _)
  unfold stopAppendOnly
  dsimp only
  split
  · next hexit =>
      have halways := flushAppendOnlyFile_exits hrun hexit
      refine h.flush hsane hrun true ⟨?_, hok⟩
      rintro ⟨hpolicy, -⟩
      simp [halways] at hpolicy
  · exact h.of_not_on hclose.feeds hclose.masterReplOffset (Nat.zero_le _) nofun

theorem startSync_err_pending {env : StartEnv} (hwait : w.sv.aofState = .waitRewrite)
    (herr : (startSync env w).1 = .err) :
    (startSync env w).2.sv.fsyncedReploffPending = w.sv.fsyncedReploffPending ∨
      (startSync env w).2.sv.fsyncedReploffPending = w.sv.masterReplOffset := by
  cases hrep : env.replaces with
  | false => exact (startSync_stopped env hwait hrep).2.pending
  | true =>
      obtain ⟨fd, v, hv, heq⟩ := startSync_replaced env hwait hrep
      rw [heq] at herr ⊢
      split at herr
      · cases herr
      · rw [if_neg (by assumption)]
        exact hv.reopened.pending

theorem Ledger.start (h : Ledger w) (hsane : Sane w) (hnamed : Named w) (hexec : w.sv.inExec = false)
    {env : StartEnv} (hfreed : env.freed = none) : Ledger (startAppendOnly env w).2 := by
  have hsw := startSync_switched env (w.set fun sv => { sv with aofState := .waitRewrite })
  cases hres : (startAppendOnly env w).1 with
  | err =>
      have heq := startAppendOnly_err env hsane.childType hexec hres
      have herr : (startSync env (w.set fun sv => { sv with aofState := .waitRewrite })).1 = .err := by
        rw [startAppendOnly_eq env hsane.childType hexec] at hres
        split at hres
        · next heq' => rw [heq']
        · cases hres
      rw [heq]
      refine h.of_not_on hsw.steady.feeds hsw.steady.masterReplOffset ?_ ?_
      · rcases startSync_err_pending rfl herr with hsame | hnew
        · exact hsame ▸ h.pending
        · exact hnew.le
      · rw [hsw.aofState, herr]
        simp
  | ok =>
      obtain ⟨w', hok⟩ : ∃ w', startAppendOnly env w = (.ok, w') := ⟨_, Prod.ext hres rfl⟩
      have henabled := startAppendOnly_holds env hsane hexec hfreed hnamed.1 hnamed.2 hok
      obtain ⟨base, hlog, hdata, hsynced⟩ := henabled.log
      rw [hok]
      have hfeeds : w'.feeds = w.feeds := henabled.steady.feeds
      have hmaster : w'.sv.masterReplOffset = w.sv.masterReplOffset := henabled.steady.masterReplOffset
      have hacc : Accounted w' (.rewritten base) := by
        refine .all (w := w) hfeeds ?_ ?_ ?_ ?_
        · -- the BASE file has them all
          intro x hx
          refine ⟨base, List.mem_append_left _ (List.mem_append_left _ List.mem_cons_self), .inr ?_⟩
          refine ⟨w.sv.dataset, w.sv.masterReplOffset, h.bound x hx, ?_⟩
          unfold durablePart
          rw [hsynced, List.take_length, hdata]
          exact List.infix_refl _
        · rw [henabled.aofLastIncrSize, henabled.aofLastIncrFsyncOffset]
        · rw [henabled.aofLastIncrSize]
          exact fun _ => rfl
        · intro o ho
          rw [henabled.fsyncedReploff] at ho
          exact (Option.some.inj ho).ge
      refine ⟨?_, ?_, fun _ => ⟨_, hlog.weaken, hacc.toReported, fun _ => hacc⟩⟩
      · rw [fedWrites_congr hfeeds]
        exact fun x hx => hmaster ▸ h.bound x hx
      · rw [hmaster]
        rcases henabled.pending with hsame | hnew
        · exact hsame ▸ h.pending
        · exact hnew.le

theorem Ledger.config (h : Ledger w) (hsane : Sane w) (hnamed : Named w) (hexec : w.sv.inExec = false)
    (hrun : w.exited = false) {yes : Bool} {start : StartEnv} {stop : StopEnv}
    (hfreed : yes = true → start.freed = none)
    (hcut : yes = false → CutsOff stop.flush w.sv → CutSpares w) :
    Ledger (configSetAppendonly yes start stop w) := by
  have hset : Ledger (w.set fun sv => { sv with aofEnabled := yes }) :=
    h.of_eq rfl rfl rfl rfl rfl rfl rfl rfl rfl rfl rfl rfl rfl
  have hsane' : Sane (w.set fun sv => { sv with aofEnabled := yes }) :=
    hsane.of_sv rfl rfl le_rfl id rfl rfl rfl
  have hnamed' : Named (w.set fun sv => { sv with aofEnabled := yes }) := hnamed.of_eq rfl rfl
  unfold configSetAppendonly
  dsimp only
  split
  · exact h
  · split
    · next hno => exact hset.stop hsane' hrun (hcut (by simpa using hno.1))
    · split
      · next hyes =>
        have hres := hset.start hsane' hnamed' hexec (hfreed hyes.1)
        split
        · next hok =>
            rw [hok] at hres
            exact hres
        · next herr =>
            rw [herr] at hres
            exact hres.of_eq rfl rfl rfl rfl rfl rfl rfl rfl rfl rfl rfl rfl rfl
      · exact hset

end Steps

/-! ## Runs -/

section Runs

variable [Commands A δ] [AofFormat D A δ] {w : World D A δ}

inductive DurableEvent (A : Type) where
  | write (ops : List (RedisOp A)) (touchesArbitraryKeys : Bool)
  | flush (force : Bool) (env : FlushEnv)
  /-- The update of `fsynced_reploff` in `beforeSleep`. -/
  | update
  /-- A rewrite attempt, by `BGREWRITEAOF` or by `serverCron`. -/
  | rewrite (env : RewriteEnv)
  /-- `CONFIG SET appendonly`. -/
  | appendonly (yes : Bool) (start : StartEnv) (stop : StopEnv)
  | appendfsync (policy : AofFsync)
  | clock (ms : Int)

def durableStep (w : World D A δ) (ev : DurableEvent A) : World D A δ :=
  w.andThen fun w =>
    match ev with
    | .write ops touchesArbitraryKeys => callCommand (.write ops touchesArbitraryKeys) w
    | .flush force env => flushAppendOnlyFile force env w
    | .update => updateFsyncedReploff w
    | .rewrite env => (rewriteAppendOnlyFileBackground env w).2
    | .appendonly yes start stop => configSetAppendonly yes start stop w
    | .appendfsync policy => w.set fun sv => { sv with aofFsync := policy }
    | .clock ms => w.set fun sv => { sv with mstime := ms, unixtime := ms / 1000 }

/-- No fsync job of the AOF fails, no new INCR file is begun with a part of `aof_buf` not written, and
cutting off a short write does no harm. The names of new files that an enable frees read as before. -/
def JobsSucceed (w : World D A δ) : DurableEvent A → Prop
  | .flush _ env => FlushSyncs w env
  | .rewrite env => w.sv.aofState = .on → AttemptSyncs w env
  | .appendonly yes start stop =>
    (yes = true → start.freed = none) ∧ (yes = false → CutsOff stop.flush w.sv → CutSpares w)
  | .write _ _ | .update | .appendfsync _ | .clock _ => True

structure Reporting (w : World D A δ) : Prop where
  sane : Sane w
  named : Named w
  inExec : w.sv.inExec = false
  ledger : Ledger w

theorem callCommand_write_inExec (ops : List (RedisOp A)) (arbitrary : Bool) (h : w.sv.inExec = false) :
    (callCommand (.write ops arbitrary) w).sv.inExec = false := by
  have hcall : (call w (.write ops arbitrary)).sv.inExec = false := by
    obtain ⟨d, q, heq⟩ := foldl_writeOp ops w.sv
    show (ops.foldl writeOp w.sv).inExec = false
    rw [heq]
    exact h
  refine andThen_inv (I := fun w => w.sv.inExec = false) hcall fun hcall => ?_
  refine propagatePendingCommands_inv (I := fun w => w.sv.inExec = false) ?_ (fun w h => h) _ hcall
  intro dictid len cmd w h
  unfold propagateNow
  dsimp only
  split
  · split <;> exact h
  · exact h

omit [Commands A δ] in
theorem Reporting.update (h : Reporting w) : Reporting (updateFsyncedReploff w) := by
  unfold updateFsyncedReploff
  split
  · refine ⟨h.sane.of_sv rfl rfl le_rfl id rfl rfl rfl, h.named.of_eq rfl rfl, h.inExec, ?_⟩
    refine ⟨h.ledger.bound, h.ledger.pending, fun hon => ?_⟩
    obtain ⟨log, hlog, hrep, hacc⟩ := h.ledger.on hon
    have hreported : Reported (w.set fun sv => { sv with
        fsyncedReploff := some sv.fsyncedReploffPending }) log :=
      ⟨hrep.pending, fun o ho => (Option.some.inj ho).ge⟩
    refine ⟨log, hlog.of_sv rfl rfl rfl rfl, hreported, fun hrun => ⟨hreported, ?_, ?_, ?_, ?_⟩⟩
    · intro x hx
      exact ((hacc hrun).stored x hx).imp_right (·.imp_right (·.imp_right fun ⟨hat, hsplit⟩ =>
        ⟨hat.of_sv rfl rfl rfl rfl, hsplit⟩))
    · exact (hacc hrun).synced
    · exact (hacc hrun).offset
    · exact (hacc hrun).size
  · exact h

theorem durableStep_reporting (w : World D A δ) (ev : DurableEvent A) (h : Reporting w)
    (hok : JobsSucceed w ev) : Reporting (durableStep w ev) := by
  unfold durableStep World.andThen
  split
  · exact h
  · next hrun =>
      have hrun' : w.exited = false := by simpa using hrun
      cases ev with
      | write ops arbitrary =>
          refine ⟨?_, ?_, callCommand_write_inExec ops arbitrary h.inExec, h.ledger.write ops arbitrary⟩
          · exact andThen_inv (h.sane.call _) fun hs => hs.propagate _
          · exact andThen_inv (h.named.call trivial) fun hn => hn.propagate _
      | flush force env =>
          have hframe := flushAppendOnlyFile_frame force env w
          refine ⟨h.sane.flush force env, h.named.of_frame hframe, hframe.inExec.trans h.inExec, ?_⟩
          exact h.ledger.flush h.sane hrun' force hok
      | update => exact h.update
      | rewrite env =>
          have hcontrol := rewriteAppendOnlyFileBackground_control env w
          refine ⟨h.sane.rewriteBackground env, h.named.rewriteBackground env, ?_, ?_⟩
          · exact hcontrol.inExec.trans h.inExec
          · exact h.ledger.attempt h.sane hrun' hok
      | appendonly yes start stop =>
          refine ⟨h.sane.config yes start stop, h.named.config yes start stop hok.1, ?_, ?_⟩
          · exact configSetAppendonly_inExec yes start stop h.sane.childType h.inExec
          · exact h.ledger.config h.sane h.named h.inExec hrun' hok.1 hok.2
      | appendfsync policy =>
          exact ⟨h.sane.of_sv rfl rfl le_rfl id rfl rfl rfl, h.named.of_eq rfl rfl, h.inExec,
            h.ledger.of_eq rfl rfl rfl rfl rfl rfl rfl rfl rfl rfl rfl rfl rfl⟩
      | clock ms =>
          exact ⟨h.sane.of_sv rfl rfl le_rfl id rfl rfl rfl, h.named.of_eq rfl rfl, h.inExec,
            h.ledger.of_eq rfl rfl rfl rfl rfl rfl rfl rfl rfl rfl rfl rfl rfl⟩

omit [Commands A δ] [AofFormat D A δ] in
theorem HoldsWith.positioned_size {gaps : Bool} {log : Log D} (h : HoldsWith gaps w log)
    (hpos : Positioned w) : log.last.data.length = w.sv.aofLastIncrSize := by
  obtain ⟨fd, hd, f, hfd, ⟨hhd, hf⟩, -, hsize⟩ := hpos
  have hdata := h.aofData_eq
  simp only [aofData, hfd, Option.bind_some, hhd, Option.map_some, hf, Option.some.injEq] at hdata
  rw [← hdata, hsize]

omit [Commands A δ] [AofFormat D A δ] in
theorem HoldsWith.lastIncrApart {gaps : Bool} {log : Log D} (h : HoldsWith gaps w log) :
    LastIncrApart w := by
  intro ai hai heq
  refine h.named.own _ w.sv.conf.tempManifest_mem_own ?_
  rw [← heq]
  refine List.mem_map_of_mem (List.mem_append_right _ ?_)
  exact List.mem_of_mem_getLast? hai

theorem serverStart_reporting (c : StartConf δ) (env : BootEnv) (dk : Disk D)
    (hnamed : ∀ am, startManifest A c dk = some am → WellNamed c.conf am)
    (hexit : (serverStart c env dk : World D A δ).exited = false) :
    Reporting (serverStart c env dk : World D A δ) := by
  have hfresh := serverStart_fresh (A := A) c env dk
  have hfed : fedWrites (serverStart c env dk : World D A δ) = [] := by
    rw [fedWrites, hfresh.feeds]
    rfl
  have hpending : (serverStart c env dk : World D A δ).sv.fsyncedReploffPending = 0 := by
    cases henabled : c.aofEnabled with
    | true =>
        obtain ⟨am, d, size, base, fd, incr, hsv⟩ := (serverStart_holds c env dk hnamed henabled hexit).sv
        rw [hsv]
        rfl
    | false =>
        obtain ⟨am, -, heq⟩ := serverStart_off (A := A) c env dk henabled hexit
        obtain ⟨am', hsv⟩ := aofDelHistoryFiles_sv env.persistHistory
          ((bootWorld c dk am : World D A δ).set fun sv => { sv with dataset := c.rdb })
        rw [heq, hsv]
        rfl
  refine ⟨serverStart_sane c env dk, serverStart_named c env dk hnamed hexit, hfresh.inExec, ?_, ?_, ?_⟩
  · simp [hfed]
  · rw [hpending]
    exact Nat.zero_le _
  · intro hon
    have henabled : c.aofEnabled = true := by
      rw [serverStart_state c env dk hexit] at hon
      cases hc : c.aofEnabled with
      | true => rfl
      | false => simp [hc] at hon
    have hstarted := serverStart_holds c env dk hnamed henabled hexit
    obtain ⟨log, hlog⟩ := hstarted.log
    have hpos := hlog.positioned_size (serverStart_positioned c env dk hon hexit hlog.lastIncrApart)
    obtain ⟨am, d, size, base, fd, incr, hsv⟩ := hstarted.sv
    have hacc : Accounted (serverStart c env dk : World D A δ) log := by
      refine ⟨⟨?_, ?_⟩, ?_, ?_, ?_, fun _ => hpos⟩
      · simp [hfed]
      · intro o ho
        have hzero : o = 0 := by
          rw [hsv] at ho
          simpa [initServer, henabled] using ho.symm
        rw [hzero]
        exact Nat.zero_le _
      · simp [hfed]
      · simp [hfed]
      · rw [hsv]
    exact ⟨log, hlog.weaken, hacc.toReported, fun _ => hacc⟩

end Runs

instance [DecidableEq D] (env : FlushEnv) (sv : Server D A δ) : Decidable (fsyncJobDue env sv) :=
  inferInstanceAs (Decidable (_ ∧ _ ∧ (_ ∨ _)))

instance (env : FlushEnv) (sv : Server D A δ) : Decidable (CutsOff env sv) :=
  inferInstanceAs (Decidable ((_ ∧ _) ∧ _))

/-- The names of a first start. -/
theorem firstStart_wellNamed (am : AofManifest String)
    (h : startManifest Nat (defaultStart true) Disk.blank = some am) : WellNamed (defaultStart true).conf am := by
  obtain rfl : AofManifest.create = am := Option.some.inj h
  exact ⟨List.nodup_nil, nofun, nofun, nofun, by decide⟩

/-- The unit has the write. -/
def unitContains (x : Write Nat) : Option (Rec Nat Journal) → Bool
  | some (.command argv db off) => x = ⟨argv, db, off⟩
  | some (.base _ upto) => x.off ≤ upto
  | _ => false

theorem Contains.exists_unit {x : Write Nat} {xs : List (Option (Rec Nat Journal))} (h : Contains x xs) :
    ∃ u ∈ xs, unitContains x u = true := by
  rcases h with hcmd | ⟨d, upto, hle, hbase⟩
  · refine ⟨_, hcmd.subset List.mem_cons_self, ?_⟩
    simp [unitContains, Write.cmd]
  · refine ⟨_, hbase.subset List.mem_cons_self, ?_⟩
    simpa [unitContains] using hle

end WasiPorts.Redis.Aof
