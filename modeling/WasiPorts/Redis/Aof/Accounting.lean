import WasiPorts.Redis.Aof.LogSteps
import WasiPorts.Redis.Aof.Named
import WasiPorts.Redis.Aof.ShortWrite

/-!
# Where the writes are

A write that was fed to the AOF is on stable storage, in the last file, in `aof_buf`, or, after a short
write, partly in the file and partly in the buffer. `Accounted` says so for all writes of a server,
together with what the offsets of the server say about them: `aof_last_incr_fsync_offset`, which a
flush compares with the size of the file, and `fsynced_reploff_pending`, which it moves up to
`master_repl_offset` when it believes that nothing is left to fsync.

* `Reported.durableOffset` — the reported offset is not ahead of the disk.
* `Accounted.flushed` — a flush keeps the account, unless its fsync job fails or a short write that is
  cut off again takes stored bytes with it or leaves a gap inside a command.
-/

namespace WasiPorts.Redis.Aof

open WasiPorts.Posix WasiPorts.Posix.Fs

variable {D A δ : Type}

/-! ## Writes and where they are -/

/-- A write that was fed to the AOF: the command, and the replication offset at which it ends. -/
structure Write (A : Type) where
  argv : A
  db : Nat
  off : Nat
  deriving DecidableEq

def Write.cmd (x : Write A) : Rec A δ := .command x.argv x.db x.off

/-- The write of a call of `feedAppendOnlyFile`, if it was no `MULTI` or `EXEC`. -/
def FeedEvent.write (e : FeedEvent D A δ) : Option (Write A) :=
  match e.cmd with
  | .command argv db off => some ⟨argv, db, off⟩
  | _ => none

/-- The writes fed to the AOF. -/
def fedWrites (w : World D A δ) : List (Write A) := w.feeds.filterMap FeedEvent.write

theorem fedWrites_congr {w w' : World D A δ} (hfeeds : w'.feeds = w.feeds) :
    fedWrites w' = fedWrites w := by
  rw [fedWrites, hfeeds, fedWrites]

/-- What of a file an fsync has covered. -/
def durablePart (f : Inode D) : List D := f.data.take f.synced

theorem durablePart_append (f : Inode D) (xs : List D) : durablePart (f.append xs) = durablePart f := by
  simp [durablePart, List.take_append_of_le_length f.synced_le]

theorem durablePart_sync (f : Inode D) : durablePart f.sync = f.data := by
  simp [durablePart, Inode.sync]

theorem durablePart_infix (f : Inode D) : durablePart f <:+: f.data := (List.take_prefix _ _).isInfix

section Containing

variable [AofFormat D A δ] {x : Write A}

/-- The command of the write, or a dataset that contains all writes up to its offset. -/
def Contains (x : Write A) (xs : List D) : Prop :=
  AofFormat.enc x.cmd <:+: xs ∨ ∃ d upto, x.off ≤ upto ∧ AofFormat.enc (.base d upto) <:+: xs

theorem Contains.mono {xs ys : List D} (h : Contains x xs) (hsub : xs <:+: ys) : Contains x ys := by
  rcases h with hcmd | ⟨d, upto, hle, hbase⟩
  · exact .inl (hcmd.trans hsub)
  · exact .inr ⟨d, upto, hle, hbase.trans hsub⟩

theorem not_contains_nil : ¬ Contains x ([] : List D) := by
  rintro (hcmd | ⟨d, upto, -, hbase⟩)
  · exact AofFormat.enc_ne_nil _ (List.infix_nil.mp hcmd)
  · exact AofFormat.enc_ne_nil _ (List.infix_nil.mp hbase)

/-- A file of the log has the write on stable storage. -/
def Log.Durable (log : Log D) (x : Write A) : Prop := ∃ f ∈ log.files, Contains x (durablePart f)

namespace Log.Durable

variable {log : Log D}

theorem of_last {last : Inode D} (h : log.Durable x) (hsub : durablePart log.last <:+: durablePart last) :
    Log.Durable { log with last := last } x := by
  obtain ⟨f, hf, hx⟩ := h
  rcases List.mem_append.mp hf with hf | hf
  · exact ⟨f, List.mem_append_left _ hf, hx⟩
  · obtain rfl := List.mem_singleton.mp hf
    exact ⟨last, List.mem_append_right _ List.mem_cons_self, hx.mono hsub⟩

theorem write (h : log.Durable x) (xs : List D) : (log.write xs).Durable x := by
  refine h.of_last ?_
  rw [durablePart_append]

theorem sync (h : log.Durable x) : log.sync.Durable x := by
  refine h.of_last ?_
  rw [durablePart_sync]
  exact durablePart_infix _

theorem switch (h : log.Durable x) : log.switch.Durable x := by
  obtain ⟨f, hf, hx⟩ := h
  refine ⟨f, ?_, hx⟩
  simp only [Log.switch, files, List.mem_append] at hf ⊢
  tauto

/-- What is in the last file is on stable storage once it is fsynced. -/
theorem of_sync (h : Contains x log.last.data) : log.sync.Durable x := by
  refine ⟨log.last.sync, List.mem_append_right _ List.mem_cons_self, ?_⟩
  rw [durablePart_sync]
  exact h

end Log.Durable

end Containing

/-! ## Accounting for the writes -/

section Accounting

variable [AofFormat D A δ] {w w' : World D A δ} {log : Log D} {fd : Nat} {env : FlushEnv}

/-- The reported offset is not ahead of the disk: every write up to it is in a file of the manifest
that was fsynced after the write was stored in it. -/
def DurableOffset (w : World D A δ) : Prop :=
  w.sv.aofState = .on → ∀ o, w.sv.fsyncedReploff = some o → ∀ x ∈ fedWrites w, x.off ≤ o →
    ∃ ai ∈ w.sv.aofManifest.baseAofInfo.toList ++ w.sv.aofManifest.incrAofList,
      ∃ f, w.disk.fs.file (.aof ai.fileName) = some f ∧ Contains x (durablePart f)

/-- What the pending offset and the reported one say. -/
structure Reported (w : World D A δ) (log : Log D) : Prop where
  pending : ∀ x ∈ fedWrites w, x.off ≤ w.sv.fsyncedReploffPending → log.Durable x
  reported : ∀ o, w.sv.fsyncedReploff = some o → o ≤ w.sv.fsyncedReploffPending

/-- Where the writes are. `synced` is what a flush relies on when it finds nothing left to fsync. -/
structure Accounted (w : World D A δ) (log : Log D) : Prop extends Reported w log where
  stored : ∀ x ∈ fedWrites w, log.Durable x ∨ Contains x log.last.data ∨ Contains x w.sv.aofBuf ∨
    Holds w log ∧ Contains x (log.last.data ++ w.sv.aofBuf)
  synced : w.sv.aofLastIncrFsyncOffset = w.sv.aofLastIncrSize →
    ∀ x ∈ fedWrites w, log.Durable x ∨ Contains x w.sv.aofBuf
  offset : w.sv.aofLastIncrFsyncOffset ≤ w.sv.aofLastIncrSize
  size : Appending w → log.last.data.length = w.sv.aofLastIncrSize

omit [AofFormat D A δ] in
theorem Stores.durablePart_infix {ai : AofInfo String} {f : Inode D} (h : Stores w ai f) :
    ∃ f', w.disk.fs.file (.aof ai.fileName) = some f' ∧ durablePart f <:+: durablePart f' := by
  obtain ⟨f', hf', hdata, hsync⟩ := h.exists_some
  refine ⟨f', hf', ?_⟩
  unfold durablePart
  rw [hdata]
  exact (List.take_prefix_take_left hsync).isInfix

/-- Each file of the log is one of the manifest. -/
theorem HoldsWith.durable_file {gaps : Bool} (h : HoldsWith gaps w log) {x : Write A}
    (hx : log.Durable x) :
    ∃ ai ∈ w.sv.aofManifest.baseAofInfo.toList ++ w.sv.aofManifest.incrAofList,
      ∃ f, w.disk.fs.file (.aof ai.fileName) = some f ∧ Contains x (durablePart f) := by
  obtain ⟨f, hf, hcont⟩ := hx
  have hentry : ∀ {ais : List (AofInfo String)} {fs : List (Inode D)}, List.Forall₂ (Stores w) ais fs →
      f ∈ fs → ∃ ai ∈ ais, Stores w ai f := by
    intro ais fs hfs hf
    induction hfs with
    | nil => cases hf
    | cons hst _ ih =>
        rcases List.mem_cons.mp hf with rfl | hf
        · exact ⟨_, List.mem_cons_self, hst⟩
        · obtain ⟨ai, hai, hst'⟩ := ih hf
          exact ⟨ai, List.mem_cons_of_mem _ hai, hst'⟩
  obtain ⟨ai, hai, hst⟩ := hentry h.stores hf
  obtain ⟨f', hf', hsub⟩ := hst.durablePart_infix
  exact ⟨ai, hai, f', hf', hcont.mono hsub⟩

theorem Reported.durableOffset {gaps : Bool} (h : Reported w log) (hlog : HoldsWith gaps w log) :
    DurableOffset w := by
  intro _ o ho x hx hle
  exact hlog.durable_file (h.pending x hx (Nat.le_trans hle (h.reported o ho)))

theorem Reported.of_eq (h : Reported w log) (hfeeds : w'.feeds = w.feeds)
    (hpending : w'.sv.fsyncedReploffPending = w.sv.fsyncedReploffPending)
    (hrep : w'.sv.fsyncedReploff = w.sv.fsyncedReploff) : Reported w' log := by
  refine ⟨?_, ?_⟩
  · rw [fedWrites_congr hfeeds, hpending]
    exact h.pending
  · rw [hpending, hrep]
    exact h.reported

/-- What the account depends on, besides the log. -/
structure SameAccount (w w' : World D A δ) : Prop where
  feeds : w'.feeds = w.feeds
  aofBuf : w'.sv.aofBuf = w.sv.aofBuf
  offset : w'.sv.aofLastIncrFsyncOffset = w.sv.aofLastIncrFsyncOffset
  size : w'.sv.aofLastIncrSize = w.sv.aofLastIncrSize
  pending : w'.sv.fsyncedReploffPending = w.sv.fsyncedReploffPending
  reported : w'.sv.fsyncedReploff = w.sv.fsyncedReploff
  appending : Appending w' → Appending w

/-- Changes to the rest of `server`, and to other files. -/
theorem Accounted.of_same (h : Accounted w log) (hsame : SameAccount w w')
    (hlog : Holds w log → Holds w' log) : Accounted w' log := by
  have hfed := fedWrites_congr hsame.feeds
  refine ⟨h.toReported.of_eq hsame.feeds hsame.pending hsame.reported, ?_, ?_, ?_, ?_⟩
  · rw [hfed, hsame.aofBuf]
    intro x hx
    rcases h.stored x hx with hdur | hlast | hbuf | ⟨hat, hsplit⟩
    · exact .inl hdur
    · exact .inr (.inl hlast)
    · exact .inr (.inr (.inl hbuf))
    · exact .inr (.inr (.inr ⟨hlog hat, hsplit⟩))
  · rw [hfed, hsame.aofBuf, hsame.offset, hsame.size]
    exact h.synced
  · rw [hsame.offset, hsame.size]
    exact h.offset
  · rw [hsame.size]
    exact fun happ => h.size (hsame.appending happ)

/-- Changes to the rest of `server` alone. -/
theorem Accounted.of_sv (h : Accounted w log) (hfs : w'.disk.fs = w.disk.fs)
    (hconf : w'.sv.conf = w.sv.conf) (hman : w'.sv.aofManifest = w.sv.aofManifest)
    (hfd : w'.sv.aofFd = w.sv.aofFd) (hfeeds : w'.feeds = w.feeds)
    (hbuf : w'.sv.aofBuf = w.sv.aofBuf)
    (hoff : w'.sv.aofLastIncrFsyncOffset = w.sv.aofLastIncrFsyncOffset)
    (hsize : w'.sv.aofLastIncrSize = w.sv.aofLastIncrSize)
    (hpending : w'.sv.fsyncedReploffPending = w.sv.fsyncedReploffPending)
    (hrep : w'.sv.fsyncedReploff = w.sv.fsyncedReploff) : Accounted w' log := by
  refine h.of_same ⟨hfeeds, hbuf, hoff, hsize, hpending, hrep, ?_⟩ fun hlog =>
    hlog.of_sv hfs hconf hman hfd
  unfold Appending
  rw [hfd, hfs]
  exact id

/-- The pending offset moves up, with all writes on stable storage. -/
theorem Accounted.all (hfeeds : w'.feeds = w.feeds) (hdurable : ∀ x ∈ fedWrites w, log.Durable x)
    (hoff : w'.sv.aofLastIncrFsyncOffset ≤ w'.sv.aofLastIncrSize)
    (hsize : Appending w' → log.last.data.length = w'.sv.aofLastIncrSize)
    (hrep : ∀ o, w'.sv.fsyncedReploff = some o → o ≤ w'.sv.fsyncedReploffPending) :
    Accounted w' log := by
  have hfed := fedWrites_congr hfeeds
  refine ⟨⟨?_, hrep⟩, ?_, ?_, hoff, hsize⟩
  · exact fun x hx _ => hdurable x (hfed ▸ hx)
  · exact fun x hx => .inl (hdurable x (hfed ▸ hx))
  · exact fun _ x hx => .inl (hdurable x (hfed ▸ hx))

/-- With `aof_buf` empty, an fsync of the last file covers everything. -/
theorem Accounted.sync (h : Accounted w log) (hbuf : w.sv.aofBuf = []) :
    ∀ x ∈ fedWrites w, log.sync.Durable x := by
  intro x hx
  rcases h.stored x hx with hdur | hlast | hpend | ⟨-, hsplit⟩
  · exact hdur.sync
  · exact .of_sync hlast
  · rw [hbuf] at hpend
    exact absurd hpend not_contains_nil
  · rw [hbuf, List.append_nil] at hsplit
    exact .of_sync hsplit

/-! ### Flushes that store all or nothing -/

/-- An fsync with `aof_buf` empty, unless it is a job that fails. -/
theorem Accounted.fsync (h : Accounted w log) (hlog : HoldsWith true w log)
    (hfd : w.sv.aofFd = some fd) (hbuf : w.sv.aofBuf = [])
    (hmaster : w.sv.fsyncedReploffPending ≤ w.sv.masterReplOffset)
    (hjob : w.sv.aofFsync = .everysec → env.fsync = true) (hf : Fsync env fd w w') :
    ∃ log', HoldsWith true w' log' ∧ Accounted w' log' := by
  have hrep : ∀ o, w.sv.fsyncedReploff = some o → o ≤ w.sv.masterReplOffset :=
    fun o ho => Nat.le_trans (h.reported o ho) hmaster
  have hsize : ∀ v : World D A δ, v.sv.aofFd = w.sv.aofFd → v.disk.fs.handle = w.disk.fs.handle →
      Appending v → log.sync.last.data.length = w.sv.aofLastIncrSize := by
    intro v hvfd hhandle happ
    unfold Appending at happ
    rw [hvfd, hhandle] at happ
    exact h.size happ
  cases hf with
  | skipped => exact ⟨log, hlog, h⟩
  | exit =>
      exact ⟨log, hlog.of_sv rfl rfl rfl rfl, h.of_sv rfl rfl rfl rfl rfl rfl rfl rfl rfl rfl⟩
  | always =>
      refine ⟨log.sync, (hlog.fsync hfd).of_sv rfl rfl rfl rfl, ?_⟩
      exact .all (w := w) rfl (h.sync hbuf) (Nat.le_refl _)
        (hsize _ rfl (fsync_handle w.disk.fs fd)) hrep
  | job hpolicy =>
      rw [hjob hpolicy]
      refine ⟨log.sync, (hlog.fsync hfd).of_sv rfl rfl rfl rfl, ?_⟩
      exact .all (w := w) rfl (h.sync hbuf) (Nat.le_refl _)
        (hsize _ rfl (fsync_handle w.disk.fs fd)) hrep

/-- The first `n` units of `aof_buf` go to the last file, and the server takes note of it. The file
then has more than what was fsynced. -/
structure Wrote (fd n : Nat) (w w' : World D A δ) : Prop where
  fs : w'.disk.fs = w.disk.fs.write fd (w.sv.aofBuf.take n)
  conf : w'.sv.conf = w.sv.conf
  aofManifest : w'.sv.aofManifest = w.sv.aofManifest
  aofFd : w'.sv.aofFd = w.sv.aofFd
  feeds : w'.feeds = w.feeds
  aofBuf : w'.sv.aofBuf = w.sv.aofBuf.drop n
  offset : w'.sv.aofLastIncrFsyncOffset = w.sv.aofLastIncrFsyncOffset
  size : w'.sv.aofLastIncrSize = w.sv.aofLastIncrSize + n
  pending : w'.sv.fsyncedReploffPending = w.sv.fsyncedReploffPending
  reported : w'.sv.fsyncedReploff = w.sv.fsyncedReploff

omit [AofFormat D A δ] in
theorem appending_write [Inhabited D] (hfs : w'.disk.fs = w.disk.fs.write fd xs)
    (hfd : w'.sv.aofFd = w.sv.aofFd) (happ : Appending w') : Appending w := by
  unfold Appending at happ ⊢
  rw [hfd, hfs] at happ
  simpa only [write_append] using happ

theorem Accounted.wrote {n : Nat} (h : Accounted w log) (hlog : HoldsWith true w log)
    (hfd : w.sv.aofFd = some fd) (hpos : 0 < n) (hle : n ≤ w.sv.aofBuf.length)
    (hw : Wrote fd n w w') : ∃ log', HoldsWith true w' log' ∧ Accounted w' log' := by
  obtain ⟨gap, hwritten, hgap⟩ := hlog.writeGap hfd (w.sv.aofBuf.take n)
  have hlog' : Holds w' (log.write (gap ++ w.sv.aofBuf.take n)) :=
    hwritten.of_sv hw.fs hw.conf hw.aofManifest hw.aofFd
  have hfed := fedWrites_congr hw.feeds
  refine ⟨_, hlog'.weaken, ⟨?_, ?_⟩, ?_, ?_, ?_, ?_⟩
  · rw [hfed, hw.pending]
    exact fun x hx hoff => (h.pending x hx hoff).write _
  · rw [hw.pending, hw.reported]
    exact h.reported
  · rw [hfed, hw.aofBuf]
    intro x hx
    have hall : (log.write (gap ++ w.sv.aofBuf.take n)).last.data ++ w.sv.aofBuf.drop n =
        log.last.data ++ gap ++ w.sv.aofBuf := by
      show log.last.data ++ (gap ++ w.sv.aofBuf.take n) ++ w.sv.aofBuf.drop n = _
      simp only [List.append_assoc, List.take_append_drop]
    rcases h.stored x hx with hdur | hlast | hbuf | ⟨hat, hsplit⟩
    · exact .inl (hdur.write _)
    · exact .inr (.inl (hlast.mono (List.prefix_append _ _).isInfix))
    · refine .inr (.inr (.inr ⟨hlog', ?_⟩))
      rw [hall]
      exact hbuf.mono (List.suffix_append _ _).isInfix
    · refine .inr (.inr (.inr ⟨hlog', ?_⟩))
      rwa [hall, hgap hat, List.append_nil]
  · intro hoff
    have hbound := h.offset
    rw [hw.offset, hw.size] at hoff
    omega
  · rw [hw.offset, hw.size]
    exact Nat.le_add_right_of_le h.offset
  · intro happ
    have happ' := appending_write hw.fs hw.aofFd happ
    have hlen : (log.write (gap ++ w.sv.aofBuf.take n)).last.data.length = log.last.data.length + n := by
      show (log.last.data ++ (gap ++ w.sv.aofBuf.take n)).length = _
      rw [hgap (hlog.of_appending happ'), List.nil_append, List.length_append, List.length_take,
        Nat.min_eq_left hle]
    rw [hlen, h.size happ', hw.size]

theorem Accounted.flush (h : Accounted w log) (hlog : HoldsWith true w log)
    (hfd : w.sv.aofFd = some fd) (hmaster : w.sv.fsyncedReploffPending ≤ w.sv.masterReplOffset)
    (hjob : w.sv.aofFsync = .everysec → env.fsync = true) (hf : Flush env fd w w') :
    ∃ log', HoldsWith true w' log' ∧ Accounted w' log' := by
  cases hf with
  | idle => exact ⟨log, hlog, h⟩
  | durable hbuf hoff =>
      refine ⟨log, hlog.of_sv rfl rfl rfl rfl, .all (w := w) rfl ?_ h.offset h.size ?_⟩
      · intro x hx
        rcases h.synced hoff x hx with hdur | hpend
        · exact hdur
        · rw [hbuf] at hpend
          exact absurd hpend not_contains_nil
      · exact fun o ho => Nat.le_trans (h.reported o ho) hmaster
  | fsync hbuf hf => exact h.fsync hlog hfd hbuf hmaster hjob hf
  | written hbuf _ hf =>
      have hpos : 0 < w.sv.aofBuf.length := List.length_pos_of_ne_nil hbuf
      have hwrote : Wrote fd w.sv.aofBuf.length w (writeDone fd w) := by
        refine ⟨?_, rfl, rfl, rfl, rfl, ?_, rfl, rfl, rfl, rfl⟩
        · rw [List.take_length]
          rfl
        · rw [List.drop_length]
          rfl
      obtain ⟨log', hlog', h'⟩ := h.wrote hlog hfd hpos le_rfl hwrote
      exact h'.fsync hlog' hfd rfl hmaster hjob hf
  | exit =>
      exact ⟨log, hlog.of_sv rfl rfl rfl rfl, h.of_sv rfl rfl rfl rfl rfl rfl rfl rfl rfl rfl⟩
  | failed =>
      exact ⟨log, hlog.of_sv rfl rfl rfl rfl, h.of_sv rfl rfl rfl rfl rfl rfl rfl rfl rfl rfl⟩

omit [AofFormat D A δ] in
/-- An fsync that is not due does not depend on what fsync would return. -/
theorem tryFsync_not_due (hpolicy : w.sv.aofFsync = .everysec)
    (hdue : ¬ 1000 ≤ w.sv.mstime - w.sv.aofLastFsync) : tryFsync env w = w := by
  unfold tryFsync
  simp [hpolicy, hdue]

/-- The flush comes to an fsync job: one is due, and there is something to fsync. -/
def fsyncJobDue (env : FlushEnv) (sv : Server D A δ) : Prop :=
  sv.aofFsync = .everysec ∧ 1000 ≤ sv.mstime - sv.aofLastFsync ∧
    (sv.aofBuf = [] ∧ sv.aofLastIncrFsyncOffset ≠ sv.aofLastIncrSize ∨
      sv.aofBuf ≠ [] ∧ aofWrite env sv.aofBuf.length = sv.aofBuf.length)

/-- A flush without an fsync job does not depend on what fsync would return. -/
theorem flushAppendOnlyFile_no_job (force : Bool) (hpolicy : w.sv.aofFsync = .everysec)
    (hdue : ¬ fsyncJobDue env w.sv) :
    flushAppendOnlyFile force env w = flushAppendOnlyFile force { env with fsync := true } w := by
  have hlate : 1000 ≤ w.sv.mstime - w.sv.aofLastFsync →
      ¬ (w.sv.aofBuf = [] ∧ w.sv.aofLastIncrFsyncOffset ≠ w.sv.aofLastIncrSize ∨
        w.sv.aofBuf ≠ [] ∧ aofWrite env w.sv.aofBuf.length = w.sv.aofBuf.length) :=
    fun htime hwork => hdue ⟨hpolicy, htime, hwork⟩
  unfold flushAppendOnlyFile
  dsimp only
  split
  · next hbuf =>
      split
      · rfl
      · next hoff =>
          have hnot : ¬ 1000 ≤ w.sv.mstime - w.sv.aofLastFsync :=
            fun htime => hlate htime (.inl ⟨hbuf, hoff⟩)
          simp [hpolicy, hnot]
  · next hbuf =>
      split
      · rfl
      · split
        · next fd _ =>
            have hlen : aofWrite { env with fsync := true } w.sv.aofBuf.length =
                aofWrite env w.sv.aofBuf.length := rfl
            rw [hlen]
            split
            · next hall =>
                have hnot : ¬ 1000 ≤ w.sv.mstime - w.sv.aofLastFsync :=
                  fun htime => hlate htime (.inr ⟨hbuf, hall⟩)
                rw [tryFsync_not_due (w := writeDone fd w) hpolicy hnot,
                  tryFsync_not_due (w := writeDone fd w) hpolicy hnot]
            · rfl
        · rfl

/-! ### Short writes -/

/-- The write of the flush stores a part of `aof_buf`. -/
def ShortWrite (env : FlushEnv) (sv : Server D A δ) : Prop :=
  0 < aofWrite env sv.aofBuf.length ∧ aofWrite env sv.aofBuf.length < sv.aofBuf.length

/-- The fields of `env` that a write of all or nothing leaves open. -/
def allOrNothing (env : FlushEnv) (len : Nat) : FlushEnv :=
  { env with written := if aofWrite env len = len then none else some 0 }

theorem flushAppendOnlyFile_allOrNothing (force : Bool) (hshort : ¬ ShortWrite env w.sv) :
    flushAppendOnlyFile force env w =
      flushAppendOnlyFile force (allOrNothing env w.sv.aofBuf.length) w := by
  have hfsync : ∀ v : World D A δ,
      tryFsync (allOrNothing env w.sv.aofBuf.length) v = tryFsync env v := fun v => rfl
  have hwrite : aofWrite (allOrNothing env w.sv.aofBuf.length) w.sv.aofBuf.length =
      aofWrite env w.sv.aofBuf.length := by
    have hle := aofWrite_le env w.sv.aofBuf.length
    simp only [ShortWrite, not_and, not_lt] at hshort
    simp only [allOrNothing, aofWrite] at hle hshort ⊢
    split <;> split at * <;> grind
  have hfailed : writeFailed (allOrNothing env w.sv.aofBuf.length) 0 w = writeFailed env 0 w := by
    simp [writeFailed, writeShort, shortUndone]
  unfold flushAppendOnlyFile
  simp only [hfsync, hwrite]
  split
  · rfl
  · split
    · rfl
    · split
      · split
        · rfl
        · next hpart =>
            have hzero : aofWrite env w.sv.aofBuf.length = 0 := by
              have hle := aofWrite_le env w.sv.aofBuf.length
              simp only [ShortWrite, not_and, not_lt] at hshort
              omega
            rw [hzero, hfailed]
      · rw [hfailed]

theorem flushAppendOnlyFile_shortWrite (force : Bool) (hfd : w.sv.aofFd = some fd)
    (hshort : ShortWrite env w.sv) :
    flushAppendOnlyFile force env w = writeFailed env (aofWrite env w.sv.aofBuf.length) w := by
  have hpost : flushPostponed force w.sv = false := by
    simp [flushPostponed, aofFsyncInProgress]
  have hbuf : w.sv.aofBuf ≠ [] := by
    intro hnil
    simp [ShortWrite, hnil] at hshort
  unfold flushAppendOnlyFile
  dsimp only
  rw [if_neg hbuf, hpost, if_neg (by simp), hfd]
  dsimp only
  rw [if_neg (Nat.ne_of_lt hshort.2)]

/-- The write of the flush stores a part of `aof_buf`, which is cut off again. -/
def CutsOff (env : FlushEnv) (sv : Server D A δ) : Prop :=
  ShortWrite env sv ∧ env.ftruncate = true

/-- Cutting off a short write takes no stored bytes with it, and a gap behind it parts no write: the
descriptor has `O_APPEND`, or the file is as long as the server takes it to be and has no write in part,
with the rest in `aof_buf`. -/
def CutSpares (w : World D A δ) : Prop :=
  Appending w ∨
    ∃ xs ∈ aofData w, xs.length = w.sv.aofLastIncrSize ∧
      ∀ x ∈ fedWrites w, Contains x (xs ++ w.sv.aofBuf) → Contains x xs ∨ Contains x w.sv.aofBuf

omit [AofFormat D A δ] in
theorem HoldsWith.aofData_eq {gaps : Bool} (h : HoldsWith gaps w log) :
    aofData w = some log.last.data := by
  obtain ⟨-, -, -, init, ai, -, -, hlast, fd, hfd, hd, hto, -⟩ := h
  have hdata := hlast.data
  simp only [Fs.data, file, hto.2] at hdata
  simpa [aofData, hfd, hto.1] using hdata

/-- What cutting off the short write means for the log. -/
theorem Accounted.spares (h : Accounted w log) (hlog : HoldsWith true w log) (hspares : CutSpares w) :
    log.last.data.length = w.sv.aofLastIncrSize ∧
      (Appending w ∨ ∀ x ∈ fedWrites w, log.Durable x ∨ Contains x log.last.data ∨
        Contains x w.sv.aofBuf) := by
  rcases hspares with happ | ⟨xs, hxs, hlen, hwhole⟩
  · exact ⟨h.size happ, .inl happ⟩
  · obtain rfl : log.last.data = xs := Option.some.inj (hlog.aofData_eq.symm.trans hxs)
    refine ⟨hlen, .inr fun x hx => ?_⟩
    rcases h.stored x hx with hdur | hlast | hbuf | ⟨-, hsplit⟩
    · exact .inl hdur
    · exact .inr (.inl hlast)
    · exact .inr (.inr hbuf)
    · exact .inr (hwhole x hx hsplit)

/-- The short write was cut off again. -/
structure Undid (fd n : Nat) (w w' : World D A δ) : Prop extends SameAccount w w' where
  fs : w'.disk.fs = (w.disk.fs.write fd (w.sv.aofBuf.take n)).ftruncate fd w.sv.aofLastIncrSize
  conf : w'.sv.conf = w.sv.conf
  aofManifest : w'.sv.aofManifest = w.sv.aofManifest
  aofFd : w'.sv.aofFd = w.sv.aofFd

theorem Accounted.undid {n : Nat} (h : Accounted w log) (hlog : HoldsWith true w log)
    (hfd : w.sv.aofFd = some fd) (hspares : CutSpares w) (hw : Undid fd n w w') :
    HoldsWith true w' log ∧ Accounted w' log := by
  obtain ⟨hlen, hone⟩ := h.spares hlog hspares
  have hcut := hlog.cutOff hfd (w.sv.aofBuf.take n)
  rw [hlen] at hcut
  have hlog' : HoldsWith true w' log := hcut.of_sv hw.fs hw.conf hw.aofManifest hw.aofFd
  have happ' : Appending w → Appending w' := by
    intro happ
    unfold Appending at happ ⊢
    rw [hw.aofFd, hw.fs]
    simpa only [ftruncate_handle, write_append] using happ
  refine ⟨hlog', ?_⟩
  rcases hone with happ | hone
  · exact h.of_same hw.toSameAccount fun _ => hlog'.of_appending (happ' happ)
  · -- nothing is in two parts, so where the descriptor is does not matter
    have hwhole : ∀ x ∈ fedWrites w', log.Durable x ∨ Contains x log.last.data ∨
        Contains x w'.sv.aofBuf := by
      rw [fedWrites_congr hw.feeds, hw.aofBuf]
      exact hone
    refine ⟨⟨?_, ?_⟩, ?_, ?_, ?_, ?_⟩
    · rw [fedWrites_congr hw.feeds, hw.pending]
      exact h.pending
    · rw [hw.pending, hw.reported]
      exact h.reported
    · intro x hx
      exact (hwhole x hx).imp_right (·.imp_right .inl)
    · rw [fedWrites_congr hw.feeds, hw.aofBuf, hw.offset, hw.size]
      exact h.synced
    · rw [hw.offset, hw.size]
      exact h.offset
    · rw [hw.size]
      exact fun happ => h.size (hw.appending happ)

omit [AofFormat D A δ] in
theorem appending_undone [Inhabited D] {n : Nat} {xs : List D}
    (hfs : w'.disk.fs = (w.disk.fs.write fd xs).ftruncate fd n)
    (hfd : w'.sv.aofFd = w.sv.aofFd) (happ : Appending w') : Appending w := by
  unfold Appending at happ ⊢
  rw [hfd, hfs] at happ
  simpa only [ftruncate_handle, write_append] using happ

/-- A short write under `always` ends the process, otherwise it is accounted for. -/
theorem Accounted.shortWrite (h : Accounted w log) (hlog : HoldsWith true w log)
    (hfd : w.sv.aofFd = some fd) (hshort : ShortWrite env w.sv)
    (hcut : CutsOff env w.sv → CutSpares w) :
    ∃ log', HoldsWith true (writeFailed env (aofWrite env w.sv.aofBuf.length) w) log' ∧
      Reported (writeFailed env (aofWrite env w.sv.aofBuf.length) w) log' ∧
      ((writeFailed env (aofWrite env w.sv.aofBuf.length) w).exited = false →
        Accounted (writeFailed env (aofWrite env w.sv.aofBuf.length) w) log') := by
  obtain ⟨hpos, hlt⟩ := hshort
  generalize hn : aofWrite env w.sv.aofBuf.length = n at *
  have hwrite : writeShort env n w = if shortUndone env n then
      (w.onFs (·.write fd (w.sv.aofBuf.take n))).onFs (·.ftruncate fd w.sv.aofLastIncrSize)
      else w.onFs (·.write fd (w.sv.aofBuf.take n)) := by
    unfold writeShort
    rw [hfd]
    dsimp only
    rw [if_neg (by omega)]
    rfl
  have hundone : shortUndone env n = env.ftruncate := by
    simp [shortUndone, hpos]
  unfold writeFailed
  rw [hwrite, hundone]
  cases htrunc : env.ftruncate with
  | true =>
      have hspares := hcut ⟨⟨hn ▸ hpos, hn ▸ hlt⟩, htrunc⟩
      simp only [if_true]
      split
      · have hw : Undid fd n w (World.exit ((w.onFs (·.write fd (w.sv.aofBuf.take n))).onFs
            (·.ftruncate fd w.sv.aofLastIncrSize))) :=
          ⟨⟨rfl, rfl, rfl, rfl, rfl, rfl, appending_undone rfl rfl⟩, rfl, rfl, rfl, rfl⟩
        obtain ⟨hlog', h'⟩ := h.undid hlog hfd hspares hw
        exact ⟨log, hlog', h'.toReported, fun _ => h'⟩
      · refine Exists.intro log ?_
        have hw : Undid fd n w (((w.onFs (·.write fd (w.sv.aofBuf.take n))).onFs
            (·.ftruncate fd w.sv.aofLastIncrSize)).set fun sv => { sv with
              aofFlushPostponedStart := 0
              aofLastWriteStatus := .err
              aofCurrentSize := sv.aofCurrentSize + 0
              aofLastIncrSize := sv.aofLastIncrSize + 0
              aofBuf := sv.aofBuf.drop 0 }) :=
          ⟨⟨rfl, rfl, rfl, rfl, rfl, rfl, appending_undone rfl rfl⟩, rfl, rfl, rfl, rfl⟩
        obtain ⟨hlog', h'⟩ := h.undid hlog hfd hspares hw
        exact ⟨hlog', h'.toReported, fun _ => h'⟩
  | false =>
      simp only [Bool.false_eq_true, if_false]
      split
      · -- the process ends before `aof_buf` is cut
        obtain ⟨gap, hwritten, -⟩ := hlog.writeGap hfd (w.sv.aofBuf.take n)
        refine ⟨_, hwritten.weaken.of_sv rfl rfl rfl rfl, ⟨?_, h.reported⟩, ?_⟩
        · exact fun x hx hoff => (h.pending x hx hoff).write _
        · intro hrun
          cases hrun
      · have hw : Wrote fd n w ((w.onFs (·.write fd (w.sv.aofBuf.take n))).set fun sv => { sv with
              aofFlushPostponedStart := 0
              aofLastWriteStatus := .err
              aofCurrentSize := sv.aofCurrentSize + n
              aofLastIncrSize := sv.aofLastIncrSize + n
              aofBuf := sv.aofBuf.drop n }) :=
          ⟨rfl, rfl, rfl, rfl, rfl, rfl, rfl, rfl, rfl, rfl⟩
        obtain ⟨log', hlog', h'⟩ := h.wrote hlog hfd hpos hlt.le hw
        exact ⟨log', hlog', h'.toReported, fun _ => h'⟩

/-- A flush may not fail its fsync job, nor cut off a short write where that does harm. -/
structure FlushSyncs (w : World D A δ) (env : FlushEnv) : Prop where
  fsync : fsyncJobDue env w.sv → env.fsync = true
  cut : CutsOff env w.sv → CutSpares w

omit [AofFormat D A δ] in
theorem fsyncJobDue_allOrNothing (h : fsyncJobDue (allOrNothing env w.sv.aofBuf.length) w.sv) :
    fsyncJobDue env w.sv := by
  obtain ⟨hpolicy, htime, hwork⟩ := h
  refine ⟨hpolicy, htime, hwork.imp_right fun ⟨hbuf, hall⟩ => ⟨hbuf, ?_⟩⟩
  by_contra hne
  have hlen : w.sv.aofBuf.length ≠ 0 := fun h0 => hbuf (List.eq_nil_of_length_eq_zero h0)
  rw [allOrNothing, if_neg hne] at hall
  simp only [aofWrite, Nat.zero_min] at hall
  exact hlen hall.symm

/-- A flush with the AOF on. -/
theorem Accounted.flushed (h : Accounted w log) (hlog : HoldsWith true w log) (force : Bool)
    (hmaster : w.sv.fsyncedReploffPending ≤ w.sv.masterReplOffset) (hok : FlushSyncs w env) :
    ∃ log', HoldsWith true (flushAppendOnlyFile force env w) log' ∧
      Reported (flushAppendOnlyFile force env w) log' ∧
      ((flushAppendOnlyFile force env w).exited = false →
        Accounted (flushAppendOnlyFile force env w) log') := by
  obtain ⟨-, -, -, init, ai, -, -, -, fd, hfd, -⟩ := id hlog
  by_cases hshort : ShortWrite env w.sv
  · rw [flushAppendOnlyFile_shortWrite force hfd hshort]
    exact h.shortWrite hlog hfd hshort hok.cut
  · have hwhole : (allOrNothing env w.sv.aofBuf.length).Whole := by
      unfold FlushEnv.Whole allOrNothing
      dsimp only
      split
      · exact .inl rfl
      · exact .inr rfl
    have hflush : ∃ log', HoldsWith true (flushAppendOnlyFile force env w) log' ∧
        Accounted (flushAppendOnlyFile force env w) log' := by
      rw [flushAppendOnlyFile_allOrNothing force hshort]
      by_cases hjob : w.sv.aofFsync = .everysec → env.fsync = true
      · have hjob' : w.sv.aofFsync = .everysec →
            (allOrNothing env w.sv.aofBuf.length).fsync = true := hjob
        exact h.flush hlog hfd hmaster hjob' (flushAppendOnlyFile_flush force _ hwhole hfd)
      · obtain ⟨hpolicy, hfail⟩ := Classical.not_imp.mp hjob
        rw [flushAppendOnlyFile_no_job force hpolicy fun hdue =>
          hfail (hok.fsync (fsyncJobDue_allOrNothing hdue))]
        exact h.flush hlog hfd hmaster (fun _ => rfl) (flushAppendOnlyFile_flush force _ hwhole hfd)
    obtain ⟨log', hlog', h'⟩ := hflush
    exact ⟨log', hlog', h'.toReported, fun _ => h'⟩

end Accounting

end WasiPorts.Redis.Aof
