import WasiPorts.Redis.Aof.Files
import WasiPorts.Redis.Aof.WellFormed

/-!
# The synchronous rewrite of an enable

What the WASI branch of `startAppendOnly` does to the disk, for every choice of the steps that
fail. There are three ways through it:

* a step up to the rename of the new manifest fails: only new files were touched
  (`startSync_stopped`);
* the fsync of the directory after that rename fails, or nothing does: the new manifest is on
  disk, after a point at which its two files were complete (`startSync_replaced`).
-/

namespace WasiPorts.Redis.Aof

open WasiPorts.Posix WasiPorts.Posix.Fs

variable {D A δ : Type}

/-! ## The new files -/

section Names

variable (sv : Server D A δ)

/-- The BASE file the next rewrite creates. -/
def newBaseName : String := sv.conf.baseName (sv.aofManifest.currBaseFileSeq + 1)

/-- The INCR file the next rewrite creates. -/
def newIncrName : String := sv.conf.incrName (sv.aofManifest.currIncrFileSeq + 1)

/-- The manifest of a rewrite: all other files become HISTORY files. -/
def rewrittenManifest : AofManifest String :=
  markRewrittenIncrAofAsHistory true
    ((sv.aofManifest.pushBase (newBaseName sv)).pushIncr (newIncrName sv))

/-- The files an enable may touch before the new manifest is in place. -/
def newPaths : Set Path :=
  { p | (∃ n, p = .cwd n) ∨ (∃ n ∈ sv.conf.tempNames, p = .aof n) ∨ p = .aof (newBaseName sv) ∨
    p = .aof (newIncrName sv) }

/-- The descriptor of the AOF, if it is open. -/
def aofFds : Set Nat := { fd | sv.aofFd = some fd }

theorem cwd_mem_newPaths (n : String) : Path.cwd n ∈ newPaths sv := .inl ⟨n, rfl⟩

theorem temp_mem_newPaths : Path.aof sv.conf.tempIncrAofName ∈ newPaths sv :=
  .inr (.inl ⟨_, sv.conf.tempIncr_mem_temp, rfl⟩)

theorem tempManifest_mem_newPaths : Path.aof sv.conf.tempManifestName ∈ newPaths sv :=
  .inr (.inl ⟨_, sv.conf.tempManifest_mem_temp, rfl⟩)

theorem base_mem_newPaths : Path.aof (newBaseName sv) ∈ newPaths sv := .inr (.inr (.inl rfl))

theorem incr_mem_newPaths : Path.aof (newIncrName sv) ∈ newPaths sv := .inr (.inr (.inr rfl))

/-- The manifest is the new pair of files and the history. -/
theorem rewrittenManifest_eq :
    rewrittenManifest sv =
      { baseAofInfo := some ⟨newBaseName sv, sv.aofManifest.currBaseFileSeq + 1, .base⟩
        historyAofList := sv.aofManifest.incrAofList.map (·.toHist) ++
          ((sv.aofManifest.baseAofInfo.map (·.toHist)).toList ++ sv.aofManifest.historyAofList)
        incrAofList := [⟨newIncrName sv, sv.aofManifest.currIncrFileSeq + 1, .incr⟩]
        currBaseFileSeq := sv.aofManifest.currBaseFileSeq + 1
        currIncrFileSeq := sv.aofManifest.currIncrFileSeq + 1
        dirty := true } := by
  unfold rewrittenManifest markRewrittenIncrAofAsHistory AofManifest.pushBase AofManifest.pushIncr
  simp

theorem rewrittenManifest_hist {n : String}
    (h : n ∈ (rewrittenManifest sv).historyAofList.map (·.fileName)) :
    n ∈ sv.aofManifest.names := by
  rw [rewrittenManifest_eq] at h
  rw [AofManifest.names_eq]
  simp only [List.map_append, AofManifest.map_toHist_fileName, List.mem_append] at h ⊢
  obtain h | h | h := h
  · exact .inr h
  · refine .inl (.inl ?_)
    simpa [AofInfo.toHist] using h
  · exact .inl (.inr h)

end Names

/-! ## Deleting the history -/

/-- The manifest without HISTORY entries. -/
def AofManifest.noHistory (am : AofManifest String) (dirty : Bool) : AofManifest String :=
  { am with historyAofList := [], dirty := dirty }

/-- `aofDelHistoryFiles` deletes something. -/
def DeletesHistory (w : World D A δ) : Prop :=
  ¬ (w.sv.conf.aofDisableAutoGc = true ∨ w.sv.aofManifest.historyAofList = [])

/-- `aofDelHistoryFiles` does nothing, or it deletes the files and then tries to write the manifest
without them. -/
theorem aofDelHistoryFiles_cases (env : ManifestWrite) (w : World D A δ) :
    ¬ DeletesHistory w ∧ aofDelHistoryFiles env w = w ∨
      DeletesHistory w ∧ aofDelHistoryFiles env w =
        (writeAofManifestFile env (w.sv.aofManifest.noHistory true).lines
          (w.unlinkAll w.sv.aofManifest.historyAofList)).set fun sv => { sv with
            aofManifest := w.sv.aofManifest.noHistory (env.status = .err) } := by
  have hsv : (w.unlinkAll w.sv.aofManifest.historyAofList).sv.aofManifest = w.sv.aofManifest :=
    (unlinkAll_frame _ w).aofManifest
  unfold aofDelHistoryFiles
  split
  · next hkeep => exact .inl ⟨not_not.mpr hkeep, rfl⟩
  · next hdel =>
      refine .inr ⟨hdel, ?_⟩
      dsimp only
      rw [hsv]
      rfl

theorem unlinkAll_sv (ais : List (AofInfo String)) (w : World D A δ) :
    (w.unlinkAll ais).sv = w.sv := by
  induction ais generalizing w with
  | nil => rfl
  | cons ai ais ih => exact ih (w.bgUnlink (.aof ai.fileName))

/-- Only the manifest changes in `server`. -/
theorem aofDelHistoryFiles_sv (env : ManifestWrite) (w : World D A δ) :
    ∃ am, (aofDelHistoryFiles env w).sv = { w.sv with aofManifest := am } := by
  obtain ⟨-, heq⟩ | ⟨-, heq⟩ := aofDelHistoryFiles_cases env w
  · rw [heq]
    exact ⟨w.sv.aofManifest, rfl⟩
  · refine ⟨w.sv.aofManifest.noHistory (env.status = .err), ?_⟩
    rw [heq, World.set, writeAofManifestFile_sv, unlinkAll_sv]

/-- The HISTORY files, and the temporary manifest. -/
def historyPaths (w : World D A δ) : Set Path :=
  { p | (∃ n ∈ w.sv.aofManifest.historyAofList.map (·.fileName), p = .aof n) ∨ p = tempManifest w }

theorem unlinkHistory_touches (w : World D A δ) :
    Touches (historyPaths w) ∅ w (w.unlinkAll w.sv.aofManifest.historyAofList) :=
  unlinkAll_touches _ w fun _ hai => .inl ⟨_, List.mem_map_of_mem hai, rfl⟩

theorem unlinkHistory_temp (w : World D A δ) :
    {tempManifest (w.unlinkAll w.sv.aofManifest.historyAofList)} ⊆ historyPaths w := by
  have hconf := congrArg (·.conf) (unlinkAll_sv w.sv.aofManifest.historyAofList w)
  rw [tempManifest_eq (w := w) hconf, Set.singleton_subset_iff]
  exact .inr rfl

theorem aofDelHistoryFiles_keeps (env : ManifestWrite) (w : World D A δ) :
    Keeps (historyPaths w) ∅ w.disk.fs (aofDelHistoryFiles env w).disk.fs := by
  obtain ⟨-, heq⟩ | ⟨-, heq⟩ := aofDelHistoryFiles_cases env w
  · rw [heq]
    exact .refl _
  · have hwrite := writeAofManifestFile_persisted env (w.sv.aofManifest.noHistory true).lines
      (w.unlinkAll w.sv.aofManifest.historyAofList)
    rw [heq]
    exact (unlinkHistory_touches w).keeps.trans
      (hwrite.keeps.mono (unlinkHistory_temp w) (Set.empty_subset _))

/-- Unless it comes to replacing the manifest file, only other files are touched. -/
theorem aofDelHistoryFiles_touches (env : ManifestWrite) (w : World D A δ)
    (hrep : DeletesHistory w → env.replaced = false) :
    Touches (historyPaths w) ∅ w (aofDelHistoryFiles env w) := by
  obtain ⟨-, heq⟩ | ⟨hdel, heq⟩ := aofDelHistoryFiles_cases env w
  · rw [heq]
    exact .refl w
  · have hwrite := (writeAofManifestFile_persisted env (w.sv.aofManifest.noHistory true).lines
      (w.unlinkAll w.sv.aofManifest.historyAofList)).touches (hrep hdel)
    rw [heq]
    exact ((unlinkHistory_touches w).trans
      (hwrite.mono (unlinkHistory_temp w) (Set.empty_subset _))).trans (.of_disk rfl rfl)

/-! ## Up to the new manifest -/

/-- `p` is an empty file, and the one appended to if the old descriptor was a real one. -/
structure NewIncr (w : World D A δ) (p : Path) (fd : Nat) (w' : World D A δ) : Prop where
  file : ∃ f, w'.disk.fs.file p = some f ∧ f.data = []
  openAt : FdValid w → w'.disk.fs.OpenAt fd p

variable {w v v' : World D A δ} {S : Set Path} {p q : Path} {fd : Nat}

theorem NewIncr.keeps (h : NewIncr w p fd v) (hk : Keeps S ∅ v.disk.fs v'.disk.fs) (hp : p ∉ S) :
    NewIncr w p fd v' := by
  refine ⟨?_, fun hfd => hk.openAt p hp fd (Set.notMem_empty fd) (h.openAt hfd)⟩
  obtain ⟨f, hf, hempty⟩ := h.file
  have hsame := hk.file p hp
  rw [hf] at hsame
  obtain ⟨f', hf', hdata, -⟩ := hsame.exists_some
  exact ⟨f', hf', hdata.trans hempty⟩

theorem NewIncr.rename (h : NewIncr w p fd v) :
    NewIncr w q fd (v.onFs (·.rename p q)) := by
  obtain ⟨f, hf, hempty⟩ := h.file
  exact ⟨⟨f, rename_file_to hf, hempty⟩, fun hfd => (h.openAt hfd).rename⟩

/-- `openNewIncrAofForAppend` of an enable, when the file can be opened. -/
theorem openTemp_newIncr (env : OpenIncrEnv) (hwait : w.sv.aofState = .waitRewrite)
    (hopen : env.openNew = true) :
    ∃ fd v, openNewIncrAofForAppend env w = (.ok, v) ∧ Reopened fd w.sv.aofManifest w v ∧
      Touches {.aof w.sv.conf.tempIncrAofName} (aofFds w.sv) w v ∧
      NewIncr w (.aof w.sv.conf.tempIncrAofName) fd v := by
  generalize htemp : Path.aof w.sv.conf.tempIncrAofName = temp
  generalize hw' : (w.onFs fun fs => (fs.openFile temp true false).2) = w'
  have hsv : w'.sv = w.sv := by
    subst hw'
    rfl
  have hopened : Touches {temp} (aofFds w.sv) w w' := by
    subst hw'
    exact Touches.onFs (.openFile _ true false rfl)
  have hswitch : Touches ∅ (aofFds w.sv) w'
      (switchIncr env.closeFsync w.disk.fs.nextFd w.sv.aofManifest w') :=
    switchIncr_touches _ _ _ fun fd hfd => hsv ▸ hfd
  refine ⟨w.disk.fs.nextFd, _, ?_, ?_, hopened.trans (hswitch.mono (Set.empty_subset _) le_rfl), ?_⟩
  · rw [openNewIncrAofForAppend_wait env hwait]
    dsimp only
    rw [if_neg (by simp [hopen]), htemp, hw']
    rfl
  · subst hw'
    exact (switchIncr_reopened env.closeFsync w.disk.fs.nextFd w.sv.aofManifest _).ofDisk
  · have hnew : w'.disk.fs.file temp = some .new := by
      subst hw'
      exact openFile_file_self true false
    have hsame := hswitch.keeps.file temp (Set.notMem_empty _)
    rw [hnew] at hsame
    obtain ⟨f, hf, hdata, -⟩ := hsame.exists_some
    refine ⟨⟨f, hf, hdata⟩, fun hvalid => ?_⟩
    apply hswitch.keeps.openAt temp (Set.notMem_empty _)
    · -- the new descriptor is not the old one
      intro hfd
      exact Nat.lt_irrefl _ (hvalid _ hfd)
    · subst hw'
      exact openFile_openAt (.inl rfl)

/-- The renames of `adoptRewrite`, with the names that `sv` determines. -/
def renamedBase (sv : Server D A δ) (v : World D A δ) : World D A δ :=
  v.onFs (·.rename (.cwd syncTempName) (.aof (newBaseName sv)))

def renamedIncr (sv : Server D A δ) (v : World D A δ) : World D A δ :=
  (renamedBase sv v).onFs (·.rename (.aof sv.conf.tempIncrAofName) (.aof (newIncrName sv)))

/-- `adoptRewrite` with the new INCR file open. -/
theorem adoptRewrite_eq (env : StartEnv) (hfd : v.sv.aofFd = some fd) :
    adoptRewrite env v =
      let base := Path.aof (newBaseName v.sv)
      let incr := Path.aof (newIncrName v.sv)
      let v₃ := writeAofManifestFile env.persist (rewrittenManifest v.sv).lines
        (renamedIncr v.sv v)
      if env.renameBase = false then startFailedDelTemp v
      else if env.renameIncr = false then startFailedDelTemp ((renamedBase v.sv v).bgUnlink base)
      else if env.persist.status = .err then startFailedDelTemp ((v₃.bgUnlink base).bgUnlink incr)
      else
        (.ok, installRewrite env (newBaseName v.sv)
          { rewrittenManifest v.sv with dirty := false } v₃) := by
  have hopen : ∀ f g, ((v.onFs f).onFs g).sv.aofFd.isSome = true := by
    intro f g
    show v.sv.aofFd.isSome = true
    rw [hfd]
    rfl
  unfold adoptRewrite
  dsimp only [getNewBaseFileNameAndMarkPreAsHistory, getNewIncrAofName]
  cases env.renameBase with
  | false => rfl
  | true =>
      cases env.renameIncr with
      | false => rfl
      | true =>
          rw [hopen]
          generalize ham : markRewrittenIncrAofAsHistory true _ = am
          have hdirty : am.dirty = true := by
            rw [← ham]
            exact congrArg (·.dirty) (rewrittenManifest_eq v.sv)
          rw [show rewrittenManifest v.sv = am from ham]
          simp only [persistAofManifest, hdirty]
          cases env.persist.status <;> rfl

section Sync

variable [AofFormat D A δ]

/-- The file `p` holds the dataset of `w`, all of it on stable storage. -/
def BaseFile (w : World D A δ) (p : Path) (v : World D A δ) : Prop :=
  ∃ f, v.disk.fs.file p = some f ∧ f.data = baseContents w ∧ f.synced = f.data.length

theorem BaseFile.keeps {C : Set Nat} (h : BaseFile w p v) (hk : Keeps S C v.disk.fs v'.disk.fs)
    (hp : p ∉ S) : BaseFile w p v' := by
  obtain ⟨f, hf, hdata, hsync⟩ := h
  have hsame := hk.file p hp
  rw [hf] at hsame
  obtain ⟨f', hf', hdata', hsync'⟩ := hsame.exists_some
  refine ⟨f', hf', hdata'.trans hdata, ?_⟩
  have := f'.synced_le
  rw [hdata'] at this ⊢
  omega

/-- The steps of `startSync` before the renames. -/
def StartEnv.rewritten (env : StartEnv) : Bool :=
  env.dirCreate && env.incr.openNew && decide (env.rewrite = .success)

/-- All steps up to the rename of the new manifest succeed. -/
def StartEnv.replaces (env : StartEnv) : Bool :=
  env.rewritten && env.renameBase && env.renameIncr && env.persist.replaced

/-- Both files of the rewrite are complete, under temporary names. -/
structure Rewritten (w : World D A δ) (fd : Nat) (v : World D A δ) : Prop where
  reopened : Reopened fd w.sv.aofManifest (prepareRewrite w) v
  touches : Touches (newPaths w.sv) (aofFds w.sv) w v
  incr : NewIncr w (.aof w.sv.conf.tempIncrAofName) fd v
  base : BaseFile w (.cwd syncTempName) v

omit [AofFormat D A δ] in
theorem prepareRewrite_touches {C : Set Nat} (w : World D A δ) :
    Touches S C w (prepareRewrite w) :=
  (Touches.dirCreate w).trans (.of_disk rfl rfl)

omit [AofFormat D A δ] in
/-- Opening the temporary INCR file and saving the dataset touch new files only. -/
theorem newFiles_touches {n m : String}
    (hopen : Touches {.aof w.sv.conf.tempIncrAofName} (aofFds w.sv) (prepareRewrite w) v)
    (hsave : Touches {.cwd n, .cwd m} ∅ v v') :
    Touches (newPaths w.sv) (aofFds w.sv) w v' := by
  refine ((prepareRewrite_touches w).trans (hopen.mono ?_ le_rfl)).trans
    (hsave.mono ?_ (Set.empty_subset _))
  · rw [Set.singleton_subset_iff]
    exact temp_mem_newPaths w.sv
  · rw [Set.pair_subset_iff]
    exact ⟨cwd_mem_newPaths w.sv n, cwd_mem_newPaths w.sv m⟩

theorem startSync_rewritten (env : StartEnv) (hwait : w.sv.aofState = .waitRewrite)
    (h : env.rewritten = true) :
    ∃ fd v, startSync env w = adoptRewrite env v ∧ Rewritten w fd v := by
  obtain ⟨⟨hdir, hopen⟩, hrewrite⟩ : (env.dirCreate = true ∧ env.incr.openNew = true) ∧
      env.rewrite = .success := by
    simpa [StartEnv.rewritten] using h
  have hwait' : (prepareRewrite w).sv.aofState = .waitRewrite := hwait
  obtain ⟨fd, v, hv, hre, htouch, hincr⟩ := openTemp_newIncr env.incr hwait' hopen
  generalize hr : rewriteAppendOnlyFile env.rewrite (.cwd syncTempName) v = r
  have hok : r.1 = .ok := by
    rw [← hr, rewriteAppendOnlyFile_ok_iff]
    exact hrewrite
  have hbase := rewriteAppendOnlyFile_file env.rewrite (.cwd syncTempName) v (hr ▸ hok)
  have htouch' := rewriteAppendOnlyFile_touches env.rewrite (.cwd syncTempName) v
  obtain ⟨dk, tr, hdisk⟩ := rewriteAppendOnlyFile_onDisk env.rewrite (.cwd syncTempName) v
  rw [hr] at hbase htouch' hdisk
  refine ⟨fd, r.2, ?_, ?_, ?_, ?_, ?_⟩
  · unfold startSync
    rw [if_neg (by simp [hdir]), hv]
    dsimp only
    rw [hr]
    obtain ⟨st, v'⟩ := r
    obtain rfl : st = .ok := hok
    rfl
  · rw [hdisk]
    exact hre.onDisk dk tr
  · exact newFiles_touches htouch htouch'
  · have hincr' := hincr.keeps htouch'.keeps (by simp)
    exact ⟨hincr'.file, hincr'.openAt⟩
  · obtain ⟨f, hf, hdata, hsync⟩ := hbase
    refine ⟨f, hf, ?_, hsync⟩
    rw [hdata, baseContents, hre.control.dataset, hre.control.masterReplOffset]
    rfl

/-- A failed enable that left the manifest on disk alone. -/
structure Stopped (w w' : World D A δ) : Prop where
  touches : Touches (newPaths w.sv) (aofFds w.sv) w w'
  aofManifest : w'.sv.aofManifest = w.sv.aofManifest
  aofBuf : w'.sv.aofBuf = w.sv.aofBuf
  pending : w'.sv.fsyncedReploffPending = w.sv.fsyncedReploffPending ∨
    w'.sv.fsyncedReploffPending = w.sv.masterReplOffset

omit [AofFormat D A δ] in
theorem Stopped.failed (h : Stopped w v) : Stopped w (startFailed v).2 :=
  ⟨h.touches.trans (.of_disk rfl rfl), h.aofManifest, h.aofBuf, h.pending⟩

omit [AofFormat D A δ] in
theorem Stopped.bgUnlink (h : Stopped w v) (hp : p ∈ newPaths w.sv) : Stopped w (v.bgUnlink p) := by
  have hunlink : Touches (newPaths w.sv) (aofFds w.sv) v (v.bgUnlink p) :=
    Touches.onFs (.unlink _ hp)
  exact ⟨h.touches.trans hunlink, h.aofManifest, h.aofBuf, h.pending⟩

omit [AofFormat D A δ] in
theorem Stopped.failedDelTemp (h : Stopped w v) (hconf : v.sv.conf = w.sv.conf) :
    Stopped w (startFailedDelTemp v).2 := by
  have hfailed : Stopped w (v.set fun sv => { sv with aofState := .off }) := h.failed
  apply hfailed.bgUnlink
  show Path.aof v.sv.conf.tempIncrAofName ∈ _
  rw [hconf]
  exact temp_mem_newPaths w.sv

omit [AofFormat D A δ] in
theorem Reopened.stopped (h : Reopened fd w.sv.aofManifest (prepareRewrite w) v)
    (ht : Touches (newPaths w.sv) (aofFds w.sv) w v) : Stopped w v :=
  ⟨ht, h.aofManifest, h.aofBuf, h.pending⟩

/-- An enable that fails before the renames. -/
theorem startSync_early (env : StartEnv) (hwait : w.sv.aofState = .waitRewrite)
    (h : env.rewritten = false) :
    (startSync env w).1 = .err ∧ Stopped w (startSync env w).2 := by
  have hwait' : (prepareRewrite w).sv.aofState = .waitRewrite := hwait
  have hprep : Stopped w (prepareRewrite w) :=
    ⟨prepareRewrite_touches w, rfl, rfl, .inl rfl⟩
  unfold startSync
  cases hdir : env.dirCreate with
  | false => exact ⟨rfl, (⟨.refl w, rfl, rfl, .inl rfl⟩ : Stopped w w).failed⟩
  | true =>
      rw [if_neg (by simp)]
      cases hopen : env.incr.openNew with
      | false =>
          have herr : openNewIncrAofForAppend env.incr (prepareRewrite w) =
              (.err, prepareRewrite w) := by
            rw [openNewIncrAofForAppend_wait env.incr hwait']
            dsimp only
            rw [if_pos hopen]
          rw [herr]
          exact ⟨rfl, hprep.failed⟩
      | true =>
          obtain ⟨fd, v, hv, hre, htouch, -⟩ :=
            openTemp_newIncr env.incr hwait' hopen
          have hne : ¬ env.rewrite = .success := by
            simpa [StartEnv.rewritten, hdir, hopen] using h
          have herr : (rewriteAppendOnlyFile env.rewrite (.cwd syncTempName) v).1 ≠ .ok := by
            rw [Ne, rewriteAppendOnlyFile_ok_iff]
            exact hne
          have htouch' := rewriteAppendOnlyFile_touches env.rewrite (.cwd syncTempName) v
          obtain ⟨dk, tr, hdisk⟩ := rewriteAppendOnlyFile_onDisk env.rewrite (.cwd syncTempName) v
          rw [hv]
          dsimp only
          generalize rewriteAppendOnlyFile env.rewrite (.cwd syncTempName) v = r at *
          obtain ⟨st, v'⟩ := r
          cases st with
          | ok => exact absurd rfl herr
          | err =>
              obtain rfl : v' = { v with disk := dk, trace := tr } := hdisk
              have htouches : Touches (newPaths w.sv) (aofFds w.sv) w _ := newFiles_touches htouch htouch'
              exact ⟨rfl, ((hre.onDisk dk tr).stopped htouches).failedDelTemp hre.control.conf⟩

/-- Both files of the rewrite are complete, under their final names. -/
structure Renamed (w : World D A δ) (fd : Nat) (v : World D A δ) : Prop where
  reopened : Reopened fd w.sv.aofManifest (prepareRewrite w) v
  touches : Touches (newPaths w.sv) (aofFds w.sv) w v
  incr : NewIncr w (.aof (newIncrName w.sv)) fd v
  base : BaseFile w (.aof (newBaseName w.sv)) v

omit [AofFormat D A δ] in
theorem renamedBase_touches (sv : Server D A δ) (v : World D A δ) :
    Touches {.cwd syncTempName, .aof (newBaseName sv)} ∅ v (renamedBase sv v) :=
  Touches.onFs (.rename _ (Set.mem_insert _ _) (by simp))

theorem Rewritten.stopped (h : Rewritten w fd v) : Stopped w v := h.reopened.stopped h.touches

theorem Rewritten.stopped_renamedBase (h : Rewritten w fd v) : Stopped w (renamedBase w.sv v) := by
  have hsub : {.cwd syncTempName, .aof (newBaseName w.sv)} ⊆ newPaths w.sv := by
    rw [Set.pair_subset_iff]
    exact ⟨cwd_mem_newPaths _ _, base_mem_newPaths _⟩
  exact (h.reopened.onDisk _ _).stopped
    (h.touches.trans ((renamedBase_touches w.sv v).mono hsub (Set.empty_subset _)))

theorem Rewritten.renamed (h : Rewritten w fd v) : Renamed w fd (renamedIncr w.sv v) := by
  have hrename : Touches {.aof w.sv.conf.tempIncrAofName, .aof (newIncrName w.sv)} ∅
      (renamedBase w.sv v) (renamedIncr w.sv v) :=
    Touches.onFs (.rename _ (Set.mem_insert _ _) (by simp))
  refine ⟨h.reopened.onDisk _ _, ?_, ?_, ?_⟩
  · have hsub : {.aof w.sv.conf.tempIncrAofName, .aof (newIncrName w.sv)} ⊆ newPaths w.sv := by
      rw [Set.pair_subset_iff]
      exact ⟨temp_mem_newPaths _, incr_mem_newPaths _⟩
    exact h.stopped_renamedBase.touches.trans (hrename.mono hsub (Set.empty_subset _))
  · refine (h.incr.keeps (renamedBase_touches w.sv v).keeps ?_).rename
    simpa [newBaseName] using (w.sv.conf.baseName_ne_own w.sv.conf.tempIncr_mem_own _).symm
  · obtain ⟨f, hf, hbase⟩ := h.base
    have hmoved : BaseFile w (.aof (newBaseName w.sv)) (renamedBase w.sv v) :=
      ⟨f, rename_file_to hf, hbase⟩
    refine hmoved.keeps hrename.keeps ?_
    simp [newBaseName, newIncrName, Conf.baseName_ne_own _ (Conf.tempIncr_mem_own _),
      Conf.baseName_ne_incrName]

theorem Rewritten.adopt_eq (h : Rewritten w fd v) (env : StartEnv) :
    adoptRewrite env v =
      let base := Path.aof (newBaseName w.sv)
      let incr := Path.aof (newIncrName w.sv)
      let v₃ := writeAofManifestFile env.persist (rewrittenManifest w.sv).lines
        (renamedIncr w.sv v)
      if env.renameBase = false then startFailedDelTemp v
      else if env.renameIncr = false then startFailedDelTemp ((renamedBase w.sv v).bgUnlink base)
      else if env.persist.status = .err then startFailedDelTemp ((v₃.bgUnlink base).bgUnlink incr)
      else
        (.ok, installRewrite env (newBaseName w.sv)
          { rewrittenManifest w.sv with dirty := false } v₃) := by
  have hconf : v.sv.conf = w.sv.conf := h.reopened.control.conf
  have hbase : newBaseName v.sv = newBaseName w.sv := by
    rw [newBaseName, newBaseName, hconf, h.reopened.aofManifest]
  have hincr : newIncrName v.sv = newIncrName w.sv := by
    rw [newIncrName, newIncrName, hconf, h.reopened.aofManifest]
  have hman : rewrittenManifest v.sv = rewrittenManifest w.sv := by
    rw [rewrittenManifest, rewrittenManifest, hbase, hincr, h.reopened.aofManifest]
  rw [adoptRewrite_eq env h.reopened.aofFd]
  simp only [renamedIncr, renamedBase, hconf, hbase, hincr, hman]

/-- The new manifest could not be put in place. -/
theorem Renamed.persistStopped (h : Renamed w fd v) (env : ManifestWrite)
    (lines : List (AofInfo String)) (hrep : env.replaced = false) :
    Stopped w (writeAofManifestFile env lines v) := by
  obtain ⟨dk, tr, hdisk⟩ := writeAofManifestFile_onDisk env lines v
  have htouch := (writeAofManifestFile_persisted env lines v).touches hrep
  have htemp : tempManifest v = .aof w.sv.conf.tempManifestName :=
    tempManifest_eq h.reopened.control.conf
  have hsub : {tempManifest v} ⊆ newPaths w.sv := by
    rw [htemp, Set.singleton_subset_iff]
    exact tempManifest_mem_newPaths w.sv
  have htouches := h.touches.trans (htouch.mono hsub (Set.empty_subset _))
  rw [hdisk] at htouches ⊢
  exact (h.reopened.onDisk dk tr).stopped htouches

/-- An enable that fails before the new manifest is in place. -/
theorem startSync_stopped (env : StartEnv) (hwait : w.sv.aofState = .waitRewrite)
    (h : env.replaces = false) :
    (startSync env w).1 = .err ∧ Stopped w (startSync env w).2 := by
  cases hrw : env.rewritten with
  | false => exact startSync_early env hwait hrw
  | true =>
      obtain ⟨fd, v, heq, hv⟩ := startSync_rewritten env hwait hrw
      have hconf : v.sv.conf = w.sv.conf := hv.reopened.control.conf
      rw [heq, hv.adopt_eq]
      dsimp only
      cases hb : env.renameBase with
      | false => exact ⟨rfl, hv.stopped.failedDelTemp hconf⟩
      | true =>
          cases hi : env.renameIncr with
          | false =>
              exact ⟨rfl, (hv.stopped_renamedBase.bgUnlink (base_mem_newPaths w.sv)).failedDelTemp hconf⟩
          | true =>
              have hrep : env.persist.replaced = false := by
                simpa [StartEnv.replaces, hrw, hb, hi] using h
              have hst : env.persist.status = .err := by
                simp [ManifestWrite.status, hrep]
              have hstop := hv.renamed.persistStopped env.persist (rewrittenManifest w.sv).lines hrep
              have hconf' : (writeAofManifestFile env.persist (rewrittenManifest w.sv).lines
                  (renamedIncr w.sv v)).sv.conf = w.sv.conf := by
                rw [writeAofManifestFile_sv]
                exact hconf
              rw [if_neg nofun, if_neg nofun, if_pos hst]
              exact ⟨rfl, ((hstop.bgUnlink (base_mem_newPaths w.sv)).bgUnlink
                (incr_mem_newPaths w.sv)).failedDelTemp hconf'⟩

/-- The new manifest is on disk, with both files of the rewrite under their final names. -/
structure Replaced (w : World D A δ) (fd : Nat) (v : World D A δ) : Prop where
  reopened : Reopened fd w.sv.aofManifest (prepareRewrite w) v
  keeps : Keeps (newPaths w.sv) (aofFds w.sv) w.disk.fs v.disk.fs
  incr : NewIncr w (.aof (newIncrName w.sv)) fd v
  base : BaseFile w (.aof (newBaseName w.sv)) v
  manifest : v.disk.manifest = some (rewrittenManifest w.sv).lines
  trace : ∀ dk ∈ v.trace, dk ∈ w.trace ∨ SameDisk (newPaths w.sv) w.disk dk ∨
    SameDisk {.aof w.sv.conf.tempManifestName} v.disk dk

theorem Renamed.replaced (h : Renamed w fd v) (env : ManifestWrite) (hrep : env.replaced = true) :
    Replaced w fd (writeAofManifestFile env (rewrittenManifest w.sv).lines v) := by
  generalize hu : writeAofManifestFile env (rewrittenManifest w.sv).lines v = u
  have hwrite := writeAofManifestFile_persisted env (rewrittenManifest w.sv).lines v
  obtain ⟨dk, tr, hdisk⟩ := writeAofManifestFile_onDisk env (rewrittenManifest w.sv).lines v
  rw [hu] at hwrite hdisk
  have htemp : tempManifest v = .aof w.sv.conf.tempManifestName :=
    tempManifest_eq h.reopened.control.conf
  obtain ⟨hkeeps, hman, -, htrace⟩ := hwrite
  rw [htemp] at hkeeps htrace
  have hown := w.sv.conf.tempManifest_mem_own
  have hsub : {Path.aof w.sv.conf.tempManifestName} ⊆ newPaths w.sv := by
    rw [Set.singleton_subset_iff]
    exact tempManifest_mem_newPaths w.sv
  refine ⟨?_, ?_, ?_, ?_, ?_, ?_⟩
  · rw [hdisk]
    exact h.reopened.onDisk dk tr
  · exact h.touches.keeps.trans (hkeeps.mono hsub (Set.empty_subset _))
  · refine h.incr.keeps hkeeps ?_
    simpa [newIncrName] using w.sv.conf.incrName_ne_own hown _
  · refine h.base.keeps hkeeps ?_
    simpa [newBaseName] using w.sv.conf.baseName_ne_own hown _
  · rw [hman, if_pos hrep]
  · intro dk hdk
    rcases htrace dk hdk with hold | hsame | ⟨-, hsame⟩
    · exact (h.touches.trace dk hold).imp_right .inl
    · exact .inr (.inl (h.touches.sameDisk.trans (hsame.mono hsub)))
    · refine .inr (.inr ⟨hsame.manifest.trans ?_, fun p hp => (hsame.data p hp).trans ?_⟩)
      · rw [hman, if_pos hrep]
      · exact (hkeeps.data hp).symm

/-- An enable that puts the new manifest in place: it succeeds, unless the fsync of the directory
fails. -/
theorem startSync_replaced (env : StartEnv) (hwait : w.sv.aofState = .waitRewrite)
    (h : env.replaces = true) :
    ∃ fd v, Replaced w fd v ∧ startSync env w =
      if env.persist.fsyncDir then
        (.ok, installRewrite env (newBaseName w.sv)
          { rewrittenManifest w.sv with dirty := false } v)
      else
        startFailedDelTemp ((v.bgUnlink (.aof (newBaseName w.sv))).bgUnlink
          (.aof (newIncrName w.sv))) := by
  obtain ⟨⟨⟨hrw, hb⟩, hi⟩, hrep⟩ : ((env.rewritten = true ∧ env.renameBase = true) ∧
      env.renameIncr = true) ∧ env.persist.replaced = true := by
    simpa [StartEnv.replaces] using h
  obtain ⟨fd, v, heq, hv⟩ := startSync_rewritten env hwait hrw
  refine ⟨fd, _, hv.renamed.replaced env.persist hrep, ?_⟩
  rw [heq, hv.adopt_eq]
  dsimp only
  rw [if_neg (by simp [hb]), if_neg (by simp [hi])]
  cases hd : env.persist.fsyncDir with
  | false => rw [if_pos (by simp [ManifestWrite.status, hd]), if_neg (by simp)]
  | true => rw [if_neg (by simp [ManifestWrite.status, hd, hrep]), if_pos rfl]

end Sync

end WasiPorts.Redis.Aof
