import WasiPorts.Redis.Aof.EnableCrash
import WasiPorts.Redis.Aof.Log
import WasiPorts.Redis.Aof.Reachable

/-!
# The log of an AOF that was just opened

An enable ends with a BASE file that holds the dataset and an empty INCR file, and a start of the
server with the files that it loaded. In both cases the manifest, the directory and the descriptor
hold a log.

* `startAppendOnly_holds` — after an enable.
* `serverStart_holds` — after a start.
-/

namespace WasiPorts.Redis.Aof

open WasiPorts.Posix WasiPorts.Posix.Fs

variable {D A δ : Type} {w w' : World D A δ} {log : Log D} {gaps : Bool}

/-! ## Deleting the history -/

theorem AofManifest.names_noHistory_sublist (am : AofManifest String) (dirty : Bool) :
    List.Sublist (am.noHistory dirty).names am.names := by
  rw [names_eq, names_eq, noHistory]
  apply List.Sublist.append_right
  simp

/-- A file that is loaded is not in the history. -/
theorem WellNamed.load_notMem_history {cf : Conf} {am : AofManifest String} (h : WellNamed cf am)
    {n : String} (hn : n ∈ am.loadNames) : n ∉ am.historyAofList.map (·.fileName) := by
  intro hhist
  have hnodup := h.nodup
  rw [AofManifest.names_eq, List.append_assoc, List.nodup_append] at hnodup
  obtain ⟨-, htail, hbase⟩ := hnodup
  obtain ⟨ai, hai, rfl⟩ := List.mem_map.mp hn
  rcases List.mem_append.mp hai with hb | hi
  · exact hbase _ (List.mem_map_of_mem hb) _ (List.mem_append_left _ hhist) rfl
  · exact (List.nodup_append.mp htail).2.2 _ hhist _ (List.mem_map_of_mem hi) rfl

/-- The entries of the history do not matter. -/
theorem HoldsWith.noHistory (h : HoldsWith gaps w log) (dirty : Bool) :
    HoldsWith gaps (w.set fun sv => { sv with aofManifest := sv.aofManifest.noHistory dirty }) log := by
  have hsub := w.sv.aofManifest.names_noHistory_sublist dirty
  refine ⟨?_, h.ordered.dropHistory dirty, h.base, h.incr⟩
  exact h.named.of_subset (h.named.nodup.sublist hsub) (fun n hn => hsub.subset hn) rfl rfl

/-- No file that is loaded is unlinked. -/
theorem HoldsWith.load_notMem_historyPaths (h : HoldsWith gaps w log) {n : String}
    (hn : n ∈ w.sv.aofManifest.loadNames) : Path.aof n ∉ historyPaths w := by
  rintro (⟨m, hm, heq⟩ | heq)
  · exact h.named.load_notMem_history hn (Path.aof.inj heq ▸ hm)
  · exact h.named.own _ w.sv.conf.tempManifest_mem_own
      (loadNames_subset_names _ (Path.aof.inj heq ▸ hn))

theorem HoldsWith.delHistory (h : HoldsWith gaps w log) (env : ManifestWrite) :
    HoldsWith gaps (aofDelHistoryFiles env w) log := by
  have hkeeps := aofDelHistoryFiles_keeps env w
  obtain ⟨-, heq⟩ | ⟨-, heq⟩ := aofDelHistoryFiles_cases env w
  · rw [heq]
    exact h
  · generalize hu : (aofDelHistoryFiles env w).disk = dk at hkeeps
    have hkept : HoldsWith gaps { w with disk := dk } log :=
      h.keeps hkeeps (fun n hn => h.load_notMem_historyPaths hn) (fun _ _ => Set.notMem_empty _)
        rfl rfl rfl
    have hsv := (writeAofManifestFile_sv env (w.sv.aofManifest.noHistory true).lines _).trans
      (unlinkAll_sv w.sv.aofManifest.historyAofList w)
    refine (hkept.noHistory (env.status = .err)).of_sv ?_ ?_ ?_ ?_
    · exact congrArg (·.fs) hu
    · rw [heq]
      exact congrArg (·.conf) hsv
    · rw [heq]
      rfl
    · rw [heq]
      exact congrArg (·.aofFd) hsv

theorem aofDelHistoryFiles_exited (env : ManifestWrite) (w : World D A δ) :
    (aofDelHistoryFiles env w).exited = w.exited := by
  have hunlink : ∀ (ais : List (AofInfo String)) (w : World D A δ), (w.unlinkAll ais).exited = w.exited := by
    intro ais
    induction ais with
    | nil => exact fun _ => rfl
    | cons ai ais ih => exact fun w => ih (w.bgUnlink (.aof ai.fileName))
  obtain ⟨-, heq⟩ | ⟨-, heq⟩ := aofDelHistoryFiles_cases env w
  · rw [heq]
  · obtain ⟨dk, tr, hdisk⟩ := writeAofManifestFile_onDisk env
      (w.sv.aofManifest.noHistory true).lines (w.unlinkAll w.sv.aofManifest.historyAofList)
    rw [heq, hdisk]
    exact hunlink _ w

/-! ## After an enable -/

section Enable

variable [AofFormat D A δ]

/-- The state after an enable outside `EXEC`. -/
structure LogEnabled (w w' : World D A δ) : Prop where
  /-- The BASE file holds the dataset, all of it on stable storage. -/
  log : ∃ base, Holds w' (.rewritten base) ∧ base.data = baseContents w ∧
    base.synced = base.data.length
  steady : Steady w { w' with ackTicks := w.ackTicks }
  aofState : w'.sv.aofState = .on
  aofBuf : w'.sv.aofBuf = []
  aofSelectedDb : w'.sv.aofSelectedDb = none
  aofLastIncrSize : w'.sv.aofLastIncrSize = 0
  aofLastIncrFsyncOffset : w'.sv.aofLastIncrFsyncOffset = 0
  pending : w'.sv.fsyncedReploffPending = w.sv.fsyncedReploffPending ∨
    w'.sv.fsyncedReploffPending = w.sv.masterReplOffset
  fsyncedReploff : w'.sv.fsyncedReploff = some w'.sv.fsyncedReploffPending
  exited : w'.exited = w.exited

/-- The two files of a rewrite, once the manifest names them. -/
theorem Replaced.holds {fd : Nat} {v : World D A δ} (h : Replaced w fd v) (hfd : FdValid w)
    (hnamed : WellNamed w.sv.conf w.sv.aofManifest) (hord : Ordered w.sv.aofManifest) :
    ∃ base, Holds (installManifest (newBaseName w.sv) { rewrittenManifest w.sv with dirty := false }
        v) (.rewritten base) ∧
      base.data = baseContents w ∧ base.synced = base.data.length := by
  obtain ⟨base, hbase, hdata, hsynced⟩ := h.base
  obtain ⟨incr, hincr, hempty⟩ := h.incr.file
  have hnone : v.disk.fs.data (.aof (newIncrName w.sv)) = some [] := by
    simp [data, hincr, hempty]
  have hconf : v.sv.conf = w.sv.conf := h.reopened.control.conf
  have hseq : w.sv.aofManifest.currBaseFileSeq + 1 ≠ 0 := by
    have := hnamed.seq
    omega
  have hwell : WellNamed w.sv.conf (rewrittenManifest w.sv) := (hnamed.pushBase.pushIncr).markRewritten true
  refine ⟨base, ⟨?_, ?_, ?_, ?_⟩, hdata, hsynced⟩
  · show WellNamed v.sv.conf _
    rw [hconf]
    exact ⟨hwell.nodup, hwell.base, hwell.incr, hwell.own, hwell.seq⟩
  · exact (rewrittenManifest_ordered w hord hseq).setDirty false
  · show List.Forall₂ _ (rewrittenManifest w.sv).baseAofInfo.toList [base]
    rw [rewrittenManifest_eq]
    refine .cons ?_ .nil
    show SameData (some base) (v.disk.fs.file (.aof (newBaseName w.sv)))
    rw [hbase]
    exact .refl _
  · refine ⟨[], ⟨newIncrName w.sv, w.sv.aofManifest.currIncrFileSeq + 1, .incr⟩, ?_, .nil, ?_,
      fd, h.reopened.aofFd, .of_openAt (h.incr.openAt hfd) hnone⟩
    · show (rewrittenManifest w.sv).incrAofList = _
      rw [rewrittenManifest_eq]
      rfl
    · show SameData (some .new) (v.disk.fs.file (.aof (newIncrName w.sv)))
      rw [hincr]
      exact ⟨hempty, Nat.zero_le _⟩

/-- An enable that succeeds has put the new manifest in place. -/
theorem startSync_ok {env : StartEnv} (hwait : w.sv.aofState = .waitRewrite)
    (hok : startSync env w = (.ok, w')) :
    ∃ fd v, Replaced w fd v ∧ w' = installRewrite env (newBaseName w.sv)
      { rewrittenManifest w.sv with dirty := false } v := by
  cases hrep : env.replaces with
  | false =>
      have herr := (startSync_stopped env hwait hrep).1
      rw [hok] at herr
      cases herr
  | true =>
      obtain ⟨fd, v, hv, heq⟩ := startSync_replaced env hwait hrep
      rw [heq] at hok
      cases hdir : env.persist.fsyncDir with
      | false =>
          rw [hdir, if_neg (by simp)] at hok
          cases hok
      | true =>
          rw [hdir, if_pos rfl] at hok
          exact ⟨fd, v, hv, (Prod.mk.inj hok).2.symm⟩

/-- An enable in which the names of the new files read as before when the manifest is written again. -/
theorem startAppendOnly_holds (env : StartEnv) (hsane : Sane w) (hexec : w.sv.inExec = false)
    (hfreed : env.freed = none)
    (hnamed : WellNamed w.sv.conf w.sv.aofManifest) (hord : Ordered w.sv.aofManifest)
    (hok : startAppendOnly env w = (.ok, w')) : LogEnabled w w' := by
  rw [startAppendOnly_eq env hsane.childType hexec] at hok
  generalize hw₁ : w.set (fun sv => { sv with aofState := .waitRewrite }) = w₁ at hok
  have hwait : w₁.sv.aofState = .waitRewrite := by
    rw [← hw₁]
    rfl
  have hsw := startSync_switched env w₁
  generalize hr : startSync env w₁ = r at hok hsw
  obtain ⟨st, u⟩ := r
  cases st with
  | err => cases hok
  | ok =>
      obtain rfl : startDone u = w' := (Prod.mk.inj hok).2
      obtain ⟨fd, v, hv, hu⟩ := startSync_ok hwait hr
      unfold installRewrite at hu
      rw [hfreed] at hu
      have hlog : ∃ base, Holds u (.rewritten base) ∧ base.data = baseContents w₁ ∧
          base.synced = base.data.length := by
        subst hw₁
        obtain ⟨base, hbase, hdata, hsynced⟩ := hv.holds hsane.fd hnamed hord
        refine ⟨base, ?_, hdata, hsynced⟩
        rw [hu]
        exact (hbase.delHistory env.persistHistory).of_sv rfl rfl rfl rfl
      obtain ⟨base, hbase, hdata, hsynced⟩ := hlog
      -- from here on only the manifest changes
      obtain ⟨am, hdel⟩ := aofDelHistoryFiles_sv env.persistHistory (freeNames none
        (installManifest (newBaseName w₁.sv) { rewrittenManifest w₁.sv with dirty := false } v))
      refine ⟨⟨base, hbase.of_sv rfl rfl rfl rfl, ?_, hsynced⟩, ?_, ?_, ?_, ?_, ?_, ?_, ?_, ?_, ?_⟩
      · rw [hdata, ← hw₁]
        rfl
      · have hs := hsw.steady
        subst hw₁
        exact ⟨hs.conf, hs.aofEnabled, hs.aofFsync, hs.scheduled, hs.masterReplOffset,
          hs.feedsReplicas, hs.inExec, hs.childType, hs.alsoPropagate, hs.dataset, hs.feeds, rfl⟩
      · exact hsw.aofState
      · rw [hu]
        rfl
      · rw [hu]
        show (aofDelHistoryFiles _ _).sv.aofSelectedDb = none
        rw [hdel]
        exact hv.reopened.aofSelectedDb
      · rw [hu]
        show (aofDelHistoryFiles _ _).sv.aofLastIncrSize = 0
        rw [hdel]
        exact hv.reopened.aofLastIncrSize
      · rw [hu]
        show (aofDelHistoryFiles _ _).sv.aofLastIncrFsyncOffset = 0
        rw [hdel]
        exact hv.reopened.aofLastIncrFsyncOffset
      · have hpending := hv.reopened.pending
        rw [hu]
        show (aofDelHistoryFiles _ _).sv.fsyncedReploffPending = _ ∨
          (aofDelHistoryFiles _ _).sv.fsyncedReploffPending = _
        rw [hdel]
        subst hw₁
        exact hpending
      · rw [hu]
        rfl
      · have hexit : w₁.exited = w.exited := by
          rw [← hw₁]
          rfl
        rw [hu]
        show (aofDelHistoryFiles _ _).exited = w.exited
        rw [aofDelHistoryFiles_exited]
        exact hv.reopened.exited.trans hexit

end Enable

/-! ## Up to the load -/

/-- The manifest that a start finds, `none` if it is refused. -/
def bootManifest (dk : Disk D) : Option (AofManifest String) :=
  if dk.aofDir then
    match dk.manifest with
    | none => some .create
    | some lines => loadManifest lines
  else some .create

theorem bootManifest_ordered {dk : Disk D} {am : AofManifest String} (h : bootManifest dk = some am) :
    Ordered am := by
  unfold bootManifest at h
  split at h
  · split at h
    · cases h
      exact ordered_create
    · exact (loadManifest_some h).1
  · cases h
    exact ordered_create

theorem aofLoadManifestFromDisk_eq (hcreate : w.sv.aofManifest = .create) :
    aofLoadManifestFromDisk w =
      match bootManifest w.disk with
      | none => w.exit
      | some am => w.set fun sv => { sv with aofManifest := am } := by
  have hself : w.set (fun sv => { sv with aofManifest := .create }) = w := by
    unfold World.set
    rw [← hcreate]
  unfold aofLoadManifestFromDisk bootManifest
  cases w.disk.aofDir with
  | false => exact hself.symm
  | true =>
      cases w.disk.manifest with
      | none => exact hself.symm
      | some lines => cases loadManifest lines <;> rfl

/-- The manifest of an old-style AOF. -/
def AofManifest.upgraded (am : AofManifest String) (old : String) (dirty : Bool) : AofManifest String :=
  { am with baseAofInfo := some ⟨old, 1, .base⟩, currBaseFileSeq := 1, dirty := dirty }

theorem Ordered.upgraded {am : AofManifest String} (h : Ordered am) (old : String) (dirty : Bool) :
    Ordered (am.upgraded old dirty) where
  base := by
    rintro ai hai
    cases hai
    exact ⟨rfl, Int.one_ne_zero, rfl⟩
  noBase := nofun
  hist := h.hist
  incr := h.incr
  seqs := h.seqs
  last := h.last

/-- The disk after `persistAofManifest` on a disk with the files `fs`: the manifest is written, if it is
dirty. -/
structure PersistedTo (cf : Conf) (am : AofManifest String) (old : Disk D) (fs : Fs Path D)
    (dk : Disk D) : Prop where
  keeps : Keeps {.aof cf.tempManifestName} ∅ fs dk.fs
  aofDir : dk.aofDir = old.aofDir
  manifest : dk.manifest = some am.lines ∨ am.dirty = false ∧ dk.manifest = old.manifest

/-- Persisting writes the manifest file, and the dirty flag. -/
theorem persistAofManifest_ok {env : ManifestWrite} {am am' : AofManifest String} {u : World D A δ}
    (h : persistAofManifest env am w = (.ok, am', u)) :
    am' = { am with dirty := false } ∧ ∃ dk tr, u = { w with disk := dk, trace := tr } ∧
      PersistedTo w.sv.conf am w.disk w.disk.fs dk := by
  unfold persistAofManifest at h
  split at h
  · obtain ⟨hst, hrest⟩ := Prod.mk.inj h
    obtain ⟨rfl, rfl⟩ := Prod.mk.inj hrest
    have hrep : env.replaced = true := by
      cases hrep : env.replaced with
      | true => rfl
      | false => simp [ManifestWrite.status, hrep] at hst
    have hwrite := writeAofManifestFile_persisted env am.lines w
    obtain ⟨dk, tr, hdisk⟩ := writeAofManifestFile_onDisk env am.lines w
    rw [hdisk] at hwrite
    refine ⟨by simp [hst], dk, tr, hdisk, hwrite.keeps, hwrite.aofDir, .inl ?_⟩
    exact hwrite.manifest.trans (if_pos hrep)
  · next hclean =>
      obtain ⟨-, hrest⟩ := Prod.mk.inj h
      obtain ⟨rfl, rfl⟩ := Prod.mk.inj hrest
      have hdirty : am.dirty = false := by simpa using hclean
      refine ⟨?_, w.disk, w.trace, rfl, .refl _, rfl, .inr ⟨hdirty, rfl⟩⟩
      rw [← hdirty]

/-- An old-style AOF becomes the BASE file. -/
structure Upgraded (w w' : World D A δ) : Prop where
  needed : upgradeNeeded w = true
  world : ∃ dk tr, w' = { w with
    disk := dk
    trace := tr
    sv := { w.sv with aofManifest := w.sv.aofManifest.upgraded w.sv.conf.aofFilename false } }
  fs : ∃ fs, Keeps {.aof w.sv.conf.tempManifestName} ∅ w.disk.fs fs ∧
    w'.disk.fs = fs.rename (.cwd w.sv.conf.aofFilename) (.aof w.sv.conf.aofFilename)
  manifest : w'.disk.manifest = some w'.sv.aofManifest.lines
  aofDir : w'.disk.aofDir = true

theorem upgradeIfNeeded_ok (env : BootEnv) (h : (upgradeIfNeeded env w).exited = false) :
    upgradeNeeded w = false ∧ upgradeIfNeeded env w = w ∨ Upgraded w (upgradeIfNeeded env w) := by
  unfold upgradeIfNeeded at h ⊢
  split at h
  · next hup =>
      right
      rw [if_pos hup]
      unfold aofUpgradePrepare at h ⊢
      dsimp only at h ⊢
      split at h
      · cases h
      · rw [if_neg (by assumption)]
        split at h
        · cases h
        · rw [if_neg (by assumption)]
          split at h
          · cases h
          · next am' u heq =>
              obtain ⟨rfl, dk, tr, rfl, hkeeps, hdir, hman⟩ := persistAofManifest_ok heq
              split at h
              · cases h
              · rw [if_neg (by assumption)]
                have hman' : dk.manifest
                    = some (w.sv.aofManifest.upgraded w.sv.conf.aofFilename false).lines := by
                  rcases hman with hman | ⟨hdirty, -⟩
                  · exact hman
                  · cases hdirty
                exact ⟨hup, ⟨_, _, rfl⟩, ⟨dk.fs, hkeeps, rfl⟩, hman', hdir⟩
  · next hup =>
      left
      rw [if_neg hup]
      exact ⟨by simpa using hup, rfl⟩

section Load

variable [Commands A δ] [AofFormat D A δ]

/-- What a load leaves. -/
theorem loadAof_ok (c : StartConf δ) (h : (loadAof c w).exited = false) :
    (loadAppendOnlyFiles c.aofLoadTruncated w.sv.aofManifest w.disk).1 ≠ .failed ∧
      ∃ tr size base, loadAof c w = { w with
        disk := (loadAppendOnlyFiles c.aofLoadTruncated w.sv.aofManifest w.disk).2.2
        trace := tr
        sv := { w.sv with
          dataset := (loadAppendOnlyFiles c.aofLoadTruncated w.sv.aofManifest w.disk).2.1
          aofCurrentSize := size
          aofRewriteBaseSize := base } } := by
  unfold loadAof at h ⊢
  dsimp only at h ⊢
  split at h
  · cases h
  · next hne =>
      rw [if_neg hne]
      exact ⟨hne, _, _, _, rfl⟩

omit [Commands A δ] in
theorem rewriteAppendOnlyFile_aofDir (env : BaseEnv) (p : Path) (w : World D A δ) :
    (rewriteAppendOnlyFile env p w).2.disk.aofDir = w.disk.aofDir := by
  unfold rewriteAppendOnlyFile
  dsimp only
  split
  · rfl
  · split
    · rfl
    · split
      · rfl
      · split <;> rfl

omit [Commands A δ] in
/-- A server without AOF files writes its dataset as the first BASE file. -/
theorem createBaseIfNeeded_ok (env : BaseEnv) (h : (createBaseIfNeeded env w).exited = false) :
    (¬ (w.sv.aofManifest.baseAofInfo = none ∧ w.sv.aofManifest.incrAofList = []) ∧
      createBaseIfNeeded env w = w) ∨
    ((w.sv.aofManifest.baseAofInfo = none ∧ w.sv.aofManifest.incrAofList = []) ∧
      ∃ dk tr f, createBaseIfNeeded env w = { w with
          disk := dk
          trace := tr
          sv := { w.sv with aofManifest := w.sv.aofManifest.pushBase (newBaseName w.sv) } } ∧
        dk.fs.file (.aof (newBaseName w.sv)) = some f ∧ f.data = baseContents w ∧
        f.synced = f.data.length ∧ dk.manifest = w.disk.manifest ∧ dk.aofDir = w.disk.aofDir ∧
        Keeps {.cwd (tempRewriteName w.sv), .aof (newBaseName w.sv)} ∅ w.disk.fs dk.fs) := by
  unfold createBaseIfNeeded at h ⊢
  dsimp only [getNewBaseFileNameAndMarkPreAsHistory] at h ⊢
  split at h
  · next hempty =>
      right
      rw [if_pos hempty]
      refine ⟨hempty, ?_⟩
      generalize hv : (w.set fun sv => { sv with
        aofManifest := w.sv.aofManifest.pushBase (newBaseName w.sv) }) = v
      have heq : (w.set fun sv => { sv with
        aofManifest := w.sv.aofManifest.pushBase
          (w.sv.conf.baseName (w.sv.aofManifest.currBaseFileSeq + 1)) }) = v := hv
      rw [heq] at h ⊢
      have hfile := rewriteAppendOnlyFile_file env (.aof (newBaseName w.sv)) v
      have htouch := rewriteAppendOnlyFile_touches env (.aof (newBaseName w.sv)) v
      have hdir := rewriteAppendOnlyFile_aofDir env (.aof (newBaseName w.sv)) v
      obtain ⟨dk, tr, hdisk⟩ := rewriteAppendOnlyFile_onDisk env (.aof (newBaseName w.sv)) v
      have hname : w.sv.conf.baseName (w.sv.aofManifest.currBaseFileSeq + 1) = newBaseName w.sv := rfl
      rw [hname] at h ⊢
      generalize rewriteAppendOnlyFile env (.aof (newBaseName w.sv)) v = r at *
      obtain ⟨st, v'⟩ := r
      obtain rfl : v' = { v with disk := dk, trace := tr } := hdisk
      cases st with
      | err => cases h
      | ok =>
          obtain ⟨f, hf, hdata, hsynced⟩ := hfile rfl
          subst hv
          exact ⟨dk, tr, f, rfl, hf, hdata, hsynced, htouch.manifest, hdir, htouch.keeps⟩
  · next hne =>
      left
      rw [if_neg hne]
      exact ⟨hne, rfl⟩

end Load

/-- The last INCR file is open for appending, and in the manifest on disk. -/
theorem openLastIncr_ok (env : BootEnv) (h : (openLastIncr env w).exited = false) :
    ∃ dk tr size, openLastIncr env w = { w with
        disk := dk
        trace := tr
        sv := { w.sv with
          aofFd := some w.disk.fs.nextFd
          aofManifest := { (getLastIncrAofName w.sv.conf w.sv.aofManifest).2 with dirty := false }
          aofLastIncrSize := size
          aofLastIncrFsyncOffset := size } } ∧
      PersistedTo w.sv.conf (getLastIncrAofName w.sv.conf w.sv.aofManifest).2 w.disk
        (w.disk.fs.openFile (.aof (getLastIncrAofName w.sv.conf w.sv.aofManifest).1) false true).2 dk := by
  unfold openLastIncr at h ⊢
  dsimp only at h ⊢
  split at h
  · cases h
  · rw [if_neg (by assumption)]
    split at h
    · cases h
    · next am' u heq =>
        obtain ⟨rfl, dk, tr, rfl, hkeeps, hdir, hman⟩ := persistAofManifest_ok heq
        exact ⟨dk, tr, _, rfl, hkeeps, hdir, hman⟩

/-! ## The files that were loaded exist -/

/-- Every file that the manifest names as BASE or INCR exists. -/
def FilesExist (am : AofManifest String) (fs : Fs Path D) : Prop :=
  ∀ n ∈ am.loadNames, (fs.file (.aof n)).isSome

section Load

variable [Commands A δ] [AofFormat D A δ]

omit [Commands A δ] in
theorem Disk.cut_dir (dk : Disk D) (name : String) (n : Option Nat) :
    (dk.cut name n).fs.dir = dk.fs.dir := by
  cases n with
  | none => rfl
  | some n =>
      show (dk.fs.truncate (.aof name) n).dir = dk.fs.dir
      unfold Fs.truncate
      split <;> rfl

theorem loadFiles_dir (lt : Bool) (names : List String) (d : δ) (dk : Disk D) :
    (loadFiles lt names d dk).2.2.fs.dir = dk.fs.dir := by
  induction names generalizing d dk with
  | nil => rfl
  | cons n names ih =>
      have hsingle : (loadSingleAppendOnlyFile lt n d dk).2.2.fs.dir = dk.fs.dir := by
        unfold loadSingleAppendOnlyFile
        split
        · rfl
        · exact dk.cut_dir n _
      unfold loadFiles
      generalize loadSingleAppendOnlyFile lt n d dk = r at hsingle
      obtain ⟨st, d₁, dk₁⟩ := r
      have hrest := (ih d₁ dk₁).trans hsingle
      cases st with
      | failed => exact hsingle
      | truncated =>
          dsimp only
          split <;> exact hsingle
      | ok => exact hrest
      | notExist => exact hrest
      | empty => exact hrest

theorem loadAppendOnlyFiles_exist {lt : Bool} {am : AofManifest String} {dk : Disk D}
    (h : (loadAppendOnlyFiles (A := A) (δ := δ) lt am dk).1 ≠ .failed) :
    FilesExist am (loadAppendOnlyFiles (A := A) (δ := δ) lt am dk).2.2.fs := by
  unfold FilesExist Fs.file
  unfold loadAppendOnlyFiles at h ⊢
  split
  · next hnil => simp [hnil]
  · next hne =>
      rw [if_neg hne] at h
      split at h
      · exact absurd rfl h
      · next hany =>
          rw [if_neg hany]
          have hexist : ∀ n ∈ am.loadNames, ((dk.fs.dir (.aof n)).map dk.fs.inode).isSome := by
            intro n hn
            have hsome := hany
            simp only [List.any_eq_true, not_exists, not_and, Bool.not_eq_true,
              Option.isNone_eq_false_iff] at hsome
            simpa [Fs.data, Fs.file] using hsome n hn
          split
          · exact hexist
          · intro n hn
            have := hexist n hn
            rw [Option.isSome_map] at this ⊢
            rw [loadFiles_dir]
            exact this

end Load

/-! ## After a start -/

section Start

variable [Commands A δ] [AofFormat D A δ]

/-- A server that has read its manifest. -/
def bootWorld (c : StartConf δ) (dk : Disk D) (am : AofManifest String) : World D A δ where
  sv := { initServer c with aofManifest := am }
  disk := { dk with fs := dk.fs.closeAll }
  exited := false
  trace := []
  feeds := []
  ackTicks := none

/-- The manifest that a start goes on with: the one it finds, or that of an old-style AOF. -/
def startManifest (A : Type) [Commands A δ] (c : StartConf δ) (dk : Disk D) : Option (AofManifest String) :=
  (bootManifest dk).map fun am =>
    if c.aofEnabled && upgradeNeeded (bootWorld c dk am : World D A δ) then
      am.upgraded c.conf.aofFilename false
    else am

/-- The stages of a start that opens the AOF. -/
structure Boot (c : StartConf δ) (env : BootEnv) (dk : Disk D) (am : AofManifest String)
    (v₁ v₂ v₃ v₄ : World D A δ) : Prop where
  enabled : c.aofEnabled = true
  manifest : bootManifest dk = some am
  upgrade : upgradeIfNeeded env (bootWorld c dk am) = v₁
  load : loadAof c v₁ = v₂
  base : createBaseIfNeeded env.base v₂.dirCreate = v₃
  incr : openLastIncr env v₃ = v₄
  start : serverStart c env dk = aofDelHistoryFiles env.persistHistory v₄
  exited₁ : v₁.exited = false
  exited₂ : v₂.exited = false
  exited₃ : v₃.exited = false
  exited₄ : v₄.exited = false

/-- A start after the manifest is read. -/
theorem serverStart_eq (c : StartConf δ) (env : BootEnv) (dk : Disk D) :
    (serverStart c env dk : World D A δ) =
      match bootManifest dk with
      | none => (bootWorld c dk .create : World D A δ).exit
      | some am => ((loadDataFromDisk c env (bootWorld c dk am)).andThen
          (aofOpenIfNeededOnServerStart env)).andThen (aofDelHistoryFiles env.persistHistory) := by
  have hdisk : bootManifest ({ dk with fs := dk.fs.closeAll } : Disk D) = bootManifest dk := rfl
  unfold serverStart
  dsimp only
  rw [aofLoadManifestFromDisk_eq rfl, hdisk]
  cases bootManifest dk with
  | none => rfl
  | some am => rfl

/-- A start that has not exited found a manifest. -/
theorem serverStart_manifest (c : StartConf δ) (env : BootEnv) (dk : Disk D)
    (hexit : (serverStart c env dk : World D A δ).exited = false) :
    ∃ am, bootManifest dk = some am ∧
      (loadDataFromDisk c env (bootWorld c dk am : World D A δ)).exited = false ∧
      (aofOpenIfNeededOnServerStart env (loadDataFromDisk c env (bootWorld c dk am : World D A δ))).exited
        = false ∧
      serverStart c env dk = aofDelHistoryFiles env.persistHistory (aofOpenIfNeededOnServerStart env
        (loadDataFromDisk c env (bootWorld c dk am : World D A δ))) := by
  rw [serverStart_eq] at hexit ⊢
  cases hman : bootManifest dk with
  | none =>
      rw [hman] at hexit
      cases hexit
  | some am =>
      rw [hman] at hexit
      dsimp only at hexit ⊢
      obtain ⟨hexit₂, heq₂⟩ := andThen_exited hexit
      obtain ⟨hexit₁, heq₁⟩ := andThen_exited hexit₂
      rw [heq₁] at hexit₂ heq₂
      rw [heq₁]
      exact ⟨am, rfl, hexit₁, hexit₂, heq₂⟩

/-- Loading does not turn the AOF on or off. -/
theorem loadDataFromDisk_state (c : StartConf δ) (env : BootEnv) (w : World D A δ) :
    (loadDataFromDisk c env w).sv.aofState = w.sv.aofState := by
  have hload : ∀ v : World D A δ, (loadAof c v).sv.aofState = v.sv.aofState := by
    intro v
    unfold loadAof
    dsimp only
    split <;> rfl
  have hup := (upgradeIfNeeded_control env w).aofState
  unfold loadDataFromDisk
  split
  · rcases World.andThen_cases (upgradeIfNeeded env w) (loadAof c) with heq | heq
    · rw [heq, hup]
    · rw [heq, hload, hup]
  · rfl

/-- The AOF is on after a start as it is configured. -/
theorem serverStart_state (c : StartConf δ) (env : BootEnv) (dk : Disk D)
    (hexit : (serverStart c env dk : World D A δ).exited = false) :
    (serverStart c env dk : World D A δ).sv.aofState = if c.aofEnabled then .on else .off := by
  obtain ⟨am, -, -, -, heq⟩ := serverStart_manifest (A := A) c env dk hexit
  rw [heq, (aofDelHistoryFiles_control _ _).aofState, (aofOpenIfNeededOnServerStart_control _ _).aofState,
    loadDataFromDisk_state]
  rfl

/-- A start with the AOF off. -/
theorem serverStart_off (c : StartConf δ) (env : BootEnv) (dk : Disk D)
    (henabled : c.aofEnabled = false)
    (hexit : (serverStart c env dk : World D A δ).exited = false) :
    ∃ am, bootManifest dk = some am ∧ serverStart c env dk = aofDelHistoryFiles env.persistHistory
      ((bootWorld c dk am : World D A δ).set fun sv => { sv with dataset := c.rdb }) := by
  obtain ⟨am, hman, -, -, heq⟩ := serverStart_manifest (A := A) c env dk hexit
  have hoff : (bootWorld c dk am : World D A δ).sv.aofState = .off := by
    simp [bootWorld, initServer, henabled]
  have hload : loadDataFromDisk c env (bootWorld c dk am : World D A δ)
      = (bootWorld c dk am).set fun sv => { sv with dataset := c.rdb } := by
    unfold loadDataFromDisk
    rw [if_neg (by simp [hoff])]
  refine ⟨am, hman, ?_⟩
  rw [heq, hload]
  unfold aofOpenIfNeededOnServerStart
  rw [if_pos]
  simp [World.set, hoff]

theorem serverStart_boot (c : StartConf δ) (env : BootEnv) (dk : Disk D)
    (henabled : c.aofEnabled = true)
    (hexit : (serverStart c env dk : World D A δ).exited = false) :
    ∃ am, ∃ v₁ v₂ v₃ v₄ : World D A δ, Boot c env dk am v₁ v₂ v₃ v₄ := by
  obtain ⟨am, hman, hload, hopen, heq⟩ := serverStart_manifest (A := A) c env dk hexit
  have hstate : (bootWorld c dk am : World D A δ).sv.aofState = .on := by
    simp [bootWorld, initServer, henabled]
  have hdata : loadDataFromDisk c env (bootWorld c dk am : World D A δ) =
      (upgradeIfNeeded env (bootWorld c dk am)).andThen (loadAof c) := by
    unfold loadDataFromDisk
    rw [if_pos hstate]
  have hon : (loadDataFromDisk c env (bootWorld c dk am : World D A δ)).sv.aofState = .on := by
    rw [loadDataFromDisk_state, hstate]
  rw [hdata] at hload hopen heq hon
  obtain ⟨hup, hrun⟩ := andThen_exited hload
  rw [hrun] at hload hopen heq hon
  unfold aofOpenIfNeededOnServerStart at hopen heq
  rw [if_neg (by simp [hon])] at hopen heq
  split at hopen
  · cases hopen
  · next hdir =>
      rw [if_neg hdir] at heq
      obtain ⟨hbase, hlast⟩ := andThen_exited hopen
      rw [hlast] at hopen heq
      exact ⟨am, _, _, _, _, henabled, hman, rfl, rfl, rfl, rfl, heq, hup, hload, hbase, hopen⟩

variable {c : StartConf δ} {env : BootEnv} {dk : Disk D} {am : AofManifest String}
  {v₁ v₂ v₃ v₄ : World D A δ}

omit [AofFormat D A δ] in
theorem upgradeIfNeeded_bootWorld (h : (upgradeIfNeeded env (bootWorld c dk am : World D A δ)).exited = false)
    (henabled : c.aofEnabled = true) (hman : bootManifest dk = some am) :
    ∃ am₁ dk₁ tr, startManifest A c dk = some am₁ ∧ Ordered am₁ ∧
      upgradeIfNeeded env (bootWorld c dk am : World D A δ)
        = { (bootWorld c dk am₁ : World D A δ) with disk := dk₁, trace := tr } := by
  have hord := bootManifest_ordered hman
  unfold startManifest
  rw [hman]
  rcases upgradeIfNeeded_ok env h with ⟨hno, heq⟩ | hup
  · exact ⟨am, _, _, by simp [hno], hord, heq⟩
  · obtain ⟨dk₁, tr, heq⟩ := hup.world
    exact ⟨am.upgraded c.conf.aofFilename false, dk₁, tr, by simp [henabled, hup.needed], hord.upgraded _ _, heq⟩

/-- A server before it opens the last INCR file. -/
structure Prepared (c : StartConf δ) (v : World D A δ) : Prop where
  sv : ∃ am d size base, v.sv = { initServer c with
    aofManifest := am
    dataset := d
    aofCurrentSize := size
    aofRewriteBaseSize := base }
  named : WellNamed c.conf v.sv.aofManifest
  ordered : Ordered v.sv.aofManifest
  exist : FilesExist v.sv.aofManifest v.disk.fs

theorem Boot.loaded (h : Boot c env dk am v₁ v₂ v₃ v₄)
    (hnamed : ∀ am₁, startManifest A c dk = some am₁ → WellNamed c.conf am₁) : Prepared c v₂ := by
  have hup := h.exited₁
  rw [← h.upgrade] at hup
  obtain ⟨am₁, dk₁, tr, hstart, hord, heq⟩ := upgradeIfNeeded_bootWorld hup h.enabled h.manifest
  rw [h.upgrade] at heq
  have hload := h.exited₂
  rw [← h.load] at hload
  obtain ⟨hne, tr₂, size, base, heq₂⟩ := loadAof_ok c hload
  have hexist := loadAppendOnlyFiles_exist hne
  rw [h.load] at heq₂
  generalize loadAppendOnlyFiles c.aofLoadTruncated v₁.sv.aofManifest v₁.disk = res at *
  subst heq heq₂
  exact ⟨⟨am₁, _, size, base, rfl⟩, hnamed am₁ hstart, hord, hexist⟩

theorem Boot.prepared (h : Boot c env dk am v₁ v₂ v₃ v₄)
    (hnamed : ∀ am₁, startManifest A c dk = some am₁ → WellNamed c.conf am₁) : Prepared c v₃ := by
  obtain ⟨⟨am₂, d, size, base, hsv⟩, hwell, hord, hexist⟩ := h.loaded hnamed
  have hbase := h.exited₃
  rw [← h.base] at hbase
  rcases createBaseIfNeeded_ok env.base hbase with ⟨-, heq⟩ | ⟨hempty, dk', tr, f, heq, hf, -⟩
  · rw [h.base] at heq
    subst heq
    exact ⟨⟨am₂, d, size, base, hsv⟩, hwell, hord, hexist⟩
  · rw [h.base] at heq
    have hconf : v₂.sv.conf = c.conf := by
      rw [hsv]
      rfl
    subst heq
    refine ⟨⟨v₂.sv.aofManifest.pushBase (newBaseName v₂.sv), d, size, base, ?_⟩, ?_, ?_, ?_⟩
    · show ({ v₂.sv with aofManifest := v₂.sv.aofManifest.pushBase (newBaseName v₂.sv) } : Server D A δ) = _
      rw [hsv]
    · show WellNamed c.conf (v₂.sv.aofManifest.pushBase (v₂.sv.conf.baseName _))
      rw [hconf]
      exact hwell.pushBase
    · refine hord.pushBase ?_ _
      have hzero : v₂.sv.aofManifest.currBaseFileSeq = 0 := hord.noBase hempty.1
      omega
    · intro n hn
      have hincr : v₂.sv.aofManifest.incrAofList = [] := hempty.2
      have hname : n = newBaseName v₂.sv := by
        simpa [AofManifest.loadNames, AofManifest.pushBase, World.dirCreate, World.sys, hincr] using hn
      subst hname
      show (dk'.fs.file (.aof (newBaseName v₂.sv))).isSome
      rw [show dk'.fs.file (.aof (newBaseName v₂.sv)) = some f from hf]
      rfl

omit [Commands A δ] [AofFormat D A δ] in
theorem exists_stores {ais : List (AofInfo String)}
    (h : ∀ ai ∈ ais, (w.disk.fs.file (.aof ai.fileName)).isSome) :
    ∃ fs, List.Forall₂ (Stores w) ais fs := by
  induction ais with
  | nil => exact ⟨[], .nil⟩
  | cons ai ais ih =>
      obtain ⟨f, hf⟩ := Option.isSome_iff_exists.mp (h ai List.mem_cons_self)
      obtain ⟨fs, hfs⟩ := ih fun b hb => h b (List.mem_cons_of_mem ai hb)
      refine ⟨f :: fs, .cons ?_ hfs⟩
      unfold Stores
      rw [hf]
      exact .refl _

omit [Commands A δ] [AofFormat D A δ] in
/-- The last INCR file, of the manifest that is opened. -/
theorem getLastIncrAofName_split (cf : Conf) (am : AofManifest String) :
    ∃ init ai, (getLastIncrAofName cf am).2.incrAofList = init ++ [ai] ∧
      ai.fileName = (getLastIncrAofName cf am).1 ∧
      (∀ b ∈ init, b ∈ am.incrAofList) ∧ (getLastIncrAofName cf am).2.baseAofInfo = am.baseAofInfo := by
  unfold getLastIncrAofName
  cases hlast : am.incrAofList.getLast? with
  | none =>
      have hnil : am.incrAofList = [] := List.getLast?_eq_none_iff.mp hlast
      refine ⟨[], ⟨cf.incrName (am.currIncrFileSeq + 1), am.currIncrFileSeq + 1, .incr⟩, ?_, rfl, nofun, rfl⟩
      simp [getNewIncrAofName, AofManifest.pushIncr, hnil]
  | some ai =>
      obtain ⟨init, hinit⟩ := List.getLast?_eq_some_iff.mp hlast
      exact ⟨init, ai, hinit, rfl, fun b hb => by simp [hinit, hb], rfl⟩

omit [Commands A δ] [AofFormat D A δ] in
theorem WellNamed.getLastIncr {cf : Conf} (h : WellNamed cf am) :
    WellNamed cf (getLastIncrAofName cf am).2 := by
  unfold getLastIncrAofName
  split
  · exact h.pushIncr
  · exact h

omit [Commands A δ] [AofFormat D A δ] in
theorem Ordered.getLastIncr (h : Ordered am) (cf : Conf) : Ordered (getLastIncrAofName cf am).2 := by
  unfold getLastIncrAofName
  split
  · exact h.pushIncr _
  · exact h

omit [Commands A δ] [AofFormat D A δ] in
/-- Opening a file makes it exist, and no other file goes away. -/
theorem openFile_isSome {fs : Fs Path D} {p q : Path} (h : q = p ∨ (fs.file q).isSome) :
    ((fs.openFile p false true).2.file q).isSome := by
  by_cases hqp : q = p
  · rw [hqp, openFile_file_self]
    rfl
  · rw [openFile_file_ne false true hqp]
    exact h.resolve_left hqp

omit [AofFormat D A δ] in
theorem Prepared.opened {v : World D A δ} (h : Prepared c v) (hexit : (openLastIncr env v).exited = false) :
    ∃ log, Holds (openLastIncr env v) log := by
  obtain ⟨dk, tr, size, heq, hkeeps, -⟩ := openLastIncr_ok env hexit
  obtain ⟨init, ai, hsplit, hname, hinit, hbase⟩ := getLastIncrAofName_split v.sv.conf v.sv.aofManifest
  have hconf : v.sv.conf = c.conf := by
    obtain ⟨am, d, size, base, hsv⟩ := h.sv
    rw [hsv]
    rfl
  have hnamed := h.named.getLastIncr
  have hord := h.ordered.getLastIncr v.sv.conf
  rw [← hconf] at hnamed
  generalize hw' : openLastIncr env v = w' at heq
  have hdk : w'.disk = dk := by rw [heq]
  rw [← hname, ← hdk] at hkeeps
  -- the temporary manifest is none of the files
  have hown : ∀ b ∈ (getLastIncrAofName v.sv.conf v.sv.aofManifest).2.baseAofInfo.toList ++
      (getLastIncrAofName v.sv.conf v.sv.aofManifest).2.incrAofList,
      Path.aof b.fileName ∉ ({.aof v.sv.conf.tempManifestName} : Set Path) := by
    intro b hb htemp
    have hmem := loadNames_subset_names _ (List.mem_map_of_mem (f := (·.fileName)) hb)
    exact hnamed.own _ v.sv.conf.tempManifest_mem_own (Path.aof.inj htemp ▸ hmem)
  rw [hbase, hsplit] at hown
  have hold : ∀ b ∈ v.sv.aofManifest.baseAofInfo.toList ++ init,
      (w'.disk.fs.file (.aof b.fileName)).isSome := by
    intro b hb
    have hmem : b ∈ v.sv.aofManifest.baseAofInfo.toList ++ v.sv.aofManifest.incrAofList := by
      rcases List.mem_append.mp hb with hb | hb
      · exact List.mem_append_left _ hb
      · exact List.mem_append_right _ (hinit b hb)
    refine hkeeps.isSome (hown b ?_) (openFile_isSome (.inr (h.exist b.fileName (List.mem_map_of_mem hmem))))
    rw [← List.append_assoc]
    exact List.mem_append_left _ hb
  have hlastOwn := hown ai (by simp)
  obtain ⟨base, hstores⟩ : ∃ fs, List.Forall₂ (Stores w') v.sv.aofManifest.baseAofInfo.toList fs :=
    exists_stores fun b hb => hold b (List.mem_append_left _ hb)
  obtain ⟨incrs, hincrs⟩ : ∃ fs, List.Forall₂ (Stores w') init fs :=
    exists_stores fun b hb => hold b (List.mem_append_right _ hb)
  obtain ⟨last, hlast⟩ : ∃ f, w'.disk.fs.file (.aof ai.fileName) = some f :=
    Option.isSome_iff_exists.mp (hkeeps.isSome hlastOwn (openFile_isSome (.inl rfl)))
  have hat : w'.disk.fs.OpenAt v.disk.fs.nextFd (.aof ai.fileName) :=
    hkeeps.openAt _ hlastOwn _ (Set.notMem_empty _) (openFile_openAt (.inr rfl))
  have hman : w'.sv.aofManifest
      = { (getLastIncrAofName v.sv.conf v.sv.aofManifest).2 with dirty := false } := by
    rw [heq]
  refine ⟨⟨base, incrs, last⟩, ?_, ?_, ?_, init, ai, ?_, hincrs, ?_, v.disk.fs.nextFd, ?_,
    .of_openAt hat (by simp [data, hlast])⟩
  · rw [hman, show w'.sv.conf = v.sv.conf by rw [heq]]
    exact ⟨hnamed.nodup, hnamed.base, hnamed.incr, hnamed.own, hnamed.seq⟩
  · rw [hman]
    exact hord.setDirty false
  · rw [hman]
    show List.Forall₂ _ (getLastIncrAofName v.sv.conf v.sv.aofManifest).2.baseAofInfo.toList _
    rw [hbase]
    exact hstores
  · rw [hman]
    exact hsplit
  · unfold Stores
    rw [hlast]
    exact .refl _
  · rw [heq]

/-- A server that has just opened its AOF at the start. -/
structure Started (c : StartConf δ) (w : World D A δ) : Prop where
  log : ∃ log, Holds w log
  sv : ∃ am d size base fd incr, w.sv = { initServer c with
    aofManifest := am
    dataset := d
    aofCurrentSize := size
    aofRewriteBaseSize := base
    aofFd := fd
    aofLastIncrSize := incr
    aofLastIncrFsyncOffset := incr }
  exited : w.exited = false
  feeds : w.feeds = []

theorem serverStart_holds (c : StartConf δ) (env : BootEnv) (dk : Disk D)
    (hnamed : ∀ am, startManifest A c dk = some am → WellNamed c.conf am)
    (henabled : c.aofEnabled = true)
    (hexit : (serverStart c env dk : World D A δ).exited = false) :
    Started c (serverStart c env dk : World D A δ) := by
  obtain ⟨am, v₁, v₂, v₃, v₄, hboot⟩ := serverStart_boot c env dk henabled hexit
  have hprep := hboot.prepared hnamed
  have hexit₄ := hboot.exited₄
  rw [← hboot.incr] at hexit₄
  obtain ⟨log, hlog⟩ := hprep.opened hexit₄
  obtain ⟨dk₄, tr, incr, heq, -⟩ := openLastIncr_ok env hexit₄
  obtain ⟨am₃, d, size, base, hsv⟩ := hprep.sv
  obtain ⟨am', hdel⟩ := aofDelHistoryFiles_sv env.persistHistory v₄
  refine ⟨?_, ?_, hexit, (serverStart_fresh c env dk).feeds⟩
  · rw [hboot.start, ← hboot.incr]
    exact ⟨log, hlog.delHistory env.persistHistory⟩
  · rw [hboot.start, hdel, ← hboot.incr, heq]
    refine ⟨am', d, size, base, some v₃.disk.fs.nextFd, incr, ?_⟩
    dsimp only
    rw [hsv]

end Start

end WasiPorts.Redis.Aof
