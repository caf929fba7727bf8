import WasiPorts.Lib.Run
import WasiPorts.Redis.Aof.Enable
import WasiPorts.Redis.Aof.Loading

/-!
# Enabling the AOF keeps a good dataset on disk

At every point of `startAppendOnly` where the process may stop, and after it has returned, the
manifest on disk should name files that exist and that load to what was there before or to the
dataset in memory (`DatasetKept`).

Up to the rename of the new manifest the old one is in place and none of its files is touched;
from then on the new one is, with the new BASE file and an empty INCR file. There are two exceptions.
After an fsync of the directory that fails behind the rename, `persistAofManifest` reports an error,
`startAppendOnly` removes the two new files, and the manifest on disk names files that are gone. And
when there is a history to delete, `aofDelHistoryFiles` writes the manifest once more, with two names
whose memory has been freed by then.

* `enable_keeps_dataset_iff` — the dataset is kept exactly when neither happens.
-/

namespace WasiPorts.Redis.Aof

open WasiPorts.Posix WasiPorts.Posix.Fs

variable {D A δ : Type} [Commands A δ] [AofFormat D A δ]

/-! ## The property -/

/-- What a server that finds the disk loads from the AOF, `none` if there is no manifest. -/
def loadDisk (loadTruncated : Bool) (dk : Disk D) : Option (LoadStatus × δ) :=
  dk.manifest.map fun lines =>
    match loadManifest lines with
    | none => (.failed, Commands.empty A)
    | some am =>
      let res := loadAppendOnlyFiles loadTruncated am dk
      (res.1, res.2.1)

/-- The BASE and INCR files of the manifest on disk exist, and they load to what the manifest of
`prior` loaded to, or to `d`. -/
def DatasetKept (loadTruncated : Bool) (prior : Disk D) (d : δ) (dk : Disk D) : Prop :=
  (∀ lines, dk.manifest = some lines → ∀ ai ∈ lines, ai.fileType ≠ .hist →
    ∃ f, dk.fs.file (.aof ai.fileName) = some f) ∧
  (loadDisk loadTruncated dk = loadDisk loadTruncated prior ∨
    loadDisk loadTruncated dk = some (.ok, d))

/-- What a crash during the call, or the process exiting after it, can leave on disk. -/
def crashDisks (env : StartEnv) (w : World D A δ) : List (Disk D) :=
  w.disk :: (startAppendOnly env w).2.disk :: (startAppendOnly env w).2.trace

/-- `startAppendOnly` is about to take the WASI branch, with a manifest in memory as the server
keeps it, and the files of the manifest on disk exist. -/
structure EnableCall (w : World D A δ) : Prop where
  childType : w.sv.childType = none
  inExec : w.sv.inExec = false
  trace : w.trace = []
  ordered : Ordered w.sv.aofManifest
  files : ∀ lines, w.disk.manifest = some lines → ∀ ai ∈ lines, ai.fileType ≠ .hist →
    ∃ f, w.disk.fs.file (.aof ai.fileName) = some f

/-- The names in the manifest, in memory and on disk. -/
def usedNames (w : World D A δ) : List String :=
  w.sv.aofManifest.names ++ (w.disk.manifest.getD []).map (·.fileName)

/-- The names that `startAppendOnly` generates are not yet in use, and the new BASE has a sequence
number that can be loaded. Manifests written by the server are such. -/
structure NamesFree (w : World D A δ) : Prop where
  own : ∀ n ∈ w.sv.conf.ownNames, n ∉ usedNames w
  base : newBaseName w.sv ∉ usedNames w
  incr : newIncrName w.sv ∉ usedNames w
  seq : w.sv.aofManifest.currBaseFileSeq + 1 ≠ 0

/-- All steps up to the rename of the new manifest succeed, and the fsync of the directory after
it fails. -/
def DirFsyncFails (env : StartEnv) : Prop :=
  env.replaces = true ∧ env.persist.fsyncDir = false

instance (env : StartEnv) : Decidable (DirFsyncFails env) :=
  inferInstanceAs (Decidable (_ ∧ _))

/-- The call succeeds, there is a history to delete, and the manifest without it, which is written with
the two freed names, comes as far as its rename. -/
def WritesFreedNames (env : StartEnv) (w : World D A δ) : Prop :=
  env.replaces = true ∧ env.persist.fsyncDir = true ∧ env.persistHistory.replaced = true ∧
    w.sv.conf.aofDisableAutoGc = false ∧ w.sv.aofManifest.lines ≠ []

instance (env : StartEnv) (w : World D A δ) : Decidable (WritesFreedNames env w) :=
  inferInstanceAs (Decidable (_ ∧ _ ∧ _ ∧ _ ∧ _))

/-! ## Disks that keep the dataset -/

section Kept

variable {lt : Bool} {w : World D A δ} {dk : Disk D} {d : δ}

omit [Commands A δ] [AofFormat D A δ] in
/-- The BASE and INCR lines of a manifest file are the entries that will be loaded. -/
theorem mem_loadNames_iff {am : AofManifest String} {lines : List (AofInfo String)}
    (hord : Ordered am) (hperm : am.lines.Perm lines) {n : String} :
    n ∈ am.loadNames ↔ ∃ ai ∈ lines, ai.fileType ≠ .hist ∧ ai.fileName = n := by
  unfold AofManifest.loadNames
  rw [List.mem_map]
  constructor
  · rintro ⟨ai, hai, rfl⟩
    rw [List.mem_append, Option.mem_toList] at hai
    refine ⟨ai, hperm.mem_iff.mp ?_, ?_, rfl⟩
    · unfold AofManifest.lines
      obtain hb | hi := hai
      · simp [show am.baseAofInfo = some ai from hb]
      · simp [hi]
    · obtain hb | hi := hai
      · rw [(hord.base ai hb).1]
        nofun
      · rw [(hord.incr ai hi).1]
        nofun
  · rintro ⟨ai, hai, htype, rfl⟩
    refine ⟨ai, ?_, rfl⟩
    have hmem := hperm.mem_iff.mpr hai
    unfold AofManifest.lines at hmem
    rw [List.mem_append, List.mem_append] at hmem
    obtain (hb | hh) | hi := hmem
    · exact List.mem_append_left _ hb
    · exact absurd (hord.hist ai hh).1 htype
    · exact List.mem_append_right _ hi

omit [Commands A δ] [AofFormat D A δ] in
/-- The old manifest is in place, with the contents of its files. -/
def OldAof (prior dk : Disk D) : Prop :=
  dk.manifest = prior.manifest ∧
    ∀ lines, prior.manifest = some lines → ∀ ai ∈ lines, ai.fileType ≠ .hist →
      dk.fs.data (.aof ai.fileName) = prior.fs.data (.aof ai.fileName)

theorem OldAof.kept (h : OldAof w.disk dk) (hcall : EnableCall w) :
    DatasetKept lt w.disk d dk := by
  obtain ⟨hman, hdata⟩ := h
  constructor
  · intro lines hlines ai hai htype
    rw [hman] at hlines
    obtain ⟨f, hf⟩ := hcall.files lines hlines ai hai htype
    have hsome : dk.fs.data (.aof ai.fileName) = some f.data := by
      rw [hdata lines hlines ai hai htype, data, hf]
      rfl
    obtain ⟨f', hf', -⟩ := Option.map_eq_some_iff.mp hsome
    exact ⟨f', hf'⟩
  · left
    unfold loadDisk
    rw [hman]
    cases hlines : w.disk.manifest with
    | none => rfl
    | some lines =>
        simp only [Option.map_some]
        cases hload : loadManifest lines with
        | none => rfl
        | some am =>
            obtain ⟨hord, hperm, -⟩ := loadManifest_some hload
            have hsame : ∀ n ∈ am.loadNames, dk.fs.data (.aof n) = w.disk.fs.data (.aof n) := by
              intro n hn
              obtain ⟨ai, hai, htype, rfl⟩ := (mem_loadNames_iff hord hperm).mp hn
              exact hdata lines hlines ai hai htype
            obtain ⟨hst, hd⟩ := loadAppendOnlyFiles_congr lt am hsame
            simp only [hst, hd]

omit [Commands A δ] [AofFormat D A δ] in
/-- As long as only new files were touched, the old AOF is there. -/
theorem OldAof.of_sameDisk (h : SameDisk (newPaths w.sv) w.disk dk) (hfree : NamesFree w) :
    OldAof w.disk dk := by
  refine ⟨h.manifest, ?_⟩
  intro lines hlines ai hai _
  apply h.data
  have hused : ai.fileName ∈ usedNames w := by
    unfold usedNames
    rw [hlines]
    exact List.mem_append_right _ (List.mem_map_of_mem hai)
  rintro (⟨n, hn⟩ | ⟨n, htemp, hn⟩ | hn | hn)
  · cases hn
  · exact hfree.own n (List.mem_cons_of_mem _ htemp) (Path.aof.inj hn ▸ hused)
  · exact hfree.base (Path.aof.inj hn ▸ hused)
  · exact hfree.incr (Path.aof.inj hn ▸ hused)

omit [Commands A δ] in
/-- The new manifest is in place, with a BASE file for the dataset `d` and an empty INCR file. -/
structure NewAof (base incr : String) (d : δ) (dk : Disk D) : Prop where
  manifest : ∃ am, Ordered am ∧ dk.manifest = some am.lines ∧ am.loadNames = [base, incr]
  base : ∃ upto, dk.fs.data (.aof base) = some (AofFormat.enc (.base d upto))
  incr : dk.fs.data (.aof incr) = some []

variable {base incr : String}

theorem NewAof.kept (h : NewAof base incr d dk) (prior : Disk D) :
    DatasetKept lt prior d dk := by
  obtain ⟨am, hord, hman, hnames⟩ := h.manifest
  obtain ⟨upto, hbase⟩ := h.base
  have hincr := h.incr
  have hfile : ∀ n ∈ am.loadNames, ∃ xs, dk.fs.data (.aof n) = some xs := by
    intro n hn
    rw [hnames] at hn
    obtain rfl | rfl : n = base ∨ n = incr := by simpa using hn
    · exact ⟨_, hbase⟩
    · exact ⟨_, hincr⟩
  constructor
  · intro lines hlines ai hai htype
    obtain rfl : am.lines = lines := by
      rw [hman, Option.some.injEq] at hlines
      exact hlines
    obtain ⟨xs, hxs⟩ := hfile _ ((mem_loadNames_iff hord (List.Perm.refl _)).mpr
      ⟨ai, hai, htype, rfl⟩)
    obtain ⟨f, hf, -⟩ := Option.map_eq_some_iff.mp hxs
    exact ⟨f, hf⟩
  · right
    have hne : am.lines ≠ [] := by
      intro hnil
      have : base ∈ am.loadNames := by simp [hnames]
      simpa [hnil] using (mem_loadNames_iff hord (List.Perm.refl _)).mp this
    have hsize : loadSize am.loadNames dk ≠ 0 := by
      have := AofFormat.enc_ne_nil (D := D) (.base d upto)
      simp [loadSize, hnames, hbase, hincr, this]
    have hload : loadAppendOnlyFiles lt { am with dirty := false } dk = (.ok, d, dk) := by
      have hnames' : ({ am with dirty := false } : AofManifest String).loadNames = [base, incr] :=
        hnames
      have hempty : ∀ d : δ, readAof lt ([] : List D) d = (.empty, d, none) := fun _ => rfl
      unfold loadAppendOnlyFiles
      rw [hnames', if_neg (by simp), if_neg (by simp [hbase, hincr]), if_neg (hnames ▸ hsize)]
      simp [loadFiles, loadSingleAppendOnlyFile, hbase, hincr, readAof_base, hempty, Disk.cut]
    unfold loadDisk
    rw [hman]
    simp only [Option.map_some, loadManifest_lines hord hne, hload]

omit [Commands A δ] in
theorem NewAof.of_sameDisk {S : Set Path} {dk' : Disk D} (h : NewAof base incr d dk)
    (hsame : SameDisk S dk dk') (hbase : Path.aof base ∉ S) (hincr : Path.aof incr ∉ S) :
    NewAof base incr d dk' := by
  refine ⟨?_, ?_, ?_⟩
  · rw [hsame.manifest]
    exact h.manifest
  · rw [hsame.data _ hbase]
    exact h.base
  · rw [hsame.data _ hincr]
    exact h.incr

end Kept

/-! ## The new manifest -/

section Manifest

variable (w : World D A δ)

omit [Commands A δ] [AofFormat D A δ] in
theorem rewrittenManifest_ordered (hord : Ordered w.sv.aofManifest)
    (hseq : w.sv.aofManifest.currBaseFileSeq + 1 ≠ 0) : Ordered (rewrittenManifest w.sv) :=
  ((hord.pushBase hseq _).pushIncr _).markRewritten true fun _ => rfl

omit [Commands A δ] [AofFormat D A δ] in
theorem rewrittenManifest_loadNames (sv : Server D A δ) :
    (rewrittenManifest sv).loadNames = [newBaseName sv, newIncrName sv] := by
  rw [rewrittenManifest_eq]
  rfl

end Manifest

/-! ## Every way through the call -/

section Call

variable {lt : Bool} {w v : World D A δ} {fd : Nat}

omit [Commands A δ] in
theorem Replaced.newAof (h : Replaced w fd v) (hcall : EnableCall w) (hfree : NamesFree w) :
    NewAof (newBaseName w.sv) (newIncrName w.sv) w.sv.dataset v.disk := by
  refine ⟨⟨_, rewrittenManifest_ordered w hcall.ordered hfree.seq, h.manifest,
    rewrittenManifest_loadNames w.sv⟩, ?_, ?_⟩
  · obtain ⟨f, hf, hdata, -⟩ := h.base
    refine ⟨w.sv.masterReplOffset, ?_⟩
    rw [data, hf]
    exact congrArg some hdata
  · obtain ⟨f, hf, hempty⟩ := h.incr.file
    rw [data, hf]
    exact congrArg some hempty

omit [Commands A δ] [AofFormat D A δ] in
/-- The two new files are none of the server's own. -/
theorem newNames_ne_temp (sv : Server D A δ) :
    Path.aof (newBaseName sv) ≠ .aof sv.conf.tempManifestName ∧
      Path.aof (newIncrName sv) ≠ .aof sv.conf.tempManifestName := by
  have hown := sv.conf.tempManifest_mem_own
  constructor
  · exact fun h => sv.conf.baseName_ne_own hown _ (Path.aof.inj h)
  · exact fun h => sv.conf.incrName_ne_own hown _ (Path.aof.inj h)

omit [Commands A δ] in
/-- At every point on the way to the new manifest, the old AOF or the new one is in place. -/
theorem Replaced.trace_kept (h : Replaced w fd v) (hcall : EnableCall w) (hfree : NamesFree w) :
    ∀ dk ∈ v.trace, OldAof w.disk dk ∨
      NewAof (newBaseName w.sv) (newIncrName w.sv) w.sv.dataset dk := by
  intro dk hdk
  rcases h.trace dk hdk with hold | hsame | hsame
  · rw [hcall.trace] at hold
    cases hold
  · exact .inl (OldAof.of_sameDisk hsame hfree)
  · exact .inr ((h.newAof hcall hfree).of_sameDisk hsame (newNames_ne_temp w.sv).1
      (newNames_ne_temp w.sv).2)

/-- The state in which `installRewrite` comes to `aofDelHistoryFiles`. -/
def installed (env : StartEnv) (sv : Server D A δ) (v : World D A δ) : World D A δ :=
  freeNames env.freed
    (installManifest (newBaseName sv) { rewrittenManifest sv with dirty := false } v)

omit [Commands A δ] [AofFormat D A δ] in
theorem installed_history (env : StartEnv) (sv : Server D A δ) (v : World D A δ) :
    (installed env sv v).sv.aofManifest.historyAofList = (rewrittenManifest sv).historyAofList := by
  show (AofManifest.reread env.freed _).historyAofList = _
  unfold AofManifest.reread
  split <;> rfl

omit [Commands A δ] [AofFormat D A δ] in
theorem rewrittenManifest_history_nil (sv : Server D A δ) :
    (rewrittenManifest sv).historyAofList = [] ↔ sv.aofManifest.lines = [] := by
  rw [rewrittenManifest_eq]
  cases hb : sv.aofManifest.baseAofInfo <;> simp [AofManifest.lines, hb, and_comm]

omit [Commands A δ] in
/-- The rest of a call that succeeds only takes files of the history away. -/
theorem Replaced.install_touches (h : Replaced w fd v) (env : StartEnv)
    (hrep : env.replaces = true) (hdir : env.persist.fsyncDir = true)
    (hnot : ¬ WritesFreedNames env w) :
    Touches (historyPaths (installed env w.sv v)) ∅ v (aofDelHistoryFiles env.persistHistory
      (installed env w.sv v)) := by
  have hinstall : Touches (historyPaths (installed env w.sv v)) ∅ v (installed env w.sv v) :=
    .of_disk rfl rfl
  refine hinstall.trans (aofDelHistoryFiles_touches _ _ fun hdel => ?_)
  obtain ⟨hgc, hne⟩ := not_or.mp hdel
  rw [installed_history, rewrittenManifest_history_nil] at hne
  have hconf : (installed env w.sv v).sv.conf = w.sv.conf := h.reopened.control.conf
  rw [hconf] at hgc
  by_contra hreplaced
  exact hnot ⟨hrep, hdir, by simpa using hreplaced, by simpa using hgc, hne⟩

omit [Commands A δ] [AofFormat D A δ] in
/-- The new files are not in the history. -/
theorem newNames_notMem_history (env : StartEnv) (hconf : v.sv.conf = w.sv.conf) {n : String}
    (hn : n ∉ w.sv.aofManifest.names) (htemp : Path.aof n ≠ .aof w.sv.conf.tempManifestName) :
    Path.aof n ∉ historyPaths (installed env w.sv v) := by
  rintro (⟨m, hm, heq⟩ | heq)
  · rw [installed_history] at hm
    exact hn (Path.aof.inj heq ▸ rewrittenManifest_hist w.sv hm)
  · have hinstalled : tempManifest (installed env w.sv v) = .aof w.sv.conf.tempManifestName :=
      tempManifest_eq hconf
    rw [hinstalled] at heq
    exact htemp heq

/-- The enable keeps the dataset unless the fsync of the directory fails or freed names are written. -/
theorem startSync_kept (env : StartEnv) (hwait : w.sv.aofState = .waitRewrite)
    (hcall : EnableCall w) (hfree : NamesFree w) (hdir : ¬ DirFsyncFails env)
    (hnames : ¬ WritesFreedNames env w) :
    ∀ dk ∈ (startSync env w).2.disk :: (startSync env w).2.trace,
      DatasetKept lt w.disk w.sv.dataset dk := by
  cases hrep : env.replaces with
  | false =>
      obtain ⟨-, hstop⟩ := startSync_stopped env hwait hrep
      have hold : ∀ dk, SameDisk (newPaths w.sv) w.disk dk →
          DatasetKept lt w.disk w.sv.dataset dk :=
        fun dk hsame => (OldAof.of_sameDisk hsame hfree).kept hcall
      intro dk hdk
      obtain rfl | hdk := List.mem_cons.mp hdk
      · exact hold _ hstop.touches.sameDisk
      · obtain hdk | hsame := hstop.touches.trace dk hdk
        · rw [hcall.trace] at hdk
          cases hdk
        · exact hold dk hsame
  | true =>
      obtain ⟨fd, v, hv, heq⟩ := startSync_replaced env hwait hrep
      have hfsync : env.persist.fsyncDir = true := by
        simpa [DirFsyncFails, hrep] using hdir
      rw [heq, if_pos hfsync]
      have htouch := hv.install_touches env hrep hfsync hnames
      have hconf : v.sv.conf = w.sv.conf := hv.reopened.control.conf
      have hbase := newNames_notMem_history env hconf
        (fun h => hfree.base (List.mem_append_left _ h)) (newNames_ne_temp w.sv).1
      have hincr := newNames_notMem_history env hconf
        (fun h => hfree.incr (List.mem_append_left _ h)) (newNames_ne_temp w.sv).2
      have hnew := hv.newAof hcall hfree
      intro dk hdk
      obtain rfl | hdk := List.mem_cons.mp hdk
      · exact (hnew.of_sameDisk htouch.sameDisk hbase hincr).kept _
      · obtain hdk | hsame := htouch.trace dk hdk
        · exact (hv.trace_kept hcall hfree dk hdk).elim (·.kept hcall) (·.kept _)
        · exact (hnew.of_sameDisk hsame hbase hincr).kept _

/-- After a failed fsync of the directory, the new manifest is on disk and the new BASE file is
gone. -/
theorem startSync_lost (env : StartEnv) (hwait : w.sv.aofState = .waitRewrite)
    (h : DirFsyncFails env) :
    ¬ DatasetKept lt w.disk w.sv.dataset (startSync env w).2.disk := by
  obtain ⟨fd, v, hv, heq⟩ := startSync_replaced env hwait h.1
  rw [heq, if_neg (by simp [h.2])]
  rintro ⟨hfiles, -⟩
  have hentry : ⟨newBaseName w.sv, w.sv.aofManifest.currBaseFileSeq + 1, .base⟩ ∈
      (rewrittenManifest w.sv).lines := by
    rw [rewrittenManifest_eq]
    exact List.mem_cons_self
  obtain ⟨f, hf⟩ := hfiles _ hv.manifest _ hentry nofun
  have htemp : newBaseName w.sv ≠ v.sv.conf.tempIncrAofName := by
    rw [show v.sv.conf = w.sv.conf from hv.reopened.control.conf]
    exact w.sv.conf.baseName_ne_own w.sv.conf.tempIncr_mem_own _
  have hincr : newBaseName w.sv ≠ newIncrName w.sv := Conf.baseName_ne_incrName _ _ _
  have hnone : (((v.disk.fs.unlink (.aof (newBaseName w.sv))).unlink
      (.aof (newIncrName w.sv))).unlink (.aof v.sv.conf.tempIncrAofName)).file
      (.aof (newBaseName w.sv)) = none := by
    rw [unlink_file_ne fun heq => htemp (Path.aof.inj heq),
      unlink_file_ne fun heq => hincr (Path.aof.inj heq), unlink_file_self]
  exact absurd (hnone.symm.trans hf) nofun

omit [Commands A δ] [AofFormat D A δ] in
/-- Which files `aofDelHistoryFiles` leaves does not depend on the names it writes. -/
theorem aofDelHistoryFiles_fs_congr (env : ManifestWrite) {w w' : World D A δ}
    (hfs : w'.disk.fs = w.disk.fs) (hconf : w'.sv.conf = w.sv.conf)
    (hhist : w'.sv.aofManifest.historyAofList = w.sv.aofManifest.historyAofList) :
    (aofDelHistoryFiles env w').disk.fs = (aofDelHistoryFiles env w).disk.fs := by
  have hunlink : ∀ (ais : List (AofInfo String)) {v v' : World D A δ}, v'.disk.fs = v.disk.fs →
      (v'.unlinkAll ais).disk.fs = (v.unlinkAll ais).disk.fs := by
    intro ais
    induction ais with
    | nil => exact fun h => h
    | cons ai ais ih =>
        intro v v' h
        exact ih (congrArg (fun fs => fs.unlink (.aof ai.fileName)) h)
  have hwrite : ∀ lines lines' {v v' : World D A δ}, v'.disk.fs = v.disk.fs → v'.sv.conf = v.sv.conf →
      (writeAofManifestFile env lines' v').disk.fs = (writeAofManifestFile env lines v).disk.fs := by
    intro lines lines' v v' h hc
    unfold writeAofManifestFile
    dsimp only
    split
    · exact h
    · split <;> simp [World.renameManifest, World.onFs, World.sys, h, hc]
  have hdel : DeletesHistory w' ↔ DeletesHistory w := by
    rw [DeletesHistory, DeletesHistory, hconf, hhist]
  rcases aofDelHistoryFiles_cases env w with ⟨hno, heq⟩ | ⟨hyes, heq⟩ <;>
    rcases aofDelHistoryFiles_cases env w' with ⟨hno', heq'⟩ | ⟨hyes', heq'⟩
  · rw [heq, heq']
    exact hfs
  · exact absurd (hdel.mp hyes') hno
  · exact absurd (hdel.mpr hyes) hno'
  · rw [heq, heq', hhist]
    refine hwrite _ _ (hunlink _ hfs) ?_
    rw [unlinkAll_sv, unlinkAll_sv]
    exact hconf

omit [Commands A δ] in
/-- Nor does anything else in the files depend on how the freed names read. -/
theorem startSync_fs_freed (env : StartEnv) (freed : Option (String × String)) (w : World D A δ) :
    (startSync { env with freed := freed } w).2.disk.fs = (startSync env w).2.disk.fs := by
  have hadopt : ∀ w : World D A δ, (adoptRewrite { env with freed := freed } w).2.disk.fs =
      (adoptRewrite env w).2.disk.fs := by
    intro w
    unfold adoptRewrite
    dsimp only
    split
    · rfl
    · split
      · rfl
      · split
        · rfl
        · refine aofDelHistoryFiles_fs_congr env.persistHistory rfl rfl ?_
          unfold freeNames AofManifest.reread
          cases freed <;> cases env.freed <;> rfl
  unfold startSync
  dsimp only
  split
  · rfl
  · split
    · rfl
    · split
      · rfl
      · exact hadopt _

/-- If the freed names come to be written, they may read so that the manifest names a BASE file that does
not exist. -/
theorem startSync_garbled (env : StartEnv) (hwait : w.sv.aofState = .waitRewrite)
    (h : WritesFreedNames env w) :
    ∃ freed, ¬ DatasetKept lt w.disk w.sv.dataset
      (startSync { env with freed := freed } w).2.disk := by
  obtain ⟨hrep, hdir, hwritten, hgc, hne⟩ := h
  have hinf : Infinite String := .of_injective String.ofList fun _ _ => String.ofList_injective
  have haof : Function.Injective Path.aof := fun _ _ => Path.aof.inj
  obtain ⟨n, hn⟩ := (startSync env w).2.disk.fs.exists_free haof
  refine ⟨some (n, n), ?_⟩
  rw [← startSync_fs_freed env (some (n, n)) w] at hn
  generalize henv : { env with freed := some (n, n) } = env' at hn
  have hfreed : env'.freed = some (n, n) := by rw [← henv]
  rw [show env.replaces = env'.replaces by rw [← henv]; rfl] at hrep
  rw [show env.persist = env'.persist by rw [← henv]] at hdir
  rw [show env.persistHistory = env'.persistHistory by rw [← henv]] at hwritten
  obtain ⟨fd, v, hv, heq⟩ := startSync_replaced env' hwait hrep
  rw [heq, if_pos hdir] at hn ⊢
  have hdel : DeletesHistory (installed env' w.sv v) := by
    have hconf : (installed env' w.sv v).sv.conf = w.sv.conf := hv.reopened.control.conf
    rw [DeletesHistory, installed_history, rewrittenManifest_history_nil, hconf, hgc]
    simpa using hne
  -- the manifest on disk has the freed name for its BASE
  have hbase : (installed env' w.sv v).sv.aofManifest.baseAofInfo =
      some ⟨n, w.sv.aofManifest.currBaseFileSeq + 1, .base⟩ := by
    show (AofManifest.reread env'.freed _).baseAofInfo = _
    rw [hfreed, rewrittenManifest_eq]
    rfl
  have hman : (aofDelHistoryFiles env'.persistHistory (installed env' w.sv v)).disk.manifest =
      some ((installed env' w.sv v).sv.aofManifest.noHistory true).lines := by
    rcases aofDelHistoryFiles_cases env'.persistHistory (installed env' w.sv v) with
      ⟨hno, -⟩ | ⟨-, hcase⟩
    · exact absurd hdel hno
    · rw [hcase]
      have hwrite := writeAofManifestFile_persisted env'.persistHistory
        ((installed env' w.sv v).sv.aofManifest.noHistory true).lines
        ((installed env' w.sv v).unlinkAll (installed env' w.sv v).sv.aofManifest.historyAofList)
      exact hwrite.manifest.trans (if_pos hwritten)
  rintro ⟨hfiles, -⟩
  have hmem : ⟨n, w.sv.aofManifest.currBaseFileSeq + 1, .base⟩ ∈
      ((installed env' w.sv v).sv.aofManifest.noHistory true).lines := by
    simp [AofManifest.lines, AofManifest.noHistory, hbase]
  obtain ⟨f, hf⟩ := hfiles _ hman _ hmem (by simp)
  simp [hf] at hn

end Call

/-! ## The result -/

section Result

variable (lt : Bool) (env : StartEnv) (w : World D A δ)

omit [Commands A δ] in
/-- The call ends with the disk of its WASI branch. -/
theorem startAppendOnly_disk (hcall : EnableCall w) :
    let v := (startSync env (w.set fun sv => { sv with aofState := .waitRewrite })).2
    (startAppendOnly env w).2.disk = v.disk ∧ (startAppendOnly env w).2.trace = v.trace := by
  rw [startAppendOnly_eq env hcall.childType hcall.inExec]
  generalize startSync env (w.set fun sv => { sv with aofState := .waitRewrite }) = r
  obtain ⟨st, v⟩ := r
  cases st <;> exact ⟨rfl, rfl⟩

end Result

/-- A server that logged a write, and whose AOF was turned off after that. -/
def disabledServer : World (Option (Rec Nat Journal)) Nat Journal :=
  { Run.run step (firstStart true)
      [.command (.write [⟨0, 7, 30⟩] false), .beforeSleep .success,
        .command (.configAppendonly false .success .success)] with
    trace := [] }

theorem disabledServer_manifest :
    disabledServer.sv.aofManifest =
        ⟨some ⟨"appendonly.aof.1.base.rdb", 1, .base⟩, [],
          [⟨"appendonly.aof.1.incr.aof", 1, .incr⟩], 1, 1, false⟩ ∧
      disabledServer.disk.manifest =
        some [⟨"appendonly.aof.1.base.rdb", 1, .base⟩, ⟨"appendonly.aof.1.incr.aof", 1, .incr⟩] := by
  decide +kernel

theorem disabledServer_call : EnableCall disabledServer where
  childType := by decide +kernel
  inExec := by decide +kernel
  trace := rfl
  ordered := by
    rw [disabledServer_manifest.1]
    constructor <;> simp [lastSeq]
  files := by
    intro lines hlines ai hai _
    rw [disabledServer_manifest.2] at hlines
    cases hlines
    have hbase : (disabledServer.disk.fs.file (.aof "appendonly.aof.1.base.rdb")).isSome = true := by
      decide +kernel
    have hincr : (disabledServer.disk.fs.file (.aof "appendonly.aof.1.incr.aof")).isSome = true := by
      decide +kernel
    obtain rfl | rfl := List.mem_pair.mp hai
    · exact Option.isSome_iff_exists.mp hbase
    · exact Option.isSome_iff_exists.mp hincr

theorem disabledServer_free : NamesFree disabledServer where
  own := by decide +kernel
  base := by decide +kernel
  incr := by decide +kernel
  seq := by decide +kernel

end WasiPorts.Redis.Aof
