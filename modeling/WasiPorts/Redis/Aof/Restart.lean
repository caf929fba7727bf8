import WasiPorts.Redis.Aof.Named
import WasiPorts.Redis.Aof.Truncated

/-!
# What a start loads

A server that starts with the AOF on loads the files of its manifest and goes on writing to the last
INCR file, or to a new one. If its start is clean (`StartsClean`), the server then holds what its files
load to, and its manifest is on disk (`serverStart_loads`). When it is restarted it finds the same files
again, and the start succeeds and is clean (`serverStart_again`, `StartsClean.again`).
-/

namespace WasiPorts.Redis.Aof

open WasiPorts.Posix WasiPorts.Posix.Fs

variable {D A δ : Type} [Commands A δ] [AofFormat D A δ]

/-! ## The files and the dataset -/

section Loads

variable {w : World D A δ} {log : Log D}

/-- The server holds what its files load to, and writes can follow in the last INCR file. -/
structure Loaded (w : World D A δ) : Prop where
  contents : ∃ xss, HaveContents w.disk w.sv.aofManifest.loadNames xss ∧
    loadContents xss (Commands.empty A) = some w.sv.dataset
  whole : LastIncrWhole w.sv.aofManifest w.disk

omit [Commands A δ] [AofFormat D A δ] in
/-- The files of the manifest are those of the log. -/
theorem Holds.haveContents (h : Holds w log) :
    HaveContents w.disk w.sv.aofManifest.loadNames (log.text []).files := by
  have hdata : ∀ {ais : List (AofInfo String)} {fs : List (Inode D)}, List.Forall₂ (Stores w) ais fs →
      ais.map (fun ai => w.disk.fs.data (.aof ai.fileName)) = fs.map fun f => some f.data := by
    intro ais fs hfs
    induction hfs with
    | nil => rfl
    | cons hst _ ih => rw [List.map_cons, List.map_cons, ih, hst.data]
  have hfiles : (log.text []).files = log.files.map (·.data) := by
    simp [Log.text, Text.files, Log.files]
  unfold HaveContents AofManifest.loadNames
  rw [List.map_map, hfiles, List.map_map]
  exact hdata h.stores

theorem Loaded.text (h : Loaded w) (hlog : Holds w log) :
    loadContents (log.text []).files (Commands.empty A) = some w.sv.dataset := by
  obtain ⟨xss, hhave, hload⟩ := h.contents
  rw [← hhave.unique hlog.haveContents]
  exact hload

/-- The last file is in one piece. -/
theorem Loaded.last_eof (h : Loaded w) (hlog : Holds w log) : (AofFormat.parse log.last.data).2 = .eof := by
  have hload := h.text hlog
  have hlast : (log.text []).last = log.last.data := by simp [Log.text]
  rw [Text.files, hlast, loadContents_append, Option.bind_eq_some_iff] at hload
  obtain ⟨d, -, hload⟩ := hload
  obtain ⟨hwhole, -⟩ := loadContents_singleton.mp hload
  obtain ⟨-, -, -, init, ai, hsplit, -, hst, -⟩ := hlog
  exact hwhole.resolve_right (h.whole ai (by simp [hsplit]) _ hst.data)

omit [Commands A δ] in
theorem LastIncrWhole.congr {am : AofManifest String} {dk dk' : Disk D} (h : LastIncrWhole (A := A) (δ := δ) am dk)
    (hdata : ∀ n ∈ am.loadNames, dk'.fs.data (.aof n) = dk.fs.data (.aof n)) :
    LastIncrWhole (A := A) (δ := δ) am dk' := by
  intro ai hai xs hxs
  have hmem : ai.fileName ∈ am.loadNames :=
    List.mem_map_of_mem (List.mem_append_right _ (List.mem_of_getLast? hai))
  rw [hdata ai.fileName hmem] at hxs
  exact h ai hai xs hxs

/-- The last INCR file is opened, or a new one that is empty. -/
theorem Loaded.openLastIncr (h : Loaded w) (env : BootEnv)
    (htemp : w.sv.conf.tempManifestName ∉
      w.sv.aofManifest.loadNames ++ [(getLastIncrAofName w.sv.conf w.sv.aofManifest).1])
    (hnew : w.sv.aofManifest.incrAofList = [] → (w.disk.fs.data (.aof (newIncrName w.sv))).getD [] = [])
    (hexit : (openLastIncr env w).exited = false) : Loaded (openLastIncr env w) := by
  obtain ⟨⟨xss, hhave, hload⟩, hwhole⟩ := h
  obtain ⟨dk, tr, size, heq, hpersist⟩ := openLastIncr_ok env hexit
  generalize hw' : Aof.openLastIncr env w = w' at heq
  have hdataset : w'.sv.dataset = w.sv.dataset := by rw [heq]
  generalize hfs : (w.disk.fs.openFile (.aof (getLastIncrAofName w.sv.conf w.sv.aofManifest).1) false true).2 = fs
    at hpersist
  have hpersisted : ∀ n ∈ w.sv.aofManifest.loadNames ++ [(getLastIncrAofName w.sv.conf w.sv.aofManifest).1],
      w'.disk.fs.data (.aof n) = fs.data (.aof n) := by
    intro n hn
    rw [heq]
    refine hpersist.keeps.data fun hsame => htemp ?_
    rwa [← Path.aof.inj (Set.mem_singleton_iff.mp hsame)]
  -- a file that exists keeps its contents when it is opened
  have hkept : ∀ n ∈ w.sv.aofManifest.loadNames, w'.disk.fs.data (.aof n) = w.disk.fs.data (.aof n) := by
    intro n hn
    obtain ⟨xs, hxs⟩ := Option.isSome_iff_exists.mp (hhave.exist n hn)
    obtain ⟨f, hf, rfl⟩ : ∃ f, w.disk.fs.file (.aof n) = some f ∧ f.data = xs := by
      simpa [Fs.data] using hxs
    rw [hpersisted n (List.mem_append_left _ hn), ← hfs]
    by_cases hname : Path.aof n = .aof (getLastIncrAofName w.sv.conf w.sv.aofManifest).1
    · simp only [Fs.data, ← hname, openFile_file_self, hf]
      rfl
    · simp only [Fs.data, openFile_file_ne false true hname]
  have hhave' := hhave.congr hkept
  cases hlast : w.sv.aofManifest.incrAofList.getLast? with
  | some ai =>
      have hsame : (getLastIncrAofName w.sv.conf w.sv.aofManifest).2 = w.sv.aofManifest := by
        simp [getLastIncrAofName, hlast]
      have hnames : w'.sv.aofManifest.loadNames = w.sv.aofManifest.loadNames := by
        rw [heq, hsame]
        rfl
      refine ⟨⟨xss, ?_, hdataset ▸ hload⟩, ?_⟩
      · rw [hnames]
        exact hhave'
      · have hincrs : w'.sv.aofManifest.incrAofList = w.sv.aofManifest.incrAofList := by
          rw [heq, hsame]
        unfold LastIncrWhole
        rw [hincrs]
        exact hwhole.congr hkept
  | none =>
      have hnil : w.sv.aofManifest.incrAofList = [] := List.getLast?_eq_none_iff.mp hlast
      have hnames : w'.sv.aofManifest.loadNames = w.sv.aofManifest.loadNames ++ [newIncrName w.sv] := by
        rw [heq]
        simp [getLastIncrAofName, hlast, getNewIncrAofName, AofManifest.pushIncr, AofManifest.loadNames,
          newIncrName]
      have hempty : w'.disk.fs.data (.aof (newIncrName w.sv)) = some [] := by
        have hname : (getLastIncrAofName w.sv.conf w.sv.aofManifest).1 = newIncrName w.sv := by
          simp [getLastIncrAofName, hlast, getNewIncrAofName, newIncrName]
        rw [hpersisted (newIncrName w.sv) (by simp [hname]), ← hfs]
        simp only [Fs.data, hname, openFile_file_self]
        have hold := hnew hnil
        unfold Fs.data at hold
        cases hf : w.disk.fs.file (.aof (newIncrName w.sv)) with
        | none => rfl
        | some f =>
            rw [hf] at hold
            exact congrArg some hold
      refine ⟨⟨xss ++ [[]], ?_, ?_⟩, ?_⟩
      · rw [hnames]
        unfold HaveContents at hhave' ⊢
        rw [List.map_append, List.map_append, hhave', List.map_singleton, hempty]
        rfl
      · rw [hdataset, loadContents_append, hload]
        exact loadContents_all_empty (by simp) _
      · intro ai hai xs hxs
        have hnew : w'.sv.aofManifest.incrAofList.getLast?.map (·.fileName) = some (newIncrName w.sv) := by
          rw [heq]
          simp [getLastIncrAofName, hlast, getNewIncrAofName, AofManifest.pushIncr, newIncrName]
        rw [Option.mem_def.mp hai, Option.map_some, Option.some_inj] at hnew
        rw [hnew, hempty] at hxs
        rw [← Option.mem_some_iff.mp hxs, AofFormat.parse_nil]
        intro h
        cases h

/-- A first BASE file is what the server holds. -/
theorem Loaded.createBase (h : Loaded w) (env : BaseEnv) (hexit : (createBaseIfNeeded env w).exited = false) :
    Loaded (createBaseIfNeeded env w) := by
  rcases createBaseIfNeeded_ok env hexit with ⟨-, heq⟩ | ⟨hempty, dk, tr, f, heq, hf, hdata, -⟩
  · rw [heq]
    exact h
  · rw [heq]
    refine ⟨⟨[baseContents w], ?_, ?_⟩, ?_⟩
    · have hnames : (w.sv.aofManifest.pushBase (newBaseName w.sv)).loadNames = [newBaseName w.sv] := by
        simp [AofManifest.loadNames, AofManifest.pushBase, hempty.2]
      show HaveContents dk (w.sv.aofManifest.pushBase (newBaseName w.sv)).loadNames _
      rw [hnames]
      simp [HaveContents, Fs.data, hf, hdata]
    · show loadContents [baseContents w] (Commands.empty A) = some w.sv.dataset
      rw [loadContents, baseContents, readAof_base]
      rfl
    · intro ai hai
      have hnil : (w.sv.aofManifest.pushBase (newBaseName w.sv)).incrAofList = [] := hempty.2
      rw [hnil] at hai
      cases hai

/-- The load, if a file that is cut is cut cleanly. -/
theorem loadAof_loaded (c : StartConf δ) (hexit : (loadAof c w).exited = false)
    (hnodup : w.sv.aofManifest.loadNames.Nodup)
    (hclean : ∀ n ∈ w.sv.aofManifest.loadNames.getLast?, ∀ xs ∈ w.disk.fs.data (.aof n), CutsClean xs)
    (htorn : ∀ ai ∈ w.sv.aofManifest.incrAofList.getLast?, ∀ xs ∈ w.disk.fs.data (.aof ai.fileName), CutsTorn xs) :
    Loaded (loadAof c w) ∧ (loadAof c w).disk.manifest = w.disk.manifest ∧
      (loadAof c w).disk.aofDir = w.disk.aofDir ∧
      ∀ n ∉ w.sv.aofManifest.loadNames, (loadAof c w).disk.fs.data (.aof n) = w.disk.fs.data (.aof n) := by
  obtain ⟨hfail, tr, size, base, heq⟩ := loadAof_ok c hexit
  obtain ⟨hloads, heof, hother, hman, hdir⟩ := loadAppendOnlyFiles_cutsClean hnodup hclean hfail
  rw [heq]
  refine ⟨⟨hloads, ?_⟩, hman, hdir, hother⟩
  intro ai hai xs hxs
  have hlast : ai.fileName ∈ w.sv.aofManifest.loadNames.getLast? := by
    unfold AofManifest.loadNames
    rw [List.getLast?_map, List.getLast?_append, Option.mem_def.mp hai]
    rfl
  rw [heof ai.fileName hlast (htorn ai hai) xs hxs]
  exact nofun

end Loads

/-! ## The manifest on disk -/

/-- A start would find the manifest. -/
structure OnDisk (dk : Disk D) (am : AofManifest String) : Prop where
  aofDir : dk.aofDir = true
  manifest : ∃ lines, dk.manifest = some lines ∧ loadManifest lines = some { am with dirty := false }

section OnDisk

omit [Commands A δ] [AofFormat D A δ]

variable {w : World D A δ} {dk : Disk D} {am : AofManifest String}

theorem OnDisk.bootManifest (h : OnDisk dk am) : bootManifest dk = some { am with dirty := false } := by
  obtain ⟨hdir, lines, hman, hload⟩ := h
  simp [Aof.bootManifest, hdir, hman, hload]

theorem OnDisk.of_eq {dk' : Disk D} (h : OnDisk dk am) (hdir : dk'.aofDir = true)
    (hman : dk'.manifest = dk.manifest) : OnDisk dk' am := by
  obtain ⟨-, lines, hlines, hload⟩ := h
  exact ⟨hdir, lines, hman.trans hlines, hload⟩

theorem OnDisk.of_lines (hdir : dk.aofDir = true) (hman : dk.manifest = some am.lines) (hord : Ordered am)
    (hne : am.lines ≠ []) : OnDisk dk am :=
  ⟨hdir, am.lines, hman, loadManifest_lines hord hne⟩

theorem lines_ne_nil_of_incr (h : am.incrAofList ≠ []) : am.lines ≠ [] := by
  simp [AofManifest.lines, h]

theorem unlinkAll_aofDir (ais : List (AofInfo String)) (w : World D A δ) :
    (w.unlinkAll ais).disk.aofDir = w.disk.aofDir := by
  unfold World.unlinkAll
  induction ais generalizing w with
  | nil => rfl
  | cons ai ais ih => exact (ih _).trans rfl

theorem aofDelHistoryFiles_aofDir (env : ManifestWrite) (w : World D A δ) :
    (aofDelHistoryFiles env w).disk.aofDir = w.disk.aofDir := by
  rcases aofDelHistoryFiles_cases env w with ⟨-, heq⟩ | ⟨-, heq⟩
  · rw [heq]
  · rw [heq]
    exact (writeAofManifestFile_persisted _ _ _).aofDir.trans (unlinkAll_aofDir _ w)

/-- Without its history, the manifest is written again. -/
theorem OnDisk.delHistory (h : OnDisk w.disk w.sv.aofManifest) (hord : Ordered w.sv.aofManifest)
    (hincr : w.sv.aofManifest.incrAofList ≠ []) :
    OnDisk (aofDelHistoryFiles .success w).disk (aofDelHistoryFiles .success w).sv.aofManifest ∧
      (aofDelHistoryFiles .success w).sv.aofManifest.incrAofList ≠ [] := by
  have hdir := aofDelHistoryFiles_aofDir .success w
  rcases aofDelHistoryFiles_cases .success w with ⟨-, heq⟩ | ⟨-, heq⟩
  · rw [heq]
    exact ⟨h, hincr⟩
  · rw [heq] at hdir ⊢
    refine ⟨?_, hincr⟩
    refine .of_lines (hdir.trans h.aofDir) ?_ (hord.dropHistory _) (lines_ne_nil_of_incr hincr)
    exact (writeAofManifestFile_persisted .success _ _).manifest

end OnDisk

/-! ## A start with the AOF on -/

/-- What a start needs, to hold what its files load to. -/
structure StartsClean (A : Type) [Commands A δ] [AofFormat D A δ] (c : StartConf δ) (dk : Disk D) : Prop where
  /-- The manifest lies in the AOF directory. -/
  dir : dk.manifest.isSome → dk.aofDir = true
  named : ∀ am, startManifest A c dk = some am → WellNamed c.conf am
  /-- Under the name of the first INCR file there is nothing yet. -/
  fresh : c.aofEnabled = true → ∀ am, startManifest A c dk = some am → am.incrAofList = [] →
    (dk.fs.data (.aof (c.conf.incrName (am.currIncrFileSeq + 1)))).getD [] = []
  /-- If the last file has to be cut, the cut is clean. -/
  cut : c.aofEnabled = true → ∀ am, bootManifest dk = some am →
    ∀ v, upgradeIfNeeded .success (bootWorld c dk am : World D A δ) = v →
    ∀ n ∈ v.sv.aofManifest.loadNames.getLast?, ∀ xs ∈ v.disk.fs.data (.aof n), CutsClean xs
  /-- If the last INCR file ends inside an annotation, it has to be cut. -/
  torn : c.aofEnabled = true → ∀ am, bootManifest dk = some am →
    ∀ v, upgradeIfNeeded .success (bootWorld c dk am : World D A δ) = v →
    ∀ ai ∈ v.sv.aofManifest.incrAofList.getLast?, ∀ xs ∈ v.disk.fs.data (.aof ai.fileName), CutsTorn xs

section Start

variable {c : StartConf δ} {dk : Disk D} {am : AofManifest String} {v₁ v₂ v₃ v₄ : World D A δ}

/-- The manifest that is loaded, and the files that the upgrade leaves alone. -/
structure BootLoaded (c : StartConf δ) (dk : Disk D) (am₁ : AofManifest String) (v : World D A δ) : Prop where
  start : startManifest A c dk = some am₁
  sv : v.sv = { initServer c with aofManifest := am₁ }
  ordered : Ordered am₁
  data : WellNamed c.conf am₁ → ∀ s, am₁.currIncrFileSeq < s →
    v.disk.fs.data (.aof (c.conf.incrName s)) = dk.fs.data (.aof (c.conf.incrName s))
  onDisk : am₁.incrAofList ≠ [] → OnDisk v.disk am₁

omit [AofFormat D A δ] in
/-- A manifest with entries was found on disk. -/
theorem bootManifest_onDisk (hman : bootManifest dk = some am) (hne : am ≠ .create) : OnDisk dk am := by
  unfold bootManifest at hman
  split at hman
  · next hdir =>
      split at hman
      · exact absurd (Option.some.inj hman).symm hne
      · next lines hlines =>
          obtain ⟨-, -, hdirty⟩ := loadManifest_some hman
          refine ⟨hdir, lines, hlines, ?_⟩
          rw [hman, ← hdirty]
  · exact absurd (Option.some.inj hman).symm hne

theorem Boot.bootLoaded (h : Boot c .success dk am v₁ v₂ v₃ v₄) : ∃ am₁, BootLoaded c dk am₁ v₁ := by
  have hord := bootManifest_ordered h.manifest
  have hexit := h.exited₁
  rw [← h.upgrade] at hexit
  rcases upgradeIfNeeded_ok .success hexit with ⟨hno, heq⟩ | hup
  · refine ⟨am, ?_, ?_, hord, ?_, ?_⟩
    · simp [startManifest, h.manifest, hno]
    · rw [← h.upgrade, heq]
      rfl
    · intro _ s _
      rw [← h.upgrade, heq]
      rfl
    · intro hincr
      rw [← h.upgrade, heq]
      have hdisk : OnDisk dk am := bootManifest_onDisk h.manifest fun hcreate => hincr (by rw [hcreate]; rfl)
      exact hdisk.of_eq hdisk.aofDir rfl
  · obtain ⟨dk₁, tr, heq⟩ := hup.world
    refine ⟨am.upgraded c.conf.aofFilename false, ?_, ?_, hord.upgraded _ _, ?_, ?_⟩
    · simp [startManifest, h.manifest, h.enabled, hup.needed]
    · rw [← h.upgrade, heq]
      rfl
    · intro hnamed s hs
      have hne : c.conf.incrName s ≠ c.conf.aofFilename := by
        intro hsame
        apply hnamed.incr s hs
        rw [hsame]
        simp [AofManifest.names, AofManifest.lines, AofManifest.upgraded]
      obtain ⟨fs, hkeeps, hfs⟩ := hup.fs
      have hfile : (fs.rename (.cwd c.conf.aofFilename) (.aof c.conf.aofFilename)).file
          (.aof (c.conf.incrName s)) = fs.file (.aof (c.conf.incrName s)) :=
        rename_file_ne (by simp) fun hsame => hne (Path.aof.inj hsame)
      have hdata : v₁.disk.fs.data (.aof (c.conf.incrName s)) = fs.data (.aof (c.conf.incrName s)) := by
        rw [← h.upgrade, hfs]
        exact congrArg (Option.map (·.data)) hfile
      refine hdata.trans (hkeeps.data fun hsame => ?_)
      exact c.conf.incrName_ne_own c.conf.tempManifest_mem_own s (Path.aof.inj (Set.mem_singleton_iff.mp hsame))
    · intro hincr
      rw [← h.upgrade]
      refine .of_lines hup.aofDir ?_ (hord.upgraded _ _) (lines_ne_nil_of_incr hincr)
      rw [hup.manifest, heq]
      rfl

omit [Commands A δ] [AofFormat D A δ] in
/-- The new entry is not yet on disk. -/
theorem getLastIncrAofName_clean {cf : Conf} (h : (getLastIncrAofName cf am).2.dirty = false) :
    am.incrAofList ≠ [] ∧ (getLastIncrAofName cf am).2 = am := by
  unfold getLastIncrAofName at h ⊢
  split
  · next hlast =>
      rw [hlast] at h
      cases h
  · next ai hlast =>
      refine ⟨?_, rfl⟩
      intro hnil
      simp [hnil] at hlast

/-- A server that has opened the last file of an AOF that it loaded. -/
structure BootOpened (v : World D A δ) : Prop where
  loaded : Loaded v
  onDisk : OnDisk v.disk v.sv.aofManifest
  incr : v.sv.aofManifest.incrAofList ≠ []

theorem loadNames_nodup {cf : Conf} (h : WellNamed cf am) : am.loadNames.Nodup := by
  have hnodup := h.nodup
  rw [AofManifest.names_eq] at hnodup
  unfold AofManifest.loadNames
  rw [List.map_append]
  refine hnodup.sublist (List.Sublist.append_right ?_ _)
  exact List.sublist_append_left _ _

/-- A server that has loaded the files of the manifest `am₁`. -/
structure BootReady (c : StartConf δ) (dk : Disk D) (am₁ : AofManifest String) (v : World D A δ) : Prop where
  loaded : Loaded v
  conf : v.sv.conf = c.conf
  named : WellNamed v.sv.conf v.sv.aofManifest
  ordered : Ordered v.sv.aofManifest
  incr : v.sv.aofManifest.incrAofList = am₁.incrAofList
  seq : v.sv.aofManifest.currIncrFileSeq = am₁.currIncrFileSeq
  data : ∀ s, am₁.currIncrFileSeq < s →
    v.disk.fs.data (.aof (c.conf.incrName s)) = dk.fs.data (.aof (c.conf.incrName s))
  onDisk : am₁.incrAofList ≠ [] → OnDisk v.disk v.sv.aofManifest

theorem BootLoaded.load {am₁ : AofManifest String} (h : BootLoaded c dk am₁ v₁) (hnamed : WellNamed c.conf am₁)
    (hcut : ∀ n ∈ am₁.loadNames.getLast?, ∀ xs ∈ v₁.disk.fs.data (.aof n), CutsClean xs)
    (htorn : ∀ ai ∈ am₁.incrAofList.getLast?, ∀ xs ∈ v₁.disk.fs.data (.aof ai.fileName), CutsTorn xs)
    (hexit : (loadAof c v₁).exited = false) :
    BootReady c dk am₁ (loadAof c v₁) ∧ (loadAof c v₁).sv.aofManifest = am₁ := by
  obtain ⟨-, hsv, hord, hdata, hdisk⟩ := h
  have ham₁ : v₁.sv.aofManifest = am₁ := by
    rw [hsv]
  have hloaded := loadAof_loaded c hexit (ham₁ ▸ loadNames_nodup hnamed) (ham₁ ▸ hcut) (ham₁ ▸ htorn)
  rw [ham₁] at hloaded
  obtain ⟨hloaded, hman, hdir, hother⟩ := hloaded
  obtain ⟨-, tr, size, base, heq⟩ := loadAof_ok c hexit
  have hconf : (loadAof c v₁).sv.conf = c.conf ∧ (loadAof c v₁).sv.aofManifest = am₁ := by
    rw [heq, hsv]
    exact ⟨rfl, rfl⟩
  obtain ⟨hconf, hsame⟩ := hconf
  refine ⟨⟨hloaded, hconf, by rwa [hconf, hsame], hsame ▸ hord, by rw [hsame], by rw [hsame], ?_, ?_⟩, hsame⟩
  · intro s hs
    rw [hother _ fun hmem => hnamed.incr s hs (loadNames_subset_names am₁ hmem)]
    exact hdata hnamed s hs
  · intro hincr
    rw [hsame]
    exact (hdisk hincr).of_eq (hdir.trans (hdisk hincr).aofDir) hman

theorem BootReady.dirCreate {am₁ : AofManifest String} (h : BootReady c dk am₁ v₂) :
    BootReady c dk am₁ v₂.dirCreate :=
  ⟨⟨h.loaded.contents, h.loaded.whole⟩, h.conf, h.named, h.ordered, h.incr, h.seq, h.data,
    fun hincr => (h.onDisk hincr).of_eq rfl rfl⟩

/-- The BASE file of a first start has another name than its INCR file. -/
theorem BootReady.createBase {am₁ : AofManifest String} (h : BootReady c dk am₁ v₂) (env : BaseEnv)
    (hexit : (createBaseIfNeeded env v₂).exited = false) :
    BootReady c dk am₁ (createBaseIfNeeded env v₂) ∧
      (createBaseIfNeeded env v₂).disk.aofDir = v₂.disk.aofDir := by
  have hloaded := h.loaded.createBase env hexit
  rcases createBaseIfNeeded_ok env hexit with ⟨-, heq⟩ | ⟨hempty, dk₃, tr, f, heq, -, -, -, -, hdir, hkeeps⟩
  · rw [heq]
    exact ⟨h, rfl⟩
  · rw [heq] at hloaded ⊢
    refine ⟨⟨hloaded, h.conf, h.named.pushBase, ?_, h.incr, h.seq, ?_, ?_⟩, hdir⟩
    · have hzero : v₂.sv.aofManifest.currBaseFileSeq = 0 := h.ordered.noBase hempty.1
      exact h.ordered.pushBase (by omega) _
    · intro s hs
      refine (hkeeps.data ?_).trans (h.data s hs)
      have hne : c.conf.incrName s ≠ newBaseName v₂.sv := by
        rw [newBaseName, h.conf]
        exact (c.conf.baseName_ne_incrName _ _).symm
      simpa using hne
    · intro hincr
      exact absurd (h.incr ▸ hempty.2) hincr

theorem BootReady.openLastIncr {am₁ : AofManifest String} (h : BootReady c dk am₁ v₃)
    (hdir : v₃.disk.aofDir = true)
    (hfresh : am₁.incrAofList = [] →
      (dk.fs.data (.aof (c.conf.incrName (am₁.currIncrFileSeq + 1)))).getD [] = [])
    (hexit : (openLastIncr .success v₃).exited = false) : BootOpened (openLastIncr .success v₃) := by
  have hnew : v₃.sv.aofManifest.incrAofList = [] →
      (v₃.disk.fs.data (.aof (newIncrName v₃.sv))).getD [] = [] := by
    intro hnil
    rw [newIncrName, h.conf, h.seq, h.data _ (Int.lt_succ _)]
    exact hfresh (h.incr ▸ hnil)
  have htemp : v₃.sv.conf.tempManifestName ∉
      v₃.sv.aofManifest.loadNames ++ [(getLastIncrAofName v₃.sv.conf v₃.sv.aofManifest).1] := by
    obtain ⟨init, ai, hsplit, hname, -⟩ := getLastIncrAofName_split v₃.sv.conf v₃.sv.aofManifest
    have hown := h.named.getLastIncr.own _ v₃.sv.conf.tempManifest_mem_own
    rw [List.mem_append, not_or]
    constructor
    · exact fun hmem => h.named.own _ v₃.sv.conf.tempManifest_mem_own (loadNames_subset_names _ hmem)
    · intro hmem
      apply hown
      rw [List.mem_singleton.mp hmem, ← hname, AofManifest.names, AofManifest.lines, hsplit]
      simp
  have hloaded := h.loaded.openLastIncr .success htemp hnew hexit
  obtain ⟨init, ai, hsplit, -⟩ := getLastIncrAofName_split v₃.sv.conf v₃.sv.aofManifest
  obtain ⟨dk₄, tr, size, heq, -, hdir₄, hman⟩ := openLastIncr_ok .success hexit
  have hord := (h.ordered.getLastIncr v₃.sv.conf).setDirty false
  rw [heq] at hloaded ⊢
  have hincr : ({ (getLastIncrAofName v₃.sv.conf v₃.sv.aofManifest).2 with dirty := false } :
      AofManifest String).incrAofList ≠ [] := by
    simp [hsplit]
  refine ⟨hloaded, ?_, hincr⟩
  rcases hman with hlines | ⟨hdirty, hlines⟩
  · exact .of_lines (hdir₄.trans hdir) hlines hord (lines_ne_nil_of_incr hincr)
  · -- there was an INCR file, so the manifest is as it was
    obtain ⟨hne, hsame⟩ := getLastIncrAofName_clean hdirty
    obtain ⟨-, lines, hl, hload⟩ := h.onDisk (h.incr ▸ hne)
    refine ⟨hdir₄.trans hdir, lines, hlines.trans hl, ?_⟩
    show loadManifest lines = some { (getLastIncrAofName v₃.sv.conf v₃.sv.aofManifest).2 with dirty := false }
    rw [hsame]
    exact hload

theorem Boot.bootOpened (h : Boot c .success dk am v₁ v₂ v₃ v₄) (hclean : StartsClean A c dk) :
    BootOpened v₄ := by
  obtain ⟨am₁, hloaded⟩ := h.bootLoaded
  have hnamed := hclean.named am₁ hloaded.start
  have hcut := hclean.cut h.enabled am h.manifest v₁ h.upgrade
  have htorn := hclean.torn h.enabled am h.manifest v₁ h.upgrade
  have ham₁ : v₁.sv.aofManifest = am₁ := by
    rw [hloaded.sv]
  rw [ham₁] at hcut htorn
  have hexit₂ := h.exited₂
  rw [← h.load] at hexit₂
  obtain ⟨hready₂, -⟩ := hloaded.load hnamed hcut htorn hexit₂
  rw [h.load] at hready₂
  have hexit₃ := h.exited₃
  rw [← h.base] at hexit₃
  obtain ⟨hready₃, hdir₃⟩ := hready₂.dirCreate.createBase _ hexit₃
  rw [h.base] at hready₃ hdir₃
  have hexit₄ := h.exited₄
  rw [← h.incr] at hexit₄ ⊢
  exact hready₃.openLastIncr hdir₃ (hclean.fresh h.enabled am₁ hloaded.start) hexit₄

/-- A server that starts with the AOF on holds what its files load to, and its manifest is on disk. -/
theorem serverStart_loads (c : StartConf δ) (dk : Disk D) (hclean : StartsClean A c dk)
    (henabled : c.aofEnabled = true) (hexit : (serverStart c .success dk : World D A δ).exited = false) :
    ∃ log, Holds (serverStart c .success dk : World D A δ) log ∧
      loadContents (log.text []).files (Commands.empty A) =
        some (serverStart c .success dk : World D A δ).sv.dataset ∧
      OnDisk (serverStart c .success dk : World D A δ).disk
        (serverStart c .success dk : World D A δ).sv.aofManifest ∧
      (serverStart c .success dk : World D A δ).sv.aofManifest.incrAofList ≠ [] ∧
      (AofFormat.parse log.last.data).2 = .eof := by
  obtain ⟨am, v₁, v₂, v₃, v₄, hboot⟩ := serverStart_boot (A := A) c .success dk henabled hexit
  obtain ⟨hloaded, hdisk, hincr⟩ := hboot.bootOpened hclean
  have hexit₄ := hboot.exited₄
  rw [← hboot.incr] at hexit₄
  obtain ⟨log, hlog⟩ := (hboot.prepared hclean.named).opened hexit₄
  rw [hboot.incr] at hlog
  obtain ⟨am', hdel⟩ := aofDelHistoryFiles_sv BootEnv.success.persistHistory v₄
  have hdataset : (serverStart c .success dk : World D A δ).sv.dataset = v₄.sv.dataset := by
    rw [hboot.start, hdel]
  rw [hdataset, hboot.start]
  obtain ⟨hdisk', hincr'⟩ := hdisk.delHistory hlog.ordered hincr
  exact ⟨log, hlog.delHistory _, hloaded.text hlog, hdisk', hincr', hloaded.last_eof hlog⟩

/-! ## A start on what a server left -/

omit [AofFormat D A δ] in
/-- Nothing is upgraded when there are INCR files. -/
theorem upgradeNeeded_bootWorld (c : StartConf δ) (hdir : dk.aofDir = true) (hincr : am.incrAofList ≠ []) :
    upgradeNeeded (bootWorld c dk am : World D A δ) = false := by
  simp [upgradeNeeded, bootWorld, hdir, hincr]

variable {xss : List (List D)} {d : δ}

theorem StartsClean.again (c : StartConf δ) (hdisk : OnDisk dk am) (hincr : am.incrAofList ≠ [])
    (hnamed : WellNamed c.conf am) (hwhole : LastIncrWhole (A := A) (δ := δ) am dk)
    (hhave : HaveContents dk am.loadNames xss) (hload : loadContents xss (Commands.empty A) = some d) :
    StartsClean A c dk := by
  have hboot := hdisk.bootManifest
  have hup : upgradeNeeded (bootWorld c dk { am with dirty := false } : World D A δ) = false :=
    upgradeNeeded_bootWorld c hdisk.aofDir hincr
  have hstart : startManifest A c dk = some { am with dirty := false } := by
    simp [startManifest, hboot, hup]
  have hsame : upgradeIfNeeded .success (bootWorld c dk { am with dirty := false } : World D A δ) =
      bootWorld c dk { am with dirty := false } := by
    simp [upgradeIfNeeded, hup]
  refine ⟨fun _ => hdisk.aofDir, ?_, ?_, ?_, ?_⟩
  · intro am' ham'
    obtain rfl := Option.some.inj (hstart.symm.trans ham')
    exact ⟨hnamed.nodup, hnamed.base, hnamed.incr, hnamed.own, hnamed.seq⟩
  · intro _ am' ham' hnil
    obtain rfl := Option.some.inj (hstart.symm.trans ham')
    exact absurd hnil hincr
  · rintro - am' ham' v rfl n hn xs hxs
    obtain rfl := Option.some.inj (hboot.symm.trans ham')
    rw [hsame] at hn hxs
    obtain ⟨d₁, hlast⟩ := hhave.last hn hxs hload
    exact .of_loadContents hlast
  · rintro - am' ham' v rfl ai hai xs hxs
    obtain rfl := Option.some.inj (hboot.symm.trans ham')
    rw [hsame] at hai hxs
    exact fun htorn => absurd htorn (hwhole ai hai xs hxs)

theorem loadAof_exited {w : World D A δ} (c : StartConf δ)
    (hhave : HaveContents w.disk w.sv.aofManifest.loadNames xss)
    (hload : loadContents xss (Commands.empty A) = some d) :
    (loadAof c w).exited = w.exited ∧ (loadAof c w).sv.aofManifest = w.sv.aofManifest := by
  have hok := (loadContents_loadAppendOnlyFiles c.aofLoadTruncated hhave hload).1
  unfold loadAof
  dsimp only
  rw [if_neg hok]
  exact ⟨rfl, rfl⟩

omit [Commands A δ] in
theorem aofOpenIfNeededOnServerStart_exited {w : World D A δ} (hincr : w.sv.aofManifest.incrAofList ≠ [])
    (hexit : w.exited = false) : (aofOpenIfNeededOnServerStart .success w).exited = false := by
  have hbase : createBaseIfNeeded BootEnv.success.base w.dirCreate = w.dirCreate := by
    unfold createBaseIfNeeded
    dsimp only
    rw [if_neg fun hempty => hincr hempty.2]
  have hlast : ∀ v : World D A δ, (openLastIncr .success v).exited = v.exited := by
    intro v
    unfold Aof.openLastIncr persistAofManifest
    dsimp only
    cases (getLastIncrAofName v.sv.conf v.sv.aofManifest).2.dirty <;> rfl
  unfold aofOpenIfNeededOnServerStart
  split
  · exact hexit
  · rw [if_neg (by simp [BootEnv.success]), hbase]
    exact andThen_inv (I := fun v => v.exited = false) hexit fun _ => (hlast _).trans hexit

/-- The server starts on files that can be loaded. -/
theorem serverStart_again (c : StartConf δ) (hdisk : OnDisk dk am) (hincr : am.incrAofList ≠ [])
    (hhave : HaveContents dk am.loadNames xss) (hload : loadContents xss (Commands.empty A) = some d) :
    (serverStart c .success dk : World D A δ).exited = false := by
  have hup : upgradeNeeded (bootWorld c dk { am with dirty := false } : World D A δ) = false :=
    upgradeNeeded_bootWorld c hdisk.aofDir hincr
  rw [serverStart_eq, hdisk.bootManifest]
  dsimp only
  generalize hv : (bootWorld c dk { am with dirty := false } : World D A δ) = v at hup
  have hexit : v.exited = false := by
    rw [← hv]
    rfl
  have hhave' : HaveContents v.disk v.sv.aofManifest.loadNames xss := by
    rw [← hv]
    exact hhave
  have hincr' : v.sv.aofManifest.incrAofList ≠ [] := by
    rw [← hv]
    exact hincr
  have hdata : (loadDataFromDisk c .success v).exited = false ∧
      (loadDataFromDisk c .success v).sv.aofManifest = v.sv.aofManifest := by
    unfold loadDataFromDisk upgradeIfNeeded
    split
    · rw [hup, if_neg (by simp), World.andThen_running hexit]
      obtain ⟨hload₁, hload₂⟩ := loadAof_exited c hhave' hload
      exact ⟨hload₁.trans hexit, hload₂⟩
    · exact ⟨hexit, rfl⟩
  have hopen := aofOpenIfNeededOnServerStart_exited (hdata.2 ▸ hincr') hdata.1
  rw [World.andThen_running hdata.1, World.andThen_running hopen, aofDelHistoryFiles_exited]
  exact hopen

end Start

end WasiPorts.Redis.Aof
