import WasiPorts.Redis.Aof.Frame

/-!
# What the AOF code does to files

`Touches S C` says that a call changes no file but those called as in `S`, loses no descriptor but
those in `C`, and does not change the manifest file, also at every point in between where the
process could have stopped. For each function that changes files there is one lemma with `Touches`
and one with what it makes of the files it touches.
-/

namespace WasiPorts.Redis.Aof

open WasiPorts.Posix WasiPorts.Posix.Fs

variable {D A δ : Type}

/-- What is on the disk apart from the files called as in `S`. -/
structure SameDisk (S : Set Path) (dk dk' : Disk D) : Prop where
  manifest : dk'.manifest = dk.manifest
  data : ∀ p, p ∉ S → dk'.fs.data p = dk.fs.data p

structure Touches (S : Set Path) (C : Set Nat) (w w' : World D A δ) : Prop where
  keeps : Keeps S C w.disk.fs w'.disk.fs
  manifest : w'.disk.manifest = w.disk.manifest
  trace : ∀ dk ∈ w'.trace, dk ∈ w.trace ∨ SameDisk S w.disk dk

variable {S S' : Set Path} {C C' : Set Nat} {w w₁ w₂ w₃ : World D A δ}

theorem SameDisk.trans {dk₁ dk₂ dk₃ : Disk D} (h : SameDisk S dk₁ dk₂) (h' : SameDisk S dk₂ dk₃) :
    SameDisk S dk₁ dk₃ :=
  ⟨h'.manifest.trans h.manifest, fun p hp => (h'.data p hp).trans (h.data p hp)⟩

theorem SameDisk.mono {dk dk' : Disk D} (h : SameDisk S dk dk') (hS : S ⊆ S') : SameDisk S' dk dk' :=
  ⟨h.manifest, fun p hp => h.data p fun hm => hp (hS hm)⟩

namespace Touches

theorem sameDisk (h : Touches S C w₁ w₂) : SameDisk S w₁.disk w₂.disk :=
  ⟨h.manifest, fun _ hp => h.keeps.data hp⟩

theorem refl (w : World D A δ) : Touches S C w w := ⟨.refl _, rfl, fun _ h => .inl h⟩

theorem trans (h : Touches S C w₁ w₂) (h' : Touches S C w₂ w₃) : Touches S C w₁ w₃ := by
  refine ⟨h.keeps.trans h'.keeps, h'.manifest.trans h.manifest, ?_⟩
  intro dk hdk
  obtain hdk | hsame := h'.trace dk hdk
  · exact h.trace dk hdk
  · exact .inr (h.sameDisk.trans hsame)

theorem mono (h : Touches S C w₁ w₂) (hS : S ⊆ S') (hC : C ⊆ C') : Touches S' C' w₁ w₂ := by
  refine ⟨h.keeps.mono hS hC, h.manifest, ?_⟩
  intro dk hdk
  obtain hdk | hsame := h.trace dk hdk
  · exact .inl hdk
  · exact .inr (hsame.mono hS)

/-- A system call that changes files. -/
theorem onFs {f : Fs Path D → Fs Path D} (h : Keeps S C w.disk.fs (f w.disk.fs)) :
    Touches S C w (w.onFs f) := by
  refine ⟨h, rfl, ?_⟩
  intro dk hdk
  obtain hdk | rfl : dk ∈ w.trace ∨ dk = { w.disk with fs := f w.disk.fs } := by
    simpa [World.onFs, World.sys] using hdk
  · exact .inl hdk
  · exact .inr ⟨rfl, fun p hp => h.data hp⟩

/-- Changes to `server` alone. -/
theorem of_disk (hdisk : w₂.disk = w₁.disk) (htrace : w₂.trace = w₁.trace) :
    Touches S C w₁ w₂ :=
  ⟨hdisk ▸ .refl _, hdisk ▸ rfl, fun _ h => .inl (htrace ▸ h)⟩

theorem dirCreate (w : World D A δ) : Touches S C w w.dirCreate := by
  refine ⟨.refl _, rfl, ?_⟩
  intro dk hdk
  obtain hdk | rfl : dk ∈ w.trace ∨ dk = { w.disk with aofDir := true } := by
    simpa [World.dirCreate, World.sys] using hdk
  · exact .inl hdk
  · exact .inr ⟨rfl, fun p _ => rfl⟩

/-- A descriptor that was not open before cannot be missed. -/
theorem of_newFd (h : Touches S {w₁.disk.fs.nextFd} w₁ w₂) : Touches S ∅ w₁ w₂ := by
  refine ⟨⟨h.keeps.file, ?_⟩, h.manifest, h.trace⟩
  intro p hp fd _ hd ho
  refine h.keeps.openTo p hp fd ?_ hd ho
  rw [Set.mem_singleton_iff]
  exact Nat.ne_of_lt (w₁.disk.fs.handle_lt fd hd ho.1)

end Touches

/-! ## The manifest file -/

/-- The temporary file of `writeAofManifestFile`. -/
def tempManifest (w : World D A δ) : Path := .aof w.sv.conf.tempManifestName

theorem tempManifest_eq (h : w₁.sv.conf = w.sv.conf) :
    tempManifest w₁ = .aof w.sv.conf.tempManifestName := by
  rw [tempManifest, h]

/-- The temporary file is open. -/
def manifestOpened (w : World D A δ) : World D A δ :=
  w.onFs fun fs => (fs.openFile (tempManifest w) true false).2

theorem manifestOpened_touches (w : World D A δ) :
    Touches {tempManifest w} C w (manifestOpened w) := Touches.onFs (.openFile _ true false rfl)

/-- `writeAofManifestFile` does nothing, leaves the temporary file behind, or renames it. -/
theorem writeAofManifestFile_cases (env : ManifestWrite) (lines : List (AofInfo String))
    (w : World D A δ) :
    env.replaced = false ∧ writeAofManifestFile env lines w = w ∨
      env.replaced = false ∧ writeAofManifestFile env lines w =
        (manifestOpened w).onFs (·.close w.disk.fs.nextFd) ∨
      env.replaced = true ∧ writeAofManifestFile env lines w =
        ((manifestOpened w).renameManifest (tempManifest w) lines).onFs
          (·.close w.disk.fs.nextFd) := by
  unfold writeAofManifestFile
  dsimp only
  cases hopen : env.openTemp with
  | false => exact .inl ⟨by simp [ManifestWrite.replaced, hopen], rfl⟩
  | true =>
      cases hrep : env.replaced with
      | false => exact .inr (.inl ⟨rfl, rfl⟩)
      | true => exact .inr (.inr ⟨rfl, rfl⟩)

/-- `writeAofManifestFile` touches the temporary manifest, and replaces the manifest file if it comes
to that. -/
structure Persisted (env : ManifestWrite) (lines : List (AofInfo String)) (w w' : World D A δ) :
    Prop where
  keeps : Keeps {tempManifest w} ∅ w.disk.fs w'.disk.fs
  manifest : w'.disk.manifest = if env.replaced then some lines else w.disk.manifest
  aofDir : w'.disk.aofDir = w.disk.aofDir
  trace : ∀ dk ∈ w'.trace, dk ∈ w.trace ∨ SameDisk {tempManifest w} w.disk dk ∨
    env.replaced = true ∧ SameDisk {tempManifest w} { w.disk with manifest := some lines } dk

theorem writeAofManifestFile_persisted (env : ManifestWrite) (lines : List (AofInfo String))
    (w : World D A δ) : Persisted env lines w (writeAofManifestFile env lines w) := by
  have hclose : ∀ v : World D A δ, Touches {tempManifest w} {w.disk.fs.nextFd} v
      (v.onFs (·.close w.disk.fs.nextFd)) := fun v => Touches.onFs (.close _ rfl)
  rcases writeAofManifestFile_cases env lines w with ⟨hrep, heq⟩ | ⟨hrep, heq⟩ | ⟨hrep, heq⟩
  · rw [heq]
    exact ⟨.refl _, by simp [hrep], rfl, fun dk hdk => .inl hdk⟩
  · have htouch := ((manifestOpened_touches w).trans (hclose _)).of_newFd
    rw [heq]
    exact ⟨htouch.keeps, by simpa [hrep] using htouch.manifest, rfl,
      fun dk hdk => (htouch.trace dk hdk).imp_right .inl⟩
  · -- but for the new manifest, the rename only takes the temporary file away
    have hunlink : Touches {tempManifest w} {w.disk.fs.nextFd} (manifestOpened w)
        ((manifestOpened w).onFs (·.unlink (tempManifest w))) := Touches.onFs (.unlink _ rfl)
    have hrenamed := (manifestOpened_touches w).trans hunlink
    have htouch := (hrenamed.trans (hclose _)).of_newFd
    have hdone : ∀ fs, (∀ p, p ∉ ({tempManifest w} : Set Path) → fs.data p = w.disk.fs.data p) →
        SameDisk {tempManifest w} { w.disk with manifest := some lines }
          { (manifestOpened w).disk with fs := fs, manifest := some lines } :=
      fun fs hfs => ⟨rfl, hfs⟩
    rw [heq]
    refine ⟨htouch.keeps, by simp [hrep, World.renameManifest, World.onFs, World.sys], rfl, ?_⟩
    intro dk hdk
    rw [World.onFs, World.sys, List.mem_append, World.renameManifest, World.sys, List.mem_append,
      List.mem_singleton, List.mem_singleton] at hdk
    rcases hdk with (hdk | hdk) | hdk
    · exact ((manifestOpened_touches (C := ∅) w).trace dk hdk).imp_right .inl
    · rw [hdk]
      exact .inr (.inr ⟨hrep, hdone _ hrenamed.sameDisk.data⟩)
    · rw [hdk]
      exact .inr (.inr ⟨hrep, hdone _ htouch.sameDisk.data⟩)

/-- A write of the manifest that does not get as far as the rename. -/
theorem Persisted.touches {env : ManifestWrite} {lines : List (AofInfo String)}
    (h : Persisted env lines w w₁) (hrep : env.replaced = false) :
    Touches {tempManifest w} ∅ w w₁ := by
  refine ⟨h.keeps, by simpa [hrep] using h.manifest, fun dk hdk => ?_⟩
  rcases h.trace dk hdk with hold | hsame | ⟨hnew, -⟩
  · exact .inl hold
  · exact .inr hsame
  · rw [hrep] at hnew
    cases hnew

/-- The descriptor of the AOF is one that was opened. -/
def FdValid (w : World D A δ) : Prop := ∀ fd, w.sv.aofFd = some fd → fd < w.disk.fs.nextFd

/-! ## Switching files -/

theorem bioAofFsync_touches (fsyncOk : Bool) (fd : Nat) (w : World D A δ) :
    Touches S C w (bioAofFsync fsyncOk fd w) := by
  unfold bioAofFsync
  split
  · have hsync : Touches S C w (w.onFs (·.fsync fd)) := Touches.onFs (.fsync _ fd)
    exact hsync.trans (.of_disk rfl rfl)
  · exact .of_disk rfl rfl

theorem closeOldAof_touches (fsyncOk : Bool) (h : ∀ fd, w.sv.aofFd = some fd → fd ∈ C) :
    Touches S C w (closeOldAof fsyncOk w) := by
  unfold closeOldAof
  split
  · exact .refl w
  · next fd hfd =>
      have hclose : ∀ v : World D A δ, Touches S C v (v.onFs (·.close fd)) :=
        fun v => Touches.onFs (.close _ (h fd hfd))
      exact ((bioAofFsync_touches fsyncOk fd w).trans (hclose _)).trans (.of_disk rfl rfl)

theorem switchIncr_touches (fsyncOk : Bool) (newfd : Nat) (am : AofManifest String)
    (h : ∀ fd, w.sv.aofFd = some fd → fd ∈ C) : Touches S C w (switchIncr fsyncOk newfd am w) :=
  (closeOldAof_touches fsyncOk h).trans (.of_disk rfl rfl)

/-- The AOF was switched to the descriptor `newfd` and the manifest `am`. -/
structure Reopened (newfd : Nat) (am : AofManifest String) (w w' : World D A δ) : Prop where
  control : Control w w'
  aofFd : w'.sv.aofFd = some newfd
  aofManifest : w'.sv.aofManifest = am
  aofBuf : w'.sv.aofBuf = w.sv.aofBuf
  aofSelectedDb : w'.sv.aofSelectedDb = w.sv.aofSelectedDb
  aofLastIncrSize : w'.sv.aofLastIncrSize = 0
  aofLastIncrFsyncOffset : w'.sv.aofLastIncrFsyncOffset = 0
  pending : w'.sv.fsyncedReploffPending = w.sv.fsyncedReploffPending ∨
    w'.sv.fsyncedReploffPending = w.sv.masterReplOffset
  fsyncedReploff : w'.sv.fsyncedReploff = w.sv.fsyncedReploff
  exited : w'.exited = w.exited

theorem switchIncr_reopened (fsyncOk : Bool) (newfd : Nat) (am : AofManifest String)
    (w : World D A δ) : Reopened newfd am w (switchIncr fsyncOk newfd am w) := by
  have hcontrol := switchIncr_control fsyncOk newfd am w
  unfold switchIncr closeOldAof at hcontrol ⊢
  cases hfd : w.sv.aofFd with
  | none =>
      rw [hfd] at hcontrol
      exact ⟨hcontrol, rfl, rfl, rfl, rfl, rfl, rfl, .inl rfl, rfl, rfl⟩
  | some fd =>
      rw [hfd] at hcontrol
      cases fsyncOk with
      | false => exact ⟨hcontrol, rfl, rfl, rfl, rfl, rfl, rfl, .inl rfl, rfl, rfl⟩
      | true => exact ⟨hcontrol, rfl, rfl, rfl, rfl, rfl, rfl, .inr rfl, rfl, rfl⟩

/-- Work on the disk alone. -/
theorem Reopened.onDisk {newfd : Nat} {am : AofManifest String} {w' : World D A δ}
    (h : Reopened newfd am w w') (dk : Disk D) (tr : List (Disk D)) :
    Reopened newfd am w { w' with disk := dk, trace := tr } := by
  have hdisk : Control w' { w' with disk := dk, trace := tr } := by
    repeat' constructor
  exact ⟨h.control.trans hdisk, h.aofFd, h.aofManifest, h.aofBuf, h.aofSelectedDb,
    h.aofLastIncrSize, h.aofLastIncrFsyncOffset, h.pending, h.fsyncedReploff, h.exited⟩

theorem Reopened.ofDisk {newfd : Nat} {am : AofManifest String} {w' : World D A δ} {dk : Disk D}
    {tr : List (Disk D)} (h : Reopened newfd am { w with disk := dk, trace := tr } w') :
    Reopened newfd am w w' := by
  have hdisk : Control w { w with disk := dk, trace := tr } := by
    repeat' constructor
  exact ⟨hdisk.trans h.control, h.aofFd, h.aofManifest, h.aofBuf, h.aofSelectedDb,
    h.aofLastIncrSize, h.aofLastIncrFsyncOffset, h.pending, h.fsyncedReploff, h.exited⟩

/-- `openNewIncrAofForAppend` while waiting for the rewrite. -/
theorem openNewIncrAofForAppend_wait (env : OpenIncrEnv) (hwait : w.sv.aofState = .waitRewrite) :
    openNewIncrAofForAppend env w =
      let temp := Path.aof w.sv.conf.tempIncrAofName
      if env.openNew = false then (.err, w)
      else (.ok, switchIncr env.closeFsync (w.disk.fs.openFile temp true false).1
        w.sv.aofManifest (w.onFs fun fs => (fs.openFile temp true false).2)) := by
  unfold openNewIncrAofForAppend
  rw [hwait]
  cases env.openNew <;> rfl

theorem unlinkAll_touches (ais : List (AofInfo String)) (w : World D A δ)
    (h : ∀ ai ∈ ais, Path.aof ai.fileName ∈ S) : Touches S C w (w.unlinkAll ais) := by
  induction ais generalizing w with
  | nil => exact .refl w
  | cons ai ais ih =>
      have hunlink : Touches S C w (w.bgUnlink (.aof ai.fileName)) :=
        Touches.onFs (.unlink _ (h ai List.mem_cons_self))
      exact hunlink.trans (ih _ fun b hb => h b (List.mem_cons_of_mem ai hb))

/-! ## `rewriteAppendOnlyFile` -/

section Rewrite

variable [AofFormat D A δ]

/-- What `rewriteAppendOnlyFile` puts into the file. -/
def baseContents (w : World D A δ) : List D :=
  AofFormat.enc (.base w.sv.dataset w.sv.masterReplOffset)

/-- `rewriteAppendOnlyFile` succeeds if all its steps do. -/
theorem rewriteAppendOnlyFile_ok_iff (env : BaseEnv) (dst : Path) (w : World D A δ) :
    (rewriteAppendOnlyFile env dst w).1 = .ok ↔ env = .success := by
  obtain ⟨openTemp, saved, sync, rename⟩ := env
  unfold rewriteAppendOnlyFile BaseEnv.success
  cases openTemp <;> cases saved <;> cases sync <;> cases rename <;> simp

theorem rewriteAppendOnlyFile_onDisk (env : BaseEnv) (dst : Path) (w : World D A δ) :
    ∃ dk tr, (rewriteAppendOnlyFile env dst w).2 = { w with disk := dk, trace := tr } := by
  unfold rewriteAppendOnlyFile
  dsimp only
  split
  · exact ⟨_, _, rfl⟩
  · split
    · exact ⟨_, _, rfl⟩
    · split
      · exact ⟨_, _, rfl⟩
      · split <;> exact ⟨_, _, rfl⟩

/-- Only the temporary file and the destination are touched. -/
theorem rewriteAppendOnlyFile_touches (env : BaseEnv) (dst : Path) (w : World D A δ) :
    Touches {.cwd (tempRewriteName w.sv), dst} ∅ w (rewriteAppendOnlyFile env dst w).2 := by
  apply Touches.of_newFd
  generalize htmp : Path.cwd (tempRewriteName w.sv) = tmp
  have hmem : tmp ∈ ({tmp, dst} : Set Path) := Set.mem_insert _ _
  have hdst : dst ∈ ({tmp, dst} : Set Path) := by simp
  generalize ({tmp, dst} : Set Path) = S at hmem hdst ⊢
  unfold rewriteAppendOnlyFile
  dsimp only
  rw [htmp]
  have hat : (w.disk.fs.openFile tmp true false).2.OpenAt w.disk.fs.nextFd tmp :=
    openFile_openAt (.inl rfl)
  obtain ⟨hd, hto⟩ := hat.openTo
  have hwrite : ∀ xs : List D, Touches S {w.disk.fs.nextFd} w
      ((w.onFs fun fs => (fs.openFile tmp true false).2).onFs (·.write w.disk.fs.nextFd xs)) := by
    intro xs
    have hopen : Touches S {w.disk.fs.nextFd} w
        (w.onFs fun fs => (fs.openFile tmp true false).2) :=
      Touches.onFs (.openFile _ true false hmem)
    exact hopen.trans (Touches.onFs (.write hto hmem))
  have hfsync : ∀ v : World D A δ, Touches S {w.disk.fs.nextFd} v
      (v.onFs (·.fsync w.disk.fs.nextFd)) := fun v => Touches.onFs (.fsync _ _)
  have hclose : ∀ v : World D A δ, Touches S {w.disk.fs.nextFd} v
      (v.onFs (·.close w.disk.fs.nextFd)) := fun v => Touches.onFs (.close _ rfl)
  have hunlink : ∀ v : World D A δ, Touches S {w.disk.fs.nextFd} v (v.onFs (·.unlink tmp)) :=
    fun v => Touches.onFs (.unlink _ hmem)
  have hrename : ∀ v : World D A δ, Touches S {w.disk.fs.nextFd} v (v.onFs (·.rename tmp dst)) :=
    fun v => Touches.onFs (.rename _ hmem hdst)
  split
  · exact Touches.refl w
  · split
    · exact ((hwrite _).trans (hclose _)).trans (hunlink _)
    · split
      · exact ((hwrite _).trans (hclose _)).trans (hunlink _)
      · have hsync := ((hwrite (baseContents w)).trans (hfsync _)).trans (hclose _)
        split
        · exact hsync.trans (hunlink _)
        · exact hsync.trans (hrename _)

/-- On success the destination holds the dataset, on stable storage. -/
theorem rewriteAppendOnlyFile_file (env : BaseEnv) (dst : Path) (w : World D A δ)
    (hok : (rewriteAppendOnlyFile env dst w).1 = .ok) :
    ∃ f, (rewriteAppendOnlyFile env dst w).2.disk.fs.file dst = some f ∧
      f.data = baseContents w ∧ f.synced = f.data.length := by
  generalize htmp : Path.cwd (tempRewriteName w.sv) = tmp
  have hat : (w.disk.fs.openFile tmp true false).2.OpenAt w.disk.fs.nextFd tmp :=
    openFile_openAt (.inl rfl)
  have hnew : (w.disk.fs.openFile tmp true false).2.file tmp = some .new :=
    openFile_file_self true false
  have hwritten : ((w.disk.fs.openFile tmp true false).2.write w.disk.fs.nextFd
      (baseContents w)).file tmp = some (Inode.new.append (baseContents w)) := hat.write_file hnew
  have hat' : ((w.disk.fs.openFile tmp true false).2.write w.disk.fs.nextFd
      (baseContents w)).OpenAt w.disk.fs.nextFd tmp := hat.write
  obtain ⟨hd, hto⟩ := hat'.openTo
  have hsynced := hto.fsync_file hwritten
  unfold rewriteAppendOnlyFile at hok ⊢
  dsimp only at hok ⊢
  rw [htmp] at hok ⊢
  split at hok
  · cases hok
  · rw [if_neg (by assumption)]
    split at hok
    · cases hok
    · split at hok
      · cases hok
      · rw [if_neg (by assumption)]
        split at hok
        · cases hok
        · rw [if_neg (by assumption)]
          exact ⟨_, rename_file_to hsynced, rfl, rfl⟩

end Rewrite

end WasiPorts.Redis.Aof
