import WasiPorts.Redis.Aof.Enable
import WasiPorts.Redis.Aof.Startup

/-!
# The logical AOF

While the AOF is on, the files that the manifest names make up a log: a BASE, INCR files that are
complete, and the last INCR file, which is open for appending. `Holds w log` connects the log with
the manifest, the directory and the descriptor of `w`; the operations of the log below are what
the server does to it. Which names and descriptors are involved is decided here and does not
matter afterwards.
-/

namespace WasiPorts.Redis.Aof

open WasiPorts.Posix WasiPorts.Posix.Fs

variable {D A δ : Type}

/-! ## Logs -/

/-- `base` has at most one element. -/
structure Log (D : Type) where
  base : List (Inode D)
  incrs : List (Inode D)
  last : Inode D

namespace Log

def files (log : Log D) : List (Inode D) := log.base ++ log.incrs ++ [log.last]

def write (log : Log D) (xs : List D) : Log D := { log with last := log.last.append xs }

def sync (log : Log D) : Log D := { log with last := log.last.sync }

/-- The fsync of the last file, if it succeeds. -/
def trySync (log : Log D) (ok : Bool) : Log D := if ok then log.sync else log

/-- A new INCR file. -/
def switch (log : Log D) : Log D := ⟨log.base, log.incrs ++ [log.last], .new⟩

/-- A new BASE with a new INCR file. -/
def rewritten (base : Inode D) : Log D := ⟨[base], [], .new⟩

end Log

/-- What a server that starts would read if `buf` were written out: the contents of the BASE, of
the INCR files and of the last one. -/
structure Text (D : Type) where
  base : List (List D)
  incrs : List (List D)
  last : List D

def Log.text (log : Log D) (buf : List D) : Text D :=
  ⟨log.base.map (·.data), log.incrs.map (·.data), log.last.data ++ buf⟩

@[simp] theorem Log.sync_text (log : Log D) (buf : List D) : log.sync.text buf = log.text buf := rfl

@[simp] theorem Log.trySync_text (log : Log D) (ok : Bool) (buf : List D) :
    (log.trySync ok).text buf = log.text buf := by
  cases ok <;> rfl

@[simp] theorem Log.write_text (log : Log D) (buf : List D) :
    (log.write buf).text [] = log.text buf := by
  simp [write, text]

/-- The manifest with one more INCR file, once it is on disk. -/
def nextManifest (sv : Server D A δ) : AofManifest String :=
  { sv.aofManifest.pushIncr (newIncrName sv) with dirty := false }

theorem loadNames_subset_names (am : AofManifest String) : am.loadNames ⊆ am.names := by
  intro n hn
  obtain ⟨ai, hai, rfl⟩ := List.mem_map.mp hn
  refine List.mem_map_of_mem ?_
  obtain hb | hi := List.mem_append.mp hai
  · exact List.mem_append_left _ (List.mem_append_left _ hb)
  · exact List.mem_append_right _ hi

/-- The new INCR file is open. -/
def incrOpened (w : World D A δ) : World D A δ :=
  w.onFs fun fs => (fs.openFile (.aof (newIncrName w.sv)) true false).2

/-! ## The files of the manifest -/

/-- The file of the entry `ai` has the contents of `f`, and at least as much of them is on stable
storage. -/
def Stores (w : World D A δ) (ai : AofInfo String) (f : Inode D) : Prop :=
  SameData (some f) (w.disk.fs.file (.aof ai.fileName))

/-- Writes through `fd` go to the end of the file called `p`, of length `n`. With `gaps` they may also
leave a gap. -/
def WritesTo (gaps : Bool) (fs : Fs Path D) (fd : Nat) (p : Path) (n : Nat) : Prop :=
  ∃ hd, fs.OpenTo fd hd p ∧ (hd.append = true ∨ hd.off = n ∨ gaps = true ∧ n ≤ hd.off)

structure HoldsWith (gaps : Bool) (w : World D A δ) (log : Log D) : Prop where
  named : WellNamed w.sv.conf w.sv.aofManifest
  ordered : Ordered w.sv.aofManifest
  base : List.Forall₂ (Stores w) w.sv.aofManifest.baseAofInfo.toList log.base
  incr : ∃ init ai, w.sv.aofManifest.incrAofList = init ++ [ai] ∧
    List.Forall₂ (Stores w) init log.incrs ∧ Stores w ai log.last ∧
    ∃ fd, w.sv.aofFd = some fd ∧
      WritesTo gaps w.disk.fs fd (.aof ai.fileName) log.last.data.length

/-- The files of the manifest are those of the log, and `aof_fd` is at the end of the last one. -/
abbrev Holds (w : World D A δ) (log : Log D) : Prop := HoldsWith false w log

/-- `aof_fd` was opened with `O_APPEND`. -/
def Appending (w : World D A δ) : Prop :=
  (w.sv.aofFd.bind fun fd => (w.disk.fs.handle fd).map (·.append)) = some true

instance (w : World D A δ) : Decidable (Appending w) := inferInstanceAs (Decidable (_ = _))

variable {w w' : World D A δ} {log : Log D} {S : Set Path} {C : Set Nat} {fd : Nat}
  {ai : AofInfo String} {f : Inode D} {gaps gaps' : Bool} {xs : List D}

/-- A descriptor as in `WritesTo` is not before the end of its file. -/
theorem le_writeOff {hd : Handle} {n : Nat} (hf : f.data.length = n)
    (h : hd.append = true ∨ hd.off = n ∨ gaps = true ∧ n ≤ hd.off) :
    f.data.length ≤ hd.writeOff f := by
  unfold Handle.writeOff
  split
  · exact le_rfl
  · next hna =>
      rw [hf]
      rcases h with happ | hoff | ⟨-, hle⟩
      · exact absurd happ hna
      · exact hoff.ge
      · exact hle

theorem WritesTo.of_openAt {fs : Fs Path D} {p : Path} (h : fs.OpenAt fd p) (hf : fs.data p = some xs) :
    WritesTo gaps fs fd p xs.length := by
  obtain ⟨hd, f, hto, hfile, hend⟩ := openAt_iff.mp h
  obtain rfl : f.data = xs := by simpa [data, hfile] using hf
  exact ⟨hd, hto, hend.imp_right .inl⟩

theorem Stores.data (h : Stores w ai f) : w.disk.fs.data (.aof ai.fileName) = some f.data :=
  h.map_data

theorem Stores.keeps (h : Stores w ai f) (hk : Keeps S C w.disk.fs w'.disk.fs)
    (hS : Path.aof ai.fileName ∉ S) : Stores w' ai f :=
  h.trans (hk.file _ hS)

theorem Stores.keeps_all {ais : List (AofInfo String)} {fs : List (Inode D)}
    (h : List.Forall₂ (Stores w) ais fs) (hk : Keeps S C w.disk.fs w'.disk.fs)
    (hS : ∀ ai ∈ ais, Path.aof ai.fileName ∉ S) : List.Forall₂ (Stores w') ais fs := by
  induction h with
  | nil => exact .nil
  | cons hst _ ih =>
      exact .cons (hst.keeps hk (hS _ List.mem_cons_self))
        (ih fun ai hai => hS ai (List.mem_cons_of_mem _ hai))

/-- A write of the manifest file leaves the open descriptors where they are. -/
theorem writeAofManifestFile_handle (env : ManifestWrite) (lines : List (AofInfo String))
    (h : fd < w.disk.fs.nextFd) :
    (writeAofManifestFile env lines w).disk.fs.handle fd = w.disk.fs.handle fd := by
  have hne : fd ≠ w.disk.fs.nextFd := Nat.ne_of_lt h
  have hopen : (w.disk.fs.openFile (.aof w.sv.conf.tempManifestName) true false).2.handle fd =
      w.disk.fs.handle fd := openFile_handle_ne true false hne
  unfold writeAofManifestFile
  dsimp only
  split
  · rfl
  · rw [← hopen]
    have hfd : fd ≠ (w.disk.fs.openFile (.aof w.sv.conf.tempManifestName) true false).1 := hne
    split <;> exact Function.update_of_ne hfd _ _

namespace HoldsWith

/-- Work on other files, without a change of the manifest or the descriptor. -/
theorem keeps (h : HoldsWith gaps w log) (hk : Keeps S C w.disk.fs w'.disk.fs)
    (hS : ∀ n ∈ w.sv.aofManifest.loadNames, Path.aof n ∉ S)
    (hC : ∀ fd, w.sv.aofFd = some fd → fd ∉ C) (hconf : w'.sv.conf = w.sv.conf)
    (hman : w'.sv.aofManifest = w.sv.aofManifest) (hfd : w'.sv.aofFd = w.sv.aofFd) :
    HoldsWith gaps w' log := by
  obtain ⟨hnamed, hord, hbase, init, ai, hsplit, hinit, hlast, fd, hfd', hd, hto, hend⟩ := h
  have hmem : ∀ ai ∈ w.sv.aofManifest.baseAofInfo.toList ++ w.sv.aofManifest.incrAofList,
      Path.aof ai.fileName ∉ S := fun ai hai => hS _ (List.mem_map_of_mem hai)
  rw [← hconf, ← hman] at hnamed
  rw [← hman] at hord
  refine ⟨hnamed, hord, ?_, init, ai, hman ▸ hsplit, ?_, ?_, fd, hfd ▸ hfd', hd, ?_, hend⟩
  · rw [hman]
    exact Stores.keeps_all hbase hk fun b hb => hmem b (List.mem_append_left _ hb)
  · exact Stores.keeps_all hinit hk fun b hb => hmem b (by simp [hsplit, hb])
  · exact hlast.keeps hk (hmem ai (by simp [hsplit]))
  · exact hk.openTo _ (hmem ai (by simp [hsplit])) fd (hC fd hfd') hd hto

/-- Changes to the rest of `server`. -/
theorem of_sv (h : HoldsWith gaps w log) (hdisk : w'.disk.fs = w.disk.fs)
    (hconf : w'.sv.conf = w.sv.conf) (hman : w'.sv.aofManifest = w.sv.aofManifest)
    (hfd : w'.sv.aofFd = w.sv.aofFd) : HoldsWith gaps w' log := by
  have hk : Keeps ∅ ∅ w.disk.fs w'.disk.fs := hdisk ▸ .refl _
  exact h.keeps hk (fun _ _ => Set.notMem_empty _) (fun _ _ => Set.notMem_empty _) hconf hman hfd

/-- Work on the last file through its descriptor. -/
theorem onLast (h : HoldsWith gaps w log) (hfd : w.sv.aofFd = some fd) {g : Fs Path D → Fs Path D}
    {last : Inode D}
    (hk : ∀ hd p, w.disk.fs.OpenTo fd hd p → Keeps {p} ∅ w.disk.fs (g w.disk.fs))
    (hlast : ∀ p, WritesTo gaps w.disk.fs fd p log.last.data.length →
      SameData (some log.last) (w.disk.fs.file p) →
      SameData (some last) ((g w.disk.fs).file p) ∧
        WritesTo gaps' (g w.disk.fs) fd p last.data.length) :
    HoldsWith gaps' (w.onFs g) { log with last := last } := by
  obtain ⟨hnamed, hord, hbase, init, ai, hsplit, hinit, hst, fd', hfd', hto⟩ := h
  obtain rfl : fd = fd' := Option.some.inj (hfd.symm.trans hfd')
  -- no other entry has the name of the last one
  have hne : ∀ b ∈ w.sv.aofManifest.baseAofInfo.toList ++ init,
      Path.aof b.fileName ∉ ({.aof ai.fileName} : Set Path) := by
    intro b hb heq
    have hname : b.fileName = ai.fileName := Path.aof.inj heq
    have hnodup := hnamed.nodup
    rw [AofManifest.names_eq, hsplit, List.map_append, ← List.append_assoc] at hnodup
    refine (List.disjoint_of_nodup_append hnodup) (a := b.fileName) ?_ ?_
    · rw [List.mem_append] at hb
      obtain hb | hb := hb
      · exact List.mem_append_left _ (List.mem_append_left _ (List.mem_map_of_mem hb))
      · exact List.mem_append_right _ (List.mem_map_of_mem hb)
    · simp [hname]
  obtain ⟨hd, hopen, -⟩ := id hto
  obtain ⟨hst', hto'⟩ := hlast _ hto hst
  refine ⟨hnamed, hord, ?_, init, ai, hsplit, ?_, hst', fd, hfd, hto'⟩
  · exact Stores.keeps_all hbase (hk hd _ hopen) fun b hb => hne b (List.mem_append_left _ hb)
  · exact Stores.keeps_all hinit (hk hd _ hopen) fun b hb => hne b (List.mem_append_right _ hb)

theorem weaken (h : HoldsWith gaps w log) : HoldsWith true w log := by
  obtain ⟨hnamed, hord, hbase, init, ai, hsplit, hinit, hlast, fd, hfd, hd, hto, hend⟩ := h
  refine ⟨hnamed, hord, hbase, init, ai, hsplit, hinit, hlast, fd, hfd, hd, hto, ?_⟩
  rcases hend with happ | hoff | ⟨-, hle⟩
  · exact .inl happ
  · exact .inr (.inr ⟨rfl, hoff.ge⟩)
  · exact .inr (.inr ⟨rfl, hle⟩)

/-- With `O_APPEND` the offset does not matter. -/
theorem of_appending (h : HoldsWith gaps w log) (happ : Appending w) : Holds w log := by
  obtain ⟨hnamed, hord, hbase, init, ai, hsplit, hinit, hlast, fd, hfd, hd, hto, hend⟩ := h
  have happend : hd.append = true := by simpa [Appending, hfd, hto.1] using happ
  exact ⟨hnamed, hord, hbase, init, ai, hsplit, hinit, hlast, fd, hfd, hd, hto, .inl happend⟩

/-- A write goes to the end of the last file, or behind a gap. Then `aof_fd` is at the end. -/
theorem writeGap [Inhabited D] (h : HoldsWith true w log) (hfd : w.sv.aofFd = some fd)
    (xs : List D) :
    ∃ gap, Holds (w.onFs (·.write fd xs)) (log.write (gap ++ xs)) ∧ (Holds w log → gap = []) := by
  obtain ⟨-, -, -, init, ai, -, -, -, fd', hfd', hd, hto, -⟩ := id h
  obtain rfl : fd = fd' := Option.some.inj (hfd.symm.trans hfd')
  refine ⟨if hd.append then [] else List.replicate (hd.off - log.last.data.length) default, ?_, ?_⟩
  · refine h.onLast hfd (fun _ _ hto => .write hto rfl) ?_
    rintro p ⟨hd', hto', hend⟩ hst
    obtain rfl : hd = hd' := Option.some.inj (hto.1.symm.trans hto'.1)
    obtain ⟨f, hf, hdata, hsync⟩ := hst.exists_some
    have hle := le_writeOff (congrArg List.length hdata) hend
    have hgap : List.replicate (hd.writeOff f - f.data.length) (default : D) =
        if hd.append then [] else List.replicate (hd.off - log.last.data.length) default := by
      unfold Handle.writeOff
      rw [hdata]
      split <;> simp
    obtain ⟨hto'', hf'⟩ : (w.disk.fs.write fd xs).OpenTo fd _ p ∧
        (w.disk.fs.write fd xs).file p = _ := hto'.write hf
    obtain ⟨hstored, hkept⟩ := f.storeAt_behind hle xs
    have hwritten : (f.storeAt (hd.writeOff f) xs).data = (log.write _).last.data :=
      hstored.trans (by rw [hgap, hdata, List.append_assoc]; rfl)
    refine ⟨?_, _, hto'', ?_⟩
    · rw [hf']
      exact ⟨hwritten, hkept ▸ hsync⟩
    · by_cases happ : hd.append = true
      · exact .inl happ
      · right
        left
        show hd.writeOff f + xs.length = (log.write _).last.data.length
        rw [← hwritten, hstored]
        simp only [List.length_append, List.length_replicate]
        omega
  · rintro ⟨-, -, -, init', ai', -, -, -, fd', hfd', hd', hto', hend⟩
    obtain rfl : fd = fd' := Option.some.inj (hfd.symm.trans hfd')
    obtain rfl : hd = hd' := Option.some.inj (hto.1.symm.trans hto'.1)
    rcases hend with happ | hoff | ⟨hno, -⟩
    · rw [if_pos happ]
    · simp [hoff]
    · cases hno

theorem write [Inhabited D] (h : Holds w log) (hfd : w.sv.aofFd = some fd) (xs : List D) :
    Holds (w.onFs (·.write fd xs)) (log.write xs) := by
  obtain ⟨gap, hlog, hgap⟩ := h.weaken.writeGap hfd xs
  rwa [hgap h, List.nil_append] at hlog

/-- A write is cut off again, which leaves the offset of the descriptor behind. -/
theorem cutOff [Inhabited D] (h : HoldsWith true w log) (hfd : w.sv.aofFd = some fd) (xs : List D) :
    HoldsWith true ((w.onFs (·.write fd xs)).onFs (·.ftruncate fd log.last.data.length)) log := by
  have hfile : ∀ {hd : Handle} {p : Path}, w.disk.fs.OpenTo fd hd p →
      ∃ f, w.disk.fs.file p = some f := by
    intro hd p hto
    exact ⟨_, by rw [file, hto.2]; rfl⟩
  have hcut : HoldsWith true
      (w.onFs fun fs => (fs.write fd xs).ftruncate fd log.last.data.length) log := by
    refine h.onLast hfd ?_ ?_
    · intro hd p hto
      obtain ⟨f, hf⟩ := hfile hto
      have hmem : p ∈ ({p} : Set Path) := rfl
      exact (Keeps.write hto hmem).trans (.ftruncate (hto.write hf).1 hmem)
    · rintro p ⟨hd, hto, hend⟩ hst
      obtain ⟨f, hf, hdata, hsync⟩ := hst.exists_some
      obtain ⟨hto', hf'⟩ : (w.disk.fs.write fd xs).OpenTo fd _ p ∧
          (w.disk.fs.write fd xs).file p = _ := hto.write hf
      obtain ⟨hto'', hf''⟩ := hto'.ftruncate (n := log.last.data.length) hf'
      have hle := le_writeOff (congrArg List.length hdata) hend
      refine ⟨?_, _, hto'', ?_⟩
      · rw [hf'', ← hdata]
        refine ⟨(f.resize_storeAt_data hle xs).trans hdata, ?_⟩
        show log.last.synced ≤ min (f.storeAt (hd.writeOff f) xs).synced f.data.length
        rw [(f.storeAt_behind hle xs).2]
        exact Nat.le_min.mpr ⟨hsync, Nat.le_trans hsync f.synced_le⟩
      · by_cases happ : hd.append = true
        · exact .inl happ
        · refine .inr (.inr ⟨rfl, ?_⟩)
          rw [← hdata]
          exact Nat.le_add_right_of_le hle
  exact hcut.of_sv rfl rfl rfl rfl

theorem fsync (h : HoldsWith gaps w log) (hfd : w.sv.aofFd = some fd) :
    HoldsWith gaps (w.onFs (·.fsync fd)) log.sync := by
  refine h.onLast hfd (fun _ p _ => .fsync _ fd) ?_
  rintro p ⟨hd, hto, hend⟩ hst
  obtain ⟨f, hf, hdata, -⟩ := hst.exists_some
  refine ⟨?_, hd, hto.fsync fd, hend⟩
  rw [hto.fsync_file hf]
  exact ⟨hdata, by rw [Inode.sync_synced, Inode.sync_synced, hdata]⟩

/-- The manifest file is written. -/
theorem persisted (h : HoldsWith gaps w log) (env : ManifestWrite) (lines : List (AofInfo String)) :
    HoldsWith gaps (writeAofManifestFile env lines w) log := by
  have hwrite := writeAofManifestFile_persisted env lines w
  refine h.keeps hwrite.keeps ?_ (fun _ _ => Set.notMem_empty _) ?_ ?_ ?_
  · intro n hn heq
    exact h.named.own _ w.sv.conf.tempManifest_mem_own
      (loadNames_subset_names _ (Path.aof.inj heq ▸ hn))
  · rw [writeAofManifestFile_sv]
  · rw [writeAofManifestFile_sv]
  · rw [writeAofManifestFile_sv]

/-! ### A new INCR file -/

theorem trySync (h : HoldsWith gaps w log) (hfd : w.sv.aofFd = some fd) (ok : Bool) :
    HoldsWith gaps (bioAofFsync ok fd w) (log.trySync ok) := by
  cases ok with
  | false => exact h.of_sv rfl rfl rfl rfl
  | true => exact (h.fsync hfd).of_sv rfl rfl rfl rfl

/-- The file that `openNewIncrAofForAppend` opens is not in the manifest. -/
theorem newIncr_notMem (h : HoldsWith gaps w log) : newIncrName w.sv ∉ w.sv.aofManifest.names :=
  h.named.incr _ (Int.lt_succ _)

/-- The new INCR file was opened and the manifest file possibly written. -/
theorem openedIncr (h : HoldsWith gaps w log) (env : ManifestWrite) (lines : List (AofInfo String)) :
    HoldsWith gaps (writeAofManifestFile env lines (incrOpened w)) log := by
  have hopen : HoldsWith gaps (incrOpened w) log := by
    refine h.keeps (S := {.aof (newIncrName w.sv)}) (C := ∅) (.openFile _ true false rfl) ?_
      (fun _ _ => Set.notMem_empty _) rfl rfl rfl
    intro n hn heq
    exact h.newIncr_notMem (loadNames_subset_names _ (Path.aof.inj heq ▸ hn))
  exact hopen.persisted env lines

theorem fd_lt_next (h : HoldsWith gaps w log) (hfd : w.sv.aofFd = some fd) :
    fd < w.disk.fs.nextFd := by
  obtain ⟨-, -, -, init, ai, -, -, -, fd', hfd', hd, hto, -⟩ := h
  obtain rfl : fd = fd' := Option.some.inj (hfd.symm.trans hfd')
  exact w.disk.fs.handle_lt fd hd hto.1

/-- The descriptor in use is not the one that is opened next. -/
theorem fd_ne_next (h : HoldsWith gaps w log) (hfd : w.sv.aofFd = some fd) :
    fd ≠ w.disk.fs.nextFd :=
  Nat.ne_of_lt (h.fd_lt_next hfd)

theorem openNewIncr_err (h : HoldsWith gaps w log) (env : OpenIncrEnv) (hon : w.sv.aofState = .on)
    (herr : ¬ (env.openNew = true ∧ env.persist.status = .ok)) :
    ∃ dk tr, openNewIncrAofForAppend env w = (.err, { w with disk := dk, trace := tr }) ∧
      HoldsWith gaps { w with disk := dk, trace := tr } log ∧
      ∀ fd, w.sv.aofFd = some fd → dk.fs.handle fd = w.disk.fs.handle fd := by
  rw [openNewIncrAofForAppend_on env hon]
  dsimp only
  split
  · exact ⟨w.disk, w.trace, rfl, h, fun _ _ => rfl⟩
  · next hopen =>
      have hst : env.persist.status = .err := by
        cases hst : env.persist.status with
        | err => rfl
        | ok => exact absurd ⟨by simpa using hopen, hst⟩ herr
      rw [if_pos hst]
      have hwritten := h.openedIncr env.persist (nextManifest w.sv).lines
      obtain ⟨dk, tr, heq⟩ := writeAofManifestFile_onDisk env.persist
        (nextManifest w.sv).lines (incrOpened w)
      have hclose : HoldsWith gaps (World.onFs (writeAofManifestFile env.persist
          (nextManifest w.sv).lines (incrOpened w)) (·.close w.disk.fs.nextFd)) log := by
        refine hwritten.keeps (S := ∅) (C := {w.disk.fs.nextFd}) (.close _ rfl)
          (fun _ _ => Set.notMem_empty _) ?_ rfl rfl rfl
        intro fd hfd
        rw [heq] at hfd
        exact h.fd_ne_next hfd
      have hhandle : ∀ fd, w.sv.aofFd = some fd →
          (((writeAofManifestFile env.persist (nextManifest w.sv).lines (incrOpened w)).disk.fs).close
            w.disk.fs.nextFd).handle fd = w.disk.fs.handle fd := by
        intro fd hfd
        have hne := h.fd_ne_next hfd
        have hlt := h.fd_lt_next hfd
        have hopened : (incrOpened w).disk.fs.handle fd = w.disk.fs.handle fd :=
          openFile_handle_ne true false hne
        have hnext : w.disk.fs.nextFd ≤ (incrOpened w).disk.fs.nextFd := by
          simp [incrOpened, World.onFs, World.sys]
        rw [← hopened, ← writeAofManifestFile_handle env.persist (nextManifest w.sv).lines
          (Nat.lt_of_lt_of_le hlt hnext)]
        simp [Fs.close, Function.update_of_ne hne]
      rw [heq] at hclose hhandle
      refine ⟨_, _, ?_, hclose, hhandle⟩
      show (Status.err, World.onFs (writeAofManifestFile _ (nextManifest w.sv).lines
        (incrOpened w)) _) = _
      rw [heq]
      rfl

/-- The old file is closed and the new entry becomes the last one. -/
theorem switch (h : HoldsWith gaps w log) (ok : Bool) {newfd : Nat} (hne : w.sv.aofFd ≠ some newfd)
    (hat : w.disk.fs.OpenAt newfd (.aof (newIncrName w.sv)))
    (hnew : SameData (some .new) (w.disk.fs.file (.aof (newIncrName w.sv)))) :
    HoldsWith gaps (switchIncr ok newfd (nextManifest w.sv) w) (log.trySync ok).switch := by
  obtain ⟨fd, hfd⟩ : ∃ fd, w.sv.aofFd = some fd := by
    obtain ⟨-, -, -, init, ai, -, -, -, fd, hfd, -⟩ := h
    exact ⟨fd, hfd⟩
  generalize hw' : switchIncr ok newfd
    (nextManifest w.sv) w = w'
  have hsv : w'.sv.conf = w.sv.conf ∧ w'.sv.aofFd = some newfd ∧ w'.sv.aofManifest =
      (nextManifest w.sv) := by
    have hre := switchIncr_reopened ok newfd
      (nextManifest w.sv) w
    rw [hw'] at hre
    exact ⟨hre.control.conf, hre.aofFd, hre.aofManifest⟩
  have hfs : w'.disk.fs = ((bioAofFsync ok fd w).disk.fs).close fd := by
    rw [← hw', switchIncr, closeOldAof, hfd]
    rfl
  have hsync : Keeps ∅ {fd} w.disk.fs w'.disk.fs := by
    rw [hfs]
    exact (bioAofFsync_touches ok fd w).keeps.trans (.close _ rfl)
  have hclose : Keeps ∅ {fd} (bioAofFsync ok fd w).disk.fs w'.disk.fs := by
    rw [hfs]
    exact .close _ rfl
  have hframe := bioAofFsync_frame ok fd w
  obtain ⟨-, -, hbase, init, ai, hsplit, hinit, hlast, -⟩ := h.trySync hfd ok
  rw [hframe.aofManifest] at hbase hsplit
  refine ⟨?_, ?_, ?_, init ++ [ai], ⟨newIncrName w.sv, w.sv.aofManifest.currIncrFileSeq + 1, .incr⟩,
    ?_, ?_, ?_, newfd, hsv.2.1, ?_⟩
  · have hnamed := h.named.pushIncr
    rw [hsv.1, hsv.2.2]
    exact ⟨hnamed.nodup, hnamed.base, hnamed.incr, hnamed.own, hnamed.seq⟩
  · rw [hsv.2.2]
    exact (h.ordered.pushIncr _).setDirty false
  · rw [hsv.2.2]
    exact Stores.keeps_all hbase hclose fun _ _ => Set.notMem_empty _
  · rw [hsv.2.2]
    show w.sv.aofManifest.incrAofList ++ _ = _
    rw [hsplit]
  · refine List.rel_append ?_ ?_ 
    · exact Stores.keeps_all hinit hclose fun _ _ => Set.notMem_empty _
    · exact .cons (hlast.keeps hclose (Set.notMem_empty _)) .nil
  · exact hnew.trans (hsync.file (.aof (newIncrName w.sv)) (Set.notMem_empty _))
  · have hat' : w'.disk.fs.OpenAt newfd (.aof (newIncrName w.sv)) := by
      refine hsync.openAt _ (Set.notMem_empty _) newfd ?_ hat
      intro heq
      exact hne (hfd.trans (congrArg some (Set.mem_singleton_iff.mp heq).symm))
    have hsame := hnew.trans (hsync.file (.aof (newIncrName w.sv)) (Set.notMem_empty _))
    exact .of_openAt hat' hsame.map_data

/-- A new INCR file is opened, and it is in the manifest on disk. -/
theorem openNewIncr_ok (h : HoldsWith gaps w log) (env : OpenIncrEnv) (hon : w.sv.aofState = .on)
    (hopen : env.openNew = true) (hst : env.persist.status = .ok) :
    ∃ w', openNewIncrAofForAppend env w = (.ok, w') ∧
      Reopened w.disk.fs.nextFd (nextManifest w.sv) w w' ∧
      w'.disk.manifest = some w'.sv.aofManifest.lines ∧
      HoldsWith gaps w' (log.trySync env.closeFsync).switch := by
  have hrep : env.persist.replaced = true := by
    cases hrep : env.persist.replaced with
    | true => rfl
    | false => simp [ManifestWrite.status, hrep] at hst
  have hwrite := writeAofManifestFile_persisted env.persist (nextManifest w.sv).lines (incrOpened w)
  have hholds := h.openedIncr env.persist (nextManifest w.sv).lines
  obtain ⟨dk, tr, hdisk⟩ := writeAofManifestFile_onDisk env.persist (nextManifest w.sv).lines
    (incrOpened w)
  have heq : openNewIncrAofForAppend env w = (.ok, switchIncr env.closeFsync w.disk.fs.nextFd
      (nextManifest w.sv) (writeAofManifestFile env.persist (nextManifest w.sv).lines
        (incrOpened w))) := by
    rw [openNewIncrAofForAppend_on env hon]
    dsimp only
    rw [if_neg (by simp [hopen]), if_neg (by simp [hst])]
    rfl
  generalize hu : writeAofManifestFile env.persist (nextManifest w.sv).lines (incrOpened w) = u
    at heq hwrite hholds hdisk
  have hre := switchIncr_reopened env.closeFsync w.disk.fs.nextFd (nextManifest w.sv) u
  have hsv : u.sv = w.sv := by
    rw [hdisk]
    rfl
  -- the temporary manifest is not the new INCR file
  have hne : Path.aof (newIncrName w.sv) ∉ ({tempManifest (incrOpened w)} : Set Path) := by
    intro heq
    exact w.sv.conf.incrName_ne_own w.sv.conf.tempManifest_mem_own _ (Path.aof.inj heq)
  refine ⟨_, heq, ?_, ?_, ?_⟩
  · rw [hdisk] at hre ⊢
    exact hre.ofDisk.ofDisk
  · rw [hre.aofManifest]
    have hman := hwrite.manifest
    rw [if_pos hrep] at hman
    exact (switchIncr_touches (S := ∅) (C := Set.univ) _ _ _ fun _ _ => trivial).manifest.trans hman
  · have hnew : SameData (some .new) ((incrOpened w).disk.fs.file (.aof (newIncrName w.sv))) := by
      rw [show (incrOpened w).disk.fs.file _ = some .new from openFile_file_self true false]
      exact .refl _
    rw [← hsv]
    apply hholds.switch
    · rw [hsv]
      exact fun hfd => h.fd_ne_next hfd rfl
    · rw [hsv]
      exact hwrite.keeps.openAt _ hne _ (Set.notMem_empty _) (openFile_openAt (.inl rfl))
    · rw [hsv]
      exact hnew.trans (hwrite.keeps.file _ hne)

end HoldsWith

/-! ## Flushing -/

/-- The writes of the flush store the whole buffer or nothing. -/
def FlushEnv.Whole (env : FlushEnv) : Prop := env.written = none ∨ env.written = some 0

instance (env : FlushEnv) : Decidable env.Whole := inferInstanceAs (Decidable (_ ∨ _))

/-- What `try_fsync` does with the file `fd` open. -/
inductive Fsync (env : FlushEnv) (fd : Nat) (w : World D A δ) : World D A δ → Prop where
  /-- It is not due. -/
  | skipped : Fsync env fd w w
  | exit : w.sv.aofFsync = .always → env.fsync = false → Fsync env fd w w.exit
  | always : w.sv.aofFsync = .always → env.fsync = true →
      Fsync env fd w ((w.onFs (·.fsync fd)).set fun sv => { sv with
        aofLastIncrFsyncOffset := sv.aofLastIncrSize
        aofLastFsync := sv.mstime
        fsyncedReploffPending := sv.masterReplOffset })
  | job : w.sv.aofFsync = .everysec →
      Fsync env fd w ((bioAofFsync env.fsync fd w).set fun sv => { sv with
        aofLastIncrFsyncOffset := sv.aofLastIncrSize
        aofLastFsync := sv.mstime })

theorem tryFsync_fsync (env : FlushEnv) (hfd : w.sv.aofFd = some fd) :
    Fsync env fd w (tryFsync env w) := by
  unfold tryFsync
  dsimp only
  rw [hfd]
  split
  · exact .skipped
  · split
    · next halways =>
        dsimp only
        split
        · next hok => exact .always halways hok
        · next hok => exact .exit halways (by simpa using hok)
    · split
      · next hdue => exact .job hdue.1
      · exact .skipped

variable [AofFormat D A δ]

/-- What a flush does with the file `fd` open, if it writes all of the buffer or nothing. -/
inductive Flush (env : FlushEnv) (fd : Nat) (w : World D A δ) : World D A δ → Prop where
  | idle : w.sv.aofBuf = [] → w.sv.aofLastIncrFsyncOffset ≠ w.sv.aofLastIncrSize → Flush env fd w w
  /-- Nothing is left to do: what was fed is taken to be durable. -/
  | durable : w.sv.aofBuf = [] → w.sv.aofLastIncrFsyncOffset = w.sv.aofLastIncrSize →
      Flush env fd w (w.set fun sv => { sv with fsyncedReploffPending := sv.masterReplOffset })
  | fsync {v : World D A δ} : w.sv.aofBuf = [] → Fsync env fd w v → Flush env fd w v
  | written {v : World D A δ} : w.sv.aofBuf ≠ [] → env.written = none →
      Fsync env fd (writeDone fd w) v → Flush env fd w v
  | exit : env.written = some 0 → w.sv.aofFsync = .always → Flush env fd w w.exit
  | failed : w.sv.aofBuf ≠ [] → env.written = some 0 →
      Flush env fd w (w.set fun sv => { sv with
        aofFlushPostponedStart := 0
        aofLastWriteStatus := .err })

theorem flushAppendOnlyFile_flush (force : Bool) (env : FlushEnv) (henv : env.Whole)
    (hfd : w.sv.aofFd = some fd) : Flush env fd w (flushAppendOnlyFile force env w) := by
  have hpost : flushPostponed force w.sv = false := by
    simp [flushPostponed, aofFsyncInProgress]
  unfold flushAppendOnlyFile
  dsimp only
  split
  · next hbuf =>
      split
      · next hoff => exact .durable hbuf hoff
      · next hoff =>
          have hfsync := Flush.fsync hbuf (tryFsync_fsync env hfd)
          split
          · exact hfsync
          · split
            · exact hfsync
            · exact .idle hbuf hoff
  · next hbuf =>
      rw [hpost, if_neg (by simp), hfd]
      dsimp only
      obtain hall | hnone := henv
      · have hlen : aofWrite env w.sv.aofBuf.length = w.sv.aofBuf.length := by
          rw [aofWrite, hall]
        rw [if_pos hlen]
        exact .written hbuf hall (tryFsync_fsync env hfd)
      · have hzero : aofWrite env w.sv.aofBuf.length = 0 := by
          rw [aofWrite, hnone]
          exact Nat.zero_min _
        have hne : ¬ 0 = w.sv.aofBuf.length := fun h => hbuf (List.eq_nil_of_length_eq_zero h.symm)
        rw [hzero, if_neg hne]
        have hshort : writeShort env 0 w = w := by
          simp [writeShort, hfd]
        unfold writeFailed
        simp only [hshort, shortUndone]
        split
        · next halways => exact .exit hnone halways
        · exact .failed hbuf hnone

namespace HoldsWith

omit [AofFormat D A δ] in
theorem tryFsync {env : FlushEnv} (h : HoldsWith gaps w log) (hfd : w.sv.aofFd = some fd)
    (hf : Fsync env fd w w') :
    ∃ ok, HoldsWith gaps w' (log.trySync ok) ∧ w'.sv.aofBuf = w.sv.aofBuf := by
  cases hf with
  | skipped => exact ⟨false, h, rfl⟩
  | exit => exact ⟨false, h.of_sv rfl rfl rfl rfl, rfl⟩
  | always => exact ⟨true, (h.fsync hfd).of_sv rfl rfl rfl rfl, rfl⟩
  | job =>
      refine ⟨env.fsync, (h.trySync hfd env.fsync).of_sv rfl rfl rfl rfl, ?_⟩
      cases env.fsync <;> rfl

theorem writeDone (h : Holds w log) (hfd : w.sv.aofFd = some fd) :
    Holds (writeDone fd w) (log.write w.sv.aofBuf) :=
  (h.write hfd w.sv.aofBuf).of_sv rfl rfl rfl rfl

/-- A flush moves the buffer to the last file, or leaves both as they are. -/
theorem flush {env : FlushEnv} (h : Holds w log) (hfd : w.sv.aofFd = some fd)
    (hf : Flush env fd w w') :
    ∃ log', Holds w' log' ∧ log'.text w'.sv.aofBuf = log.text w.sv.aofBuf ∧
      w'.sv.aofBuf = (if env.written = none then [] else w.sv.aofBuf) := by
  cases hf with
  | idle hbuf => exact ⟨log, h, rfl, by simp [hbuf]⟩
  | durable hbuf => exact ⟨log, h.of_sv rfl rfl rfl rfl, rfl, by simp [World.set, hbuf]⟩
  | fsync hbuf hf =>
      obtain ⟨ok, hok, hbuf'⟩ := h.tryFsync hfd hf
      refine ⟨_, hok, ?_, ?_⟩
      · rw [hbuf', Log.trySync_text]
      · simp [hbuf', hbuf]
  | written hbuf hall hf =>
      obtain ⟨ok, hok, hbuf'⟩ := (h.writeDone hfd).tryFsync hfd hf
      have hnil : w'.sv.aofBuf = [] := hbuf'
      refine ⟨_, hok, ?_, ?_⟩
      · rw [hnil, Log.trySync_text, Log.write_text]
      · rw [hnil, if_pos hall]
  | exit hnone => exact ⟨log, h.of_sv rfl rfl rfl rfl, rfl, by simp [World.exit, hnone]⟩
  | failed hbuf hnone => exact ⟨log, h.of_sv rfl rfl rfl rfl, rfl, by simp [World.set, hnone]⟩

end HoldsWith

end WasiPorts.Redis.Aof
