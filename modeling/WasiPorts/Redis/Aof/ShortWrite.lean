import WasiPorts.Redis.Aof.Reachable

/-!
# Short writes to the AOF

`flushAppendOnlyFile` undoes a short write with `ftruncate`, which does not move the offset of the
descriptor. A descriptor opened with `O_APPEND` does not care; the one that
`openNewIncrAofForAppend` opens has no `O_APPEND`, so the next write leaves a gap.

* `appended_exactly_iff` — the AOF is its contents at opening followed by what was removed from
  `aof_buf`, throughout a run, exactly if every flush that leaves something in the file finds the
  descriptor at the end of it.
-/

namespace WasiPorts.Redis.Aof

open WasiPorts.Posix WasiPorts.Posix.Fs WasiPorts.Run

variable {D A δ : Type}

/-! ## The machine -/

inductive AppendEvent (A δ : Type) where
  | feed (dictid : Option Nat) (cmd : Rec A δ)
  | flush (force : Bool) (env : FlushEnv)
  | clock (ms : Int)
  deriving DecidableEq, Repr

/-- The contents of the file that `aof_fd` is open on. -/
def aofData (w : World D A δ) : Option (List D) :=
  w.sv.aofFd.bind fun fd => (w.disk.fs.handle fd).map fun hd => (w.disk.fs.inode hd.ino).data

/-- `aof_fd` is at the end of its file, or always writes there. -/
def AtEnd (w : World D A δ) : Prop :=
  ∃ fd hd, w.sv.aofFd = some fd ∧ w.disk.fs.handle fd = some hd ∧
    hd.writeOff (w.disk.fs.inode hd.ino) = (w.disk.fs.inode hd.ino).data.length

/-- How much a flush of `sv` leaves in the file: all of the buffer, or the part before an error
that could not be cut off again. -/
def flushKeeps (env : FlushEnv) (sv : Server D A δ) : Nat :=
  let n := aofWrite env sv.aofBuf.length
  if n = sv.aofBuf.length then n else if shortUndone env n then 0 else n

variable [AofFormat D A δ]

/-- One step, with the bytes removed from `aof_buf` so far. -/
def appendStep (s : World D A δ × List D) : AppendEvent A δ → World D A δ × List D
  | .feed dictid cmd => (feedAppendOnlyFile dictid cmd s.1, s.2)
  | .flush force env =>
    let w := flushAppendOnlyFile force env s.1
    (w, s.2 ++ s.1.sv.aofBuf.take (s.1.sv.aofBuf.length - w.sv.aofBuf.length))
  | .clock ms => (s.1.set fun sv => { sv with mstime := ms, unixtime := ms / 1000 }, s.2)

/-- The AOF consists of `start` and what was removed from `aof_buf`, and its length is what the
server takes it to be. -/
def AppendedExactly (start : List D) (s : World D A δ × List D) : Prop :=
  aofData s.1 = some (start ++ s.2) ∧ (start ++ s.2).length = s.1.sv.aofLastIncrSize

/-- If the flush leaves something in the file, the descriptor is at the end before it. -/
def FlushAtEnd (s : World D A δ × List D) : AppendEvent A δ → Prop
  | .flush _ env => 0 < flushKeeps env s.1.sv → AtEnd s.1
  | _ => True

/-! ## One flush -/

/-- The descriptor `fd` of the AOF, its handle and its inode. -/
structure Writing (w : World D A δ) (fd : Nat) (hd : Handle) (f : Inode D) : Prop where
  aofFd : w.sv.aofFd = some fd
  openOn : w.disk.fs.OpenOn fd hd f
  policy : w.sv.aofFsync ≠ .always

variable {w w' : World D A δ} {fd : Nat} {hd : Handle} {f : Inode D}

omit [AofFormat D A δ] in
theorem Writing.aofData_eq (h : Writing w fd hd f) : aofData w = some f.data := by
  simp [aofData, h.aofFd, h.openOn.1, h.openOn.2]

omit [AofFormat D A δ] in
theorem Writing.atEnd_iff (h : Writing w fd hd f) : AtEnd w ↔ hd.writeOff f = f.data.length := by
  obtain ⟨hfd, hino⟩ := h.openOn
  constructor
  · rintro ⟨fd', hd', hfd', hhd', hend⟩
    obtain rfl : fd = fd' := Option.some.inj (h.aofFd.symm.trans hfd')
    obtain rfl : hd = hd' := Option.some.inj (hfd.symm.trans hhd')
    rw [hino] at hend
    exact hend
  · intro hend
    refine ⟨fd, hd, h.aofFd, hfd, ?_⟩
    rw [hino]
    exact hend

omit [AofFormat D A δ] in
/-- `try_fsync` changes no contents and no field that matters here. -/
theorem tryFsync_writing (env : FlushEnv) (h : Writing w fd hd f) :
    ∃ f', Writing (tryFsync env w) fd hd f' ∧ f'.data = f.data ∧
      (tryFsync env w).sv.aofBuf = w.sv.aofBuf ∧
      (tryFsync env w).sv.aofLastIncrSize = w.sv.aofLastIncrSize := by
  obtain ⟨f', hopen, hdata⟩ := h.openOn.fsync fd
  unfold tryFsync
  dsimp only
  split
  · exact ⟨f, h, rfl, rfl, rfl⟩
  · rw [if_neg h.policy]
    split
    · rw [h.aofFd]
      dsimp only [aofFsyncInProgress]
      cases hok : env.fsync with
      | false => exact ⟨f, ⟨h.aofFd, h.openOn, h.policy⟩, rfl, rfl, rfl⟩
      | true => exact ⟨f', ⟨h.aofFd, hopen, h.policy⟩, hdata, rfl, rfl⟩
    · exact ⟨f, h, rfl, rfl, rfl⟩

/-- The state after a flush that left `n` units in the file. -/
structure Flushed (w : World D A δ) (fd : Nat) (hd : Handle) (f : Inode D) (n : Nat)
    (w' : World D A δ) (hd' : Handle) (f' : Inode D) : Prop where
  writing : Writing w' fd hd' f'
  aofBuf : w'.sv.aofBuf = w.sv.aofBuf.drop n
  size : w'.sv.aofLastIncrSize = w.sv.aofLastIncrSize + n
  data : f'.data = if n = 0 then f.data else (f.storeAt (hd.writeOff f) (w.sv.aofBuf.take n)).data
  end_le : f'.data.length ≤ hd'.writeOff f'

omit [AofFormat D A δ] in
theorem writeOff_congr {f' : Inode D} (hd : Handle) (h : f'.data = f.data) :
    hd.writeOff f' = hd.writeOff f := by
  unfold Handle.writeOff
  rw [h]

/-- Nothing was stored, or it was cut off again. -/
theorem writeShort_undone (env : FlushEnv) (h : Writing w fd hd f) (n : Nat)
    (hsize : f.data.length = w.sv.aofLastIncrSize) (hend : f.data.length ≤ hd.writeOff f)
    (hundone : n = 0 ∨ shortUndone env n = true) :
    ∃ hd' f', (writeShort env n w).disk.fs.OpenOn fd hd' f' ∧ f'.data = f.data ∧
      f'.data.length ≤ hd'.writeOff f' := by
  unfold writeShort
  rw [h.aofFd]
  dsimp only
  split
  · exact ⟨hd, f, h.openOn, rfl, hend⟩
  · next hn =>
      rw [if_pos (hundone.resolve_left hn)]
      have hopen := (h.openOn.write (w.sv.aofBuf.take n)).ftruncate w.sv.aofLastIncrSize
      have hdata : ((f.storeAt (hd.writeOff f) (w.sv.aofBuf.take n)).resize
          w.sv.aofLastIncrSize).data = f.data := by
        rw [← hsize]
        exact f.resize_storeAt_data hend _
      refine ⟨_, _, hopen, hdata, ?_⟩
      rw [writeOff_congr _ hdata, hdata]
      -- the offset is now behind the end, unless the descriptor ignores it
      unfold Handle.writeOff at hend ⊢
      split
      · exact le_rfl
      · next hna =>
          rw [if_neg hna] at hend
          dsimp only
          omega

omit [AofFormat D A δ] in
/-- What was stored stays. -/
theorem stored_end (hd : Handle) (f : Inode D) [Inhabited D] (xs : List D)
    (hend : f.data.length ≤ hd.writeOff f) :
    (f.storeAt (hd.writeOff f) xs).data.length ≤
      Handle.writeOff { hd with off := hd.writeOff f + xs.length }
        (f.storeAt (hd.writeOff f) xs) := by
  have hlen := f.storeAt_data_length (hd.writeOff f) xs
  unfold Handle.writeOff at hlen hend ⊢
  dsimp only
  split
  · exact le_rfl
  · next hna =>
      rw [if_neg hna] at hlen hend
      rw [hlen]
      omega

theorem writeFailed_flushed (env : FlushEnv) (h : Writing w fd hd f) (n : Nat)
    (hsize : f.data.length = w.sv.aofLastIncrSize) (hend : f.data.length ≤ hd.writeOff f) :
    ∃ hd' f', Flushed w fd hd f (if shortUndone env n then 0 else n) (writeFailed env n w) hd' f' := by
  have hsv := writeShort_sv env n w
  unfold writeFailed
  rw [if_neg h.policy]
  generalize hkept : (if shortUndone env n then 0 else n) = kept
  -- the fields of `server` do not depend on what happened to the file
  have hfields : ∀ {hd' f'}, (writeShort env n w).disk.fs.OpenOn fd hd' f' →
      f'.data = (if kept = 0 then f.data
        else (f.storeAt (hd.writeOff f) (w.sv.aofBuf.take kept)).data) →
      f'.data.length ≤ hd'.writeOff f' →
      Flushed w fd hd f kept ((writeShort env n w).set fun sv => { sv with
        aofFlushPostponedStart := 0
        aofLastWriteStatus := .err
        aofCurrentSize := sv.aofCurrentSize + kept
        aofLastIncrSize := sv.aofLastIncrSize + kept
        aofBuf := sv.aofBuf.drop kept }) hd' f' := by
    intro hd' f' hopen hdata hend'
    refine ⟨⟨?_, hopen, ?_⟩, ?_, ?_, hdata, hend'⟩
    · show (writeShort env n w).sv.aofFd = _
      rw [hsv]
      exact h.aofFd
    · show (writeShort env n w).sv.aofFsync ≠ _
      rw [hsv]
      exact h.policy
    · show List.drop kept (writeShort env n w).sv.aofBuf = _
      rw [hsv]
    · show (writeShort env n w).sv.aofLastIncrSize + kept = _
      rw [hsv]
  by_cases hundone : n = 0 ∨ shortUndone env n = true
  · obtain ⟨hd', f', hopen, hdata, hend'⟩ := writeShort_undone env h n hsize hend hundone
    have hzero : kept = 0 := by
      rw [← hkept]
      obtain rfl | hu := hundone
      · split <;> rfl
      · rw [if_pos hu]
    exact ⟨hd', f', hfields hopen (by rw [hdata, if_pos hzero]) hend'⟩
  · obtain ⟨hn, hu⟩ := not_or.mp hundone
    have hk : kept = n := by rw [← hkept, if_neg hu]
    have hwrite : (writeShort env n w).disk.fs = w.disk.fs.write fd (w.sv.aofBuf.take n) := by
      unfold writeShort
      rw [h.aofFd]
      dsimp only
      rw [if_neg hn, if_neg hu]
      rfl
    have hopen := h.openOn.write (w.sv.aofBuf.take n)
    rw [← hwrite] at hopen
    exact ⟨_, _, hfields hopen (by rw [hk, if_neg hn]) (stored_end hd f _ hend)⟩

/-- A flush leaves the first `flushKeeps` units of the buffer in the file, where the descriptor
stores them. -/
theorem flushAppendOnlyFile_flushed (force : Bool) (env : FlushEnv) (h : Writing w fd hd f)
    (hsize : f.data.length = w.sv.aofLastIncrSize) (hend : f.data.length ≤ hd.writeOff f) :
    ∃ hd' f', Flushed w fd hd f (flushKeeps env w.sv) (flushAppendOnlyFile force env w) hd' f' := by
  have hpost : flushPostponed force w.sv = false := by
    simp [flushPostponed, aofFsyncInProgress]
  unfold flushAppendOnlyFile
  dsimp only
  split
  · next hbuf =>
      have hzero : flushKeeps env w.sv = 0 := by
        unfold flushKeeps aofWrite
        rw [hbuf]
        cases env.written <;> simp
      rw [hzero]
      -- nothing to write: at most an fsync
      have hsame : ∀ {v : World D A δ} {f' : Inode D}, Writing v fd hd f' → f'.data = f.data →
          v.sv.aofBuf = w.sv.aofBuf → v.sv.aofLastIncrSize = w.sv.aofLastIncrSize →
          ∃ hd' f', Flushed w fd hd f 0 v hd' f' := by
        intro v f' hv hdata hbuf hlen
        refine ⟨hd, f', hv, hbuf, hlen, hdata, ?_⟩
        rw [writeOff_congr hd hdata, hdata]
        exact hend
      obtain ⟨f', hv, hdata, hbuf', hlen⟩ := tryFsync_writing env h
      have hfsync := hsame hv hdata hbuf' hlen
      split
      · exact hsame ⟨h.aofFd, h.openOn, h.policy⟩ rfl rfl rfl
      · split
        · exact hfsync
        · split
          · exact hfsync
          · exact hsame h rfl rfl rfl
  · next hbuf =>
      rw [hpost, if_neg (by simp), h.aofFd]
      dsimp only
      split
      · next hall =>
          have hkeeps : flushKeeps env w.sv = w.sv.aofBuf.length := by
            unfold flushKeeps
            dsimp only
            rw [if_pos hall, hall]
          have hdone : Writing (writeDone fd w) fd
              { hd with off := hd.writeOff f + w.sv.aofBuf.length }
              (f.storeAt (hd.writeOff f) w.sv.aofBuf) :=
            ⟨h.aofFd, h.openOn.write w.sv.aofBuf, h.policy⟩
          obtain ⟨f', hv, hdata, hbuf', hlen⟩ := tryFsync_writing env hdone
          have hne : w.sv.aofBuf.length ≠ 0 := fun h0 => hbuf (List.eq_nil_of_length_eq_zero h0)
          refine ⟨_, f', hv, ?_, ?_, ?_, ?_⟩
          · rw [hbuf', hkeeps, List.drop_length]
            rfl
          · rw [hlen, hkeeps]
            rfl
          · rw [hdata, hkeeps, if_neg hne, List.take_length]
          · rw [writeOff_congr _ hdata, hdata]
            exact stored_end hd f _ hend
      · next hshort =>
          have hkeeps : flushKeeps env w.sv = if shortUndone env (aofWrite env w.sv.aofBuf.length)
              then 0 else aofWrite env w.sv.aofBuf.length := by
            unfold flushKeeps
            dsimp only
            rw [if_neg hshort]
          rw [hkeeps]
          exact writeFailed_flushed env h _ hsize hend

theorem aofWrite_le (env : FlushEnv) (len : Nat) : aofWrite env len ≤ len := by
  unfold aofWrite
  split
  · exact le_rfl
  · exact Nat.min_le_right _ _

omit [AofFormat D A δ] in
theorem flushKeeps_le (env : FlushEnv) (sv : Server D A δ) :
    flushKeeps env sv ≤ sv.aofBuf.length := by
  have hle := aofWrite_le env sv.aofBuf.length
  unfold flushKeeps
  dsimp only
  split
  · exact hle
  · split
    · exact Nat.zero_le _
    · exact hle

/-! ## Runs -/

/-- The file is what it should be, and the descriptor is not before its end. -/
def AppendInv (start : List D) (s : World D A δ × List D) : Prop :=
  ∃ fd hd f, Writing s.1 fd hd f ∧ f.data = start ++ s.2 ∧
    f.data.length = s.1.sv.aofLastIncrSize ∧ f.data.length ≤ hd.writeOff f

variable {start : List D}

omit [AofFormat D A δ] in
theorem AppendInv.exactly {s : World D A δ × List D} (h : AppendInv start s) :
    AppendedExactly start s := by
  obtain ⟨fd, hd, f, hw, hdata, hsize, -⟩ := h
  exact ⟨by rw [hw.aofData_eq, hdata], by rw [← hdata, hsize]⟩

/-- What a flush removes from the buffer. -/
theorem Flushed.removed {n : Nat} {hd' : Handle} {f' : Inode D}
    (h : Flushed w fd hd f n w' hd' f') (hn : n ≤ w.sv.aofBuf.length) :
    w.sv.aofBuf.take (w.sv.aofBuf.length - w'.sv.aofBuf.length) = w.sv.aofBuf.take n := by
  rw [h.aofBuf, List.length_drop]
  congr 1
  omega

theorem appendStep_inv (s : World D A δ × List D) (ev : AppendEvent A δ) (h : AppendInv start s)
    (hok : FlushAtEnd s ev) : AppendInv start (appendStep s ev) := by
  obtain ⟨fd, hd, f, hw, hdata, hsize, hend⟩ := h
  cases ev with
  | feed dictid cmd => exact ⟨fd, hd, f, ⟨hw.aofFd, hw.openOn, hw.policy⟩, hdata, hsize, hend⟩
  | clock ms => exact ⟨fd, hd, f, ⟨hw.aofFd, hw.openOn, hw.policy⟩, hdata, hsize, hend⟩
  | flush force env =>
      obtain ⟨hd', f', hf⟩ := flushAppendOnlyFile_flushed force env hw hsize hend
      have hremoved := hf.removed (flushKeeps_le env s.1.sv)
      have hok' : 0 < flushKeeps env s.1.sv → AtEnd s.1 := hok
      have hdata' : f'.data = f.data ++ s.1.sv.aofBuf.take (flushKeeps env s.1.sv) := by
        rw [hf.data]
        split
        · next hzero => simp [hzero]
        · next hpos =>
            have hat := hw.atEnd_iff.mp (hok' (Nat.pos_of_ne_zero hpos))
            rw [hat, Inode.storeAt_length, Inode.append_data]
      refine ⟨fd, hd', f', hf.writing, ?_, ?_, hf.end_le⟩
      · show f'.data = start ++ (s.2 ++ _)
        rw [hremoved, hdata', hdata, List.append_assoc]
      · show f'.data.length = (flushAppendOnlyFile force env s.1).sv.aofLastIncrSize
        rw [hf.size, ← hsize, hdata', List.length_append, List.length_take,
          Nat.min_eq_left (flushKeeps_le env s.1.sv)]

/-- Bytes stored behind the end leave a gap, and the file is longer than the server thinks. -/
theorem appendStep_break (s : World D A δ × List D) (ev : AppendEvent A δ) (h : AppendInv start s)
    (hbad : ¬ FlushAtEnd s ev) : ¬ AppendedExactly start (appendStep s ev) := by
  obtain ⟨fd, hd, f, hw, hdata, hsize, hend⟩ := h
  cases ev with
  | feed dictid cmd => exact absurd trivial hbad
  | clock ms => exact absurd trivial hbad
  | flush force env =>
      obtain ⟨hpos, hnot⟩ : 0 < flushKeeps env s.1.sv ∧ ¬ AtEnd s.1 := by
        simpa [FlushAtEnd] using hbad
      rw [hw.atEnd_iff] at hnot
      obtain ⟨hd', f', hf⟩ := flushAppendOnlyFile_flushed force env hw hsize hend
      rintro ⟨hfile, hlen⟩
      have hfile' : f'.data = start ++ (appendStep s (.flush force env)).2 := by
        have := hf.writing.aofData_eq.symm.trans hfile
        exact Option.some.inj this
      have hstored := f.storeAt_data_length (hd.writeOff f)
        (s.1.sv.aofBuf.take (flushKeeps env s.1.sv))
      rw [List.length_take, Nat.min_eq_left (flushKeeps_le env s.1.sv)] at hstored
      have hlong : f'.data.length = s.1.sv.aofLastIncrSize + flushKeeps env s.1.sv := by
        rw [hfile', hlen]
        exact hf.size
      rw [hf.data, if_neg (by omega), hstored] at hlong
      omega

/-! ## Opening the AOF -/

section Opening

omit [AofFormat D A δ]

/-- `aof_fd` is open, at the end of a file of the length the server takes it to have. -/
def Positioned (w : World D A δ) : Prop :=
  ∃ fd hd f, w.sv.aofFd = some fd ∧ w.disk.fs.OpenOn fd hd f ∧ hd.writeOff f = f.data.length ∧
    f.data.length = w.sv.aofLastIncrSize

/-- Descriptors and inodes outlive the names. -/
theorem unlinkAll_openOn (ais : List (AofInfo String)) (h : w.disk.fs.OpenOn fd hd f) :
    (w.unlinkAll ais).disk.fs.OpenOn fd hd f := by
  induction ais generalizing w with
  | nil => exact h
  | cons ai ais ih => exact ih (w := w.bgUnlink (.aof ai.fileName)) h

/-- A write of the manifest file spares every other file. -/
theorem writeAofManifestFile_openOn (env : ManifestWrite) (lines : List (AofInfo String))
    (h : w.disk.fs.OpenOn fd hd f)
    (htemp : w.disk.fs.dir (.aof w.sv.conf.tempManifestName) ≠ some hd.ino) :
    (writeAofManifestFile env lines w).disk.fs.OpenOn fd hd f := by
  have hne : fd ≠ w.disk.fs.nextFd := Nat.ne_of_lt (w.disk.fs.handle_lt fd hd h.1)
  have hopen := h.openFile_ne true false htemp
  unfold writeAofManifestFile
  dsimp only
  split
  · exact h
  · split <;> exact OpenOn.close_ne hopen hne

/-- The file of `aof_fd` is not the one of the temporary manifest. -/
def Apart (w : World D A δ) : Prop :=
  ∀ fd hd, w.sv.aofFd = some fd → w.disk.fs.handle fd = some hd →
    w.disk.fs.dir (.aof w.sv.conf.tempManifestName) ≠ some hd.ino

theorem Apart.of_openAt {name : String} (hfd : w.sv.aofFd = some fd)
    (hat : w.disk.fs.OpenAt fd (.aof name)) (hne : name ≠ w.sv.conf.tempManifestName) :
    Apart w := by
  intro fd' hd hfd' hhd
  obtain rfl : fd = fd' := Option.some.inj (hfd.symm.trans hfd')
  obtain ⟨hd', hto⟩ := hat.openTo
  obtain rfl : hd = hd' := Option.some.inj (hhd.symm.trans hto.1)
  apply hto.dir_ne
  simpa using hne.symm

theorem unlinkAll_dir (ais : List (AofInfo String)) {p : Path} {i : Nat}
    (h : w.disk.fs.dir p ≠ some i) : (w.unlinkAll ais).disk.fs.dir p ≠ some i := by
  induction ais generalizing w with
  | nil => exact h
  | cons ai ais ih =>
      refine ih (w := w.bgUnlink (.aof ai.fileName)) ?_
      show Function.update w.disk.fs.dir _ none p ≠ some i
      by_cases hp : p = .aof ai.fileName
      · simp [hp]
      · rwa [Function.update_of_ne hp]

theorem Positioned.delHistory (h : Positioned w) (hapart : Apart w) (env : ManifestWrite) :
    Positioned (aofDelHistoryFiles env w) := by
  obtain ⟨fd, hd, f, hfd, hopen, hend, hsize⟩ := h
  obtain ⟨am, hsv⟩ := aofDelHistoryFiles_sv env w
  refine ⟨fd, hd, f, ?_, ?_, hend, ?_⟩
  · rw [hsv]
    exact hfd
  · obtain ⟨-, heq⟩ | ⟨-, heq⟩ := aofDelHistoryFiles_cases env w
    · rw [heq]
      exact hopen
    · rw [heq]
      refine writeAofManifestFile_openOn _ _ (unlinkAll_openOn _ hopen) ?_
      rw [unlinkAll_sv]
      exact unlinkAll_dir _ (hapart fd hd hfd hopen.1)
  · rw [hsv]
    exact hsize

/-- A successful `persistAofManifest` leaves the file called `name`, opened with `O_APPEND`, as long
as its name says: if it is the file of the temporary manifest, it is now empty and has lost its
name. -/
theorem persistAofManifest_openOn (env : ManifestWrite) (am : AofManifest String) {name : String}
    (hok : (persistAofManifest env am w).1 = .ok) (hto : w.disk.fs.OpenTo fd hd (.aof name))
    (happend : hd.append = true) :
    ∃ f, (persistAofManifest env am w).2.2.disk.fs.OpenOn fd hd f ∧
      hd.writeOff f = f.data.length ∧
      f.data.length = (persistAofManifest env am w).2.2.fileSize name := by
  have hend : ∀ f : Inode D, hd.writeOff f = f.data.length := by
    intro f
    simp [Handle.writeOff, happend]
  have hopen : w.disk.fs.OpenOn fd hd (w.disk.fs.inode hd.ino) := ⟨hto.1, rfl⟩
  have hsize : ∀ v : World D A δ, v.disk.fs.data (.aof name) = w.disk.fs.data (.aof name) →
      (w.disk.fs.inode hd.ino).data.length = v.fileSize name := by
    intro v hdata
    rw [World.fileSize, hdata, data, file, hto.2]
    rfl
  unfold persistAofManifest at hok ⊢
  split at hok
  · next hdirty =>
      rw [if_pos hdirty]
      have hrep : env.replaced = true := by
        simp only [ManifestWrite.status, ite_eq_left_iff, reduceCtorEq, imp_false, not_not,
          Bool.and_eq_true] at hok
        exact hok.1
      by_cases hname : name = w.sv.conf.tempManifestName
      · have hne : fd ≠ w.disk.fs.nextFd := Nat.ne_of_lt (w.disk.fs.handle_lt fd hd hto.1)
        have hopenTemp : env.openTemp = true := by
          simp only [ManifestWrite.replaced, Bool.and_eq_true] at hrep
          exact hrep.1.1.1
        refine ⟨.new, ?_, hend _, ?_⟩
        · dsimp only [writeAofManifestFile]
          rw [if_neg (by simp [hopenTemp]), if_pos hrep]
          exact OpenOn.close_ne (hopen.openFile_trunc false (hname ▸ hto.2)) hne
        · dsimp only [writeAofManifestFile]
          rw [if_neg (by simp [hopenTemp]), if_pos hrep, hname]
          simp [World.fileSize, World.renameManifest, World.onFs, World.sys, data]
      · have hkeeps := (writeAofManifestFile_persisted env am.lines w).keeps
        have hdir : w.disk.fs.dir (.aof w.sv.conf.tempManifestName) ≠ some hd.ino := by
          apply hto.dir_ne
          simpa using Ne.symm hname
        refine ⟨_, writeAofManifestFile_openOn env am.lines hopen hdir, hend _, hsize _ ?_⟩
        exact hkeeps.data (by simpa [tempManifest] using hname)
  · next hclean =>
      rw [if_neg hclean]
      exact ⟨_, hopen, hend _, hsize w rfl⟩

theorem openLastIncr_positioned (env : BootEnv) (w : World D A δ)
    (h : (openLastIncr env w).exited = false) : Positioned (openLastIncr env w) := by
  unfold openLastIncr at h ⊢
  dsimp only at h ⊢
  split at h
  · cases h
  · rw [if_neg (by assumption)]
    generalize (getLastIncrAofName w.sv.conf w.sv.aofManifest).2 = am at *
    generalize (getLastIncrAofName w.sv.conf w.sv.aofManifest).1 = name at *
    generalize hv : (w.onFs fun fs => (fs.openFile (.aof name) false true).2) = v at *
    obtain ⟨hd, hto, happend⟩ : ∃ hd, v.disk.fs.OpenTo w.disk.fs.nextFd hd (.aof name) ∧
        hd.append = true := by
      subst hv
      exact openFile_openTo false true
    have hpersist := fun hok => persistAofManifest_openOn env.persist am (w := v) hok hto happend
    split at h
    · cases h
    · next am' u heq =>
        rw [heq] at hpersist
        obtain ⟨f, hopen, hend, hsize⟩ := hpersist rfl
        exact ⟨w.disk.fs.nextFd, hd, f, rfl, hopen, hend, hsize⟩

theorem getLastIncrAofName_getLast? (cf : Conf) (am : AofManifest String) :
    ∃ ai ∈ (getLastIncrAofName cf am).2.incrAofList.getLast?,
      ai.fileName = (getLastIncrAofName cf am).1 := by
  unfold getLastIncrAofName
  cases hlast : am.incrAofList.getLast? with
  | none => simp [getNewIncrAofName, AofManifest.pushIncr]
  | some ai => exact ⟨ai, hlast, rfl⟩

theorem openLastIncr_apart (env : BootEnv) (w : World D A δ)
    (h : (openLastIncr env w).exited = false)
    (hname : ∀ ai ∈ (openLastIncr env w).sv.aofManifest.incrAofList.getLast?,
      ai.fileName ≠ w.sv.conf.tempManifestName) : Apart (openLastIncr env w) := by
  obtain ⟨ai, hlast, hai⟩ := getLastIncrAofName_getLast? w.sv.conf w.sv.aofManifest
  unfold openLastIncr at h hname ⊢
  dsimp only at h hname ⊢
  split at h
  · cases h
  · rw [if_neg (by assumption)] at hname ⊢
    generalize (getLastIncrAofName w.sv.conf w.sv.aofManifest).2 = am at *
    generalize (getLastIncrAofName w.sv.conf w.sv.aofManifest).1 = name at *
    generalize hv : (w.onFs fun fs => (fs.openFile (.aof name) false true).2) = v at *
    have hat : v.disk.fs.OpenAt w.disk.fs.nextFd (.aof name) := by
      subst hv
      exact openFile_openAt (.inr rfl)
    have hconf : v.sv.conf = w.sv.conf := by
      subst hv
      rfl
    split at h
    · cases h
    · next am' u heq =>
        rw [heq] at hname
        obtain ⟨hincr, hsv, hkeeps⟩ : am'.incrAofList = am.incrAofList ∧ u.sv = v.sv ∧
            Keeps {tempManifest v} ∅ v.disk.fs u.disk.fs := by
          unfold persistAofManifest at heq
          split at heq
          · obtain ⟨-, rfl, rfl⟩ := Prod.mk.inj heq |>.imp_right Prod.mk.inj
            exact ⟨rfl, writeAofManifestFile_sv _ _ _, (writeAofManifestFile_persisted _ _ v).keeps⟩
          · obtain ⟨-, rfl, rfl⟩ := Prod.mk.inj heq |>.imp_right Prod.mk.inj
            exact ⟨rfl, rfl, .refl _⟩
        have hne : name ≠ w.sv.conf.tempManifestName := by
          have hlast' : ai ∈ am'.incrAofList.getLast? := by rwa [hincr]
          rw [← hai]
          exact hname ai hlast'
        have hkept : u.disk.fs.OpenAt w.disk.fs.nextFd (.aof name) := by
          refine hkeeps.openAt _ ?_ _ (Set.notMem_empty _) hat
          rw [Set.mem_singleton_iff, tempManifest, hconf]
          simpa using hne
        refine Apart.of_openAt rfl hkept ?_
        show name ≠ u.sv.conf.tempManifestName
        rwa [hsv, hconf]

theorem aofDelHistoryFiles_incr (env : ManifestWrite) (w : World D A δ) :
    (aofDelHistoryFiles env w).sv.aofManifest.incrAofList = w.sv.aofManifest.incrAofList := by
  obtain ⟨-, heq⟩ | ⟨-, heq⟩ := aofDelHistoryFiles_cases env w
  · rw [heq]
  · rw [heq]
    rfl

/-- The new file stays open at its end when the old one is closed. -/
theorem switchIncr_positioned (ok : Bool) {newfd : Nat} (am : AofManifest String) {p : Path}
    (hat : w.disk.fs.OpenAt newfd p) (hfile : w.disk.fs.file p = some f) (hempty : f.data = [])
    (hne : w.sv.aofFd ≠ some newfd) : Positioned (switchIncr ok newfd am w) := by
  obtain ⟨hd, hopen, hend⟩ := hat.openOn hfile
  have hre := switchIncr_reopened ok newfd am w
  obtain ⟨f', hopen', hdata⟩ : ∃ f', (switchIncr ok newfd am w).disk.fs.OpenOn newfd hd f' ∧
      f'.data = [] := by
    unfold switchIncr closeOldAof
    cases hfd : w.sv.aofFd with
    | none => exact ⟨_, hopen, hempty⟩
    | some fd =>
        have hne' : newfd ≠ fd := fun heq => hne (hfd.trans (congrArg some heq.symm))
        cases ok with
        | false => exact ⟨_, hopen.close_ne hne', hempty⟩
        | true =>
            obtain ⟨f', hsync, hdata⟩ := hopen.fsync fd
            exact ⟨f', hsync.close_ne hne', hdata.trans hempty⟩
  refine ⟨newfd, hd, f', hre.aofFd, hopen', ?_, ?_⟩
  · rw [writeOff_congr hd (hdata.trans hempty.symm), hend, hdata, hempty]
  · rw [hre.aofLastIncrSize, hdata]
    rfl

theorem openNewIncrAofForAppend_positioned (env : OpenIncrEnv) (hfd : FdValid w)
    (hstate : w.sv.aofState ≠ .off) (hok : openNewIncrAofForAppend env w = (.ok, w')) :
    Positioned w' := by
  have hne : w.sv.aofFd ≠ some w.disk.fs.nextFd := by
    intro heq
    exact Nat.lt_irrefl _ (hfd _ heq)
  cases hst : w.sv.aofState with
  | off => exact absurd hst hstate
  | waitRewrite =>
      rw [openNewIncrAofForAppend_wait env hst] at hok
      dsimp only at hok
      split at hok
      · cases hok
      · obtain rfl := (Prod.mk.inj hok).2
        exact switchIncr_positioned _ _ (openFile_openAt (.inl rfl)) (openFile_file_self true false)
          rfl hne
  | on =>
      rw [openNewIncrAofForAppend_on env hst] at hok
      dsimp only at hok
      split at hok
      · cases hok
      · split at hok
        · cases hok
        · obtain rfl := (Prod.mk.inj hok).2
          generalize hname : Path.aof (w.sv.conf.incrName (w.sv.aofManifest.currIncrFileSeq + 1)) =
            p at *
          generalize hv : (w.onFs fun fs => (fs.openFile p true false).2) = v at *
          -- the name of an INCR file is not the one of the temporary manifest
          have hp : p ∉ ({tempManifest v} : Set Path) := by
            subst hv hname
            intro heq
            exact w.sv.conf.incrName_ne_own w.sv.conf.tempManifest_mem_own _ (Path.aof.inj heq)
          have hkeeps := (writeAofManifestFile_persisted env.persist
            (w.sv.aofManifest.pushIncr
              (w.sv.conf.incrName (w.sv.aofManifest.currIncrFileSeq + 1))).lines v).keeps
          have hnew : v.disk.fs.file p = some .new := by
            subst hv
            exact openFile_file_self true false
          have hat : v.disk.fs.OpenAt w.disk.fs.nextFd p := by
            subst hv
            exact openFile_openAt (.inl rfl)
          have hsame := hkeeps.file p hp
          rw [hnew] at hsame
          obtain ⟨f, hf, hempty, -⟩ := hsame.exists_some
          refine switchIncr_positioned _ _
            (hkeeps.openAt p hp _ (Set.notMem_empty _) hat) hf hempty ?_
          rw [writeAofManifestFile_sv, ← hv]
          exact hne

theorem Positioned.of_sv (h : Positioned w) (hfs : w'.disk.fs = w.disk.fs)
    (hfd : w'.sv.aofFd = w.sv.aofFd) (hsize : w'.sv.aofLastIncrSize = w.sv.aofLastIncrSize) :
    Positioned w' := by
  unfold Positioned
  rw [hfs, hfd, hsize]
  exact h

end Opening

/-- The synchronous enable ends with the new INCR file open at its end. -/
theorem startAppendOnly_positioned (env : StartEnv) (hsane : Sane w) (hexec : w.sv.inExec = false)
    (hok : startAppendOnly env w = (.ok, w')) : Positioned w' := by
  rw [startAppendOnly_eq env hsane.childType hexec] at hok
  generalize hw₁ : w.set (fun sv => { sv with aofState := .waitRewrite }) = w₁ at hok
  have hwait : w₁.sv.aofState = .waitRewrite := by
    subst hw₁
    rfl
  have hfd : FdValid w₁ := by
    subst hw₁
    exact hsane.fd
  have hsync : Positioned (startSync env w₁).2 ∨ (startSync env w₁).1 = .err := by
    cases hrep : env.replaces with
    | false => exact .inr (startSync_stopped env hwait hrep).1
    | true =>
        obtain ⟨fd, v, hv, heq⟩ := startSync_replaced env hwait hrep
        rw [heq]
        split
        · left
          obtain ⟨f, hf, hdata⟩ := hv.incr.file
          obtain ⟨hd, hopen, hend⟩ := (hv.incr.openAt hfd).openOn hf
          have hpos : Positioned v := by
            refine ⟨fd, hd, f, hv.reopened.aofFd, hopen, hend, ?_⟩
            rw [hdata, hv.reopened.aofLastIncrSize]
            rfl
          have hapart : Apart v := by
            apply Apart.of_openAt hv.reopened.aofFd (hv.incr.openAt hfd)
            have hconf : v.sv.conf = w₁.sv.conf := hv.reopened.control.conf
            rw [hconf]
            exact w₁.sv.conf.incrName_ne_own w₁.sv.conf.tempManifest_mem_own _
          have hinstall : Positioned (freeNames env.freed (installManifest (newBaseName w₁.sv)
              { rewrittenManifest w₁.sv with dirty := false } v)) :=
            hpos.of_sv rfl rfl rfl
          exact (hinstall.delHistory hapart env.persistHistory).of_sv rfl rfl rfl
        · exact .inr rfl
  generalize startSync env w₁ = r at hok hsync
  obtain ⟨st, v⟩ := r
  cases st with
  | err => cases hok
  | ok =>
      obtain rfl := (Prod.mk.inj hok).2
      obtain hpos | herr := hsync
      · exact hpos.of_sv rfl rfl rfl
      · cases herr

section Start

variable [Commands A δ]

omit [Commands A δ] in
theorem aofOpenIfNeededOnServerStart_positioned (env : BootEnv) (hon : w.sv.aofState = .on)
    (hexit : (aofOpenIfNeededOnServerStart env w).exited = false) :
    Positioned (aofOpenIfNeededOnServerStart env w) ∧
      ((∀ ai ∈ (aofOpenIfNeededOnServerStart env w).sv.aofManifest.incrAofList.getLast?,
        ai.fileName ≠ w.sv.conf.tempManifestName) → Apart (aofOpenIfNeededOnServerStart env w)) := by
  unfold aofOpenIfNeededOnServerStart at hexit ⊢
  rw [if_neg (by simp [hon])] at hexit ⊢
  split at hexit
  · cases hexit
  · rw [if_neg (by assumption)]
    obtain ⟨-, hopen⟩ := andThen_exited hexit
    rw [hopen] at hexit ⊢
    have hconf : (createBaseIfNeeded env.base w.dirCreate).sv.conf = w.sv.conf :=
      (createBaseIfNeeded_control env.base w.dirCreate).conf
    refine ⟨openLastIncr_positioned env _ hexit, ?_⟩
    rw [← hconf]
    exact openLastIncr_apart env _ hexit

/-- The last INCR file is not called like the temporary manifest. -/
def LastIncrApart (w : World D A δ) : Prop :=
  ∀ ai ∈ w.sv.aofManifest.incrAofList.getLast?, ai.fileName ≠ w.sv.conf.tempManifestName

theorem serverStart_positioned (c : StartConf δ) (env : BootEnv) (dk : Disk D)
    (hon : (serverStart c env dk : World D A δ).sv.aofState = .on)
    (hexit : (serverStart c env dk : World D A δ).exited = false)
    (hname : LastIncrApart (serverStart c env dk : World D A δ)) :
    Positioned (serverStart c env dk : World D A δ) := by
  unfold serverStart at hexit hon hname ⊢
  dsimp only at hexit hon hname ⊢
  generalize hw : (World.mk (initServer c) { dk with fs := dk.fs.closeAll } false [] [] none :
    World D A δ) = w at *
  obtain ⟨hexit', heq⟩ := andThen_exited hexit
  rw [heq] at hon hname ⊢
  rw [(aofDelHistoryFiles_control _ _).aofState] at hon
  obtain ⟨-, heq'⟩ := andThen_exited hexit'
  rw [heq'] at hon hexit' hname ⊢
  generalize (aofLoadManifestFromDisk w).andThen (loadDataFromDisk c env) = v at *
  have hcontrol := aofOpenIfNeededOnServerStart_control env v
  rw [hcontrol.aofState] at hon
  obtain ⟨hpos, hapart⟩ := aofOpenIfNeededOnServerStart_positioned env hon hexit'
  refine hpos.delHistory (hapart ?_) env.persistHistory
  unfold LastIncrApart at hname
  rw [aofDelHistoryFiles_incr, (aofDelHistoryFiles_control _ _).conf, hcontrol.conf] at hname
  exact hname

/-- The AOF was opened just now: by a server that starts, by a switch to a new INCR file, or by
an enable. A start that goes on to delete HISTORY files writes a temporary manifest, so there the
AOF must not be called like it. -/
inductive AofOpened : World D A δ → Prop where
  | start (c : StartConf δ) (env : BootEnv) (dk : Disk D) :
      (serverStart c env dk : World D A δ).sv.aofState = .on →
      (serverStart c env dk : World D A δ).exited = false →
      LastIncrApart (serverStart c env dk : World D A δ) → AofOpened (serverStart c env dk)
  | openLast (env : BootEnv) (w : World D A δ) : w.sv.aofState = .on →
      (aofOpenIfNeededOnServerStart env w).exited = false →
      AofOpened (aofOpenIfNeededOnServerStart env w)
  | newIncr (env : OpenIncrEnv) (w w' : World D A δ) : Sane w → w.sv.aofState ≠ .off →
      openNewIncrAofForAppend env w = (.ok, w') → AofOpened w'
  | enable (env : StartEnv) (w w' : World D A δ) : Sane w → w.sv.inExec = false →
      startAppendOnly env w = (.ok, w') → AofOpened w'

theorem AofOpened.positioned (h : AofOpened w) : Positioned w := by
  cases h with
  | start c env dk hon hexit hname => exact serverStart_positioned c env dk hon hexit hname
  | openLast env w hon hexit => exact (aofOpenIfNeededOnServerStart_positioned env hon hexit).1
  | newIncr env w w' hsane hstate hok =>
      exact openNewIncrAofForAppend_positioned env hsane.fd hstate hok
  | enable env w w' hsane hexec hok => exact startAppendOnly_positioned env hsane hexec hok

/-- The AOF is its contents at opening followed by exactly what was removed from `aof_buf`,
throughout a run, if and only if every flush of the run that leaves something in the file finds
the descriptor at its end. -/
theorem appended_exactly_iff (w : World D A δ) (hopened : AofOpened w)
    (hpolicy : w.sv.aofFsync ≠ .always) (evs : List (AppendEvent A δ)) :
    Always appendStep (AppendedExactly ((aofData w).getD [])) (w, []) evs ↔
      Meets appendStep FlushAtEnd (w, []) evs := by
  obtain ⟨fd, hd, f, hfd, hopen, hend, hsize⟩ := hopened.positioned
  have hwriting : Writing w fd hd f := ⟨hfd, hopen, hpolicy⟩
  have hinv : AppendInv ((aofData w).getD []) (w, []) := by
    refine ⟨fd, hd, f, hwriting, ?_, hsize, hend.ge⟩
    rw [hwriting.aofData_eq]
    simp
  exact always_iff_meets (fun s h => h.exactly) appendStep_inv appendStep_break hinv

end Start

omit [AofFormat D A δ] in
/-- A descriptor on a file that is known is at its end or not. -/
instance (w : World D A δ) : Decidable (AtEnd w) :=
  match hfd : w.sv.aofFd with
  | none => isFalse (by rintro ⟨fd, hd, h, -⟩; simp [hfd] at h)
  | some fd =>
    match hhd : w.disk.fs.handle fd with
    | none => isFalse (by rintro ⟨fd', hd, h, h', -⟩; simp_all)
    | some hd =>
      decidable_of_iff (hd.writeOff (w.disk.fs.inode hd.ino) =
        (w.disk.fs.inode hd.ino).data.length) (by
          constructor
          · exact fun h => ⟨fd, hd, hfd, hhd, h⟩
          · rintro ⟨fd', hd', h, h', hend⟩
            simp_all)

instance [DecidableEq D] (start : List D) (s : World D A δ × List D) :
    Decidable (AppendedExactly start s) :=
  inferInstanceAs (Decidable (_ ∧ _))

instance (s : World D A δ × List D) : ∀ ev, Decidable (FlushAtEnd s ev)
  | .flush _ env => inferInstanceAs (Decidable (0 < flushKeeps env s.1.sv → AtEnd s.1))
  | .feed _ _ => isTrue trivial
  | .clock _ => isTrue trivial

/-- A server that turned its AOF on. -/
def enabledServer : World (Option (Rec Nat Journal)) Nat Journal :=
  (startAppendOnly .success (firstStart false)).2

theorem enabledServer_opened : AofOpened enabledServer := by
  have hreach : Reachable (firstStart false) := ⟨defaultStart false, .success, .blank, [], rfl⟩
  refine .enable .success (firstStart false) _ hreach.sane (by decide +kernel) ?_
  exact Prod.ext (by decide +kernel) rfl

/-- Two whole writes on a new INCR file. -/
theorem appended_exactly_whole_writes :
    Always appendStep (AppendedExactly ((aofData enabledServer).getD [])) (enabledServer, [])
      [.feed (some 0) (.command 7 0 1), .flush false .success, .feed (some 3) (.command 8 3 2),
        .flush false .success] := by
  have hpolicy : enabledServer.sv.aofFsync ≠ .always := by decide +kernel
  exact (appended_exactly_iff enabledServer enabledServer_opened hpolicy _).mpr (by decide +kernel)

/-- A short write on the INCR file of an enable is cut off, and the next write leaves a gap. -/
theorem short_write_leaves_gap :
    AofOpened enabledServer ∧ enabledServer.sv.aofFsync ≠ .always ∧
      ¬ Always appendStep (AppendedExactly ((aofData enabledServer).getD [])) (enabledServer, [])
        [.feed (some 0) (.command 7 0 1), .flush false ⟨some 1, true, true⟩,
          .flush false .success] :=
  ⟨enabledServer_opened, by decide +kernel, by decide +kernel⟩

end WasiPorts.Redis.Aof
