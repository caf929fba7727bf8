import WasiPorts.Redis.Aof.Reachable

/-!
# A failed enable

When `startAppendOnly` fails, the server should be as it was before the call: the AOF off, the
same descriptor and manifest, nothing left open and no new file left behind (`AsBefore`).

The two early exits do so. From the moment `openNewIncrAofForAppend` has returned, `aof_fd` is the
descriptor of the temporary INCR file, and no later exit closes it or puts the old one back.

* `failed_enable_as_before_iff` — the server is as before exactly if the call failed before the
  temporary INCR file was open.
-/

namespace WasiPorts.Redis.Aof

open WasiPorts.Posix WasiPorts.Posix.Fs WasiPorts.Run

variable {D A δ : Type}

/-- The files an enable creates: the temporary INCR file, the rewritten dataset, and both under
their final names. -/
def createdPaths (sv : Server D A δ) : List Path :=
  [.aof sv.conf.tempIncrAofName, .cwd syncTempName, .aof (newBaseName sv), .aof (newIncrName sv)]

/-- `w'` is `w` with the AOF off, as far as descriptors, the manifest and created files go. -/
structure AsBefore (w w' : World D A δ) : Prop where
  aofState : w'.sv.aofState = .off
  aofFd : w'.sv.aofFd = w.sv.aofFd
  aofManifest : w'.sv.aofManifest = w.sv.aofManifest
  descriptors : ∀ fd, (w'.disk.fs.handle fd).isSome → (w.disk.fs.handle fd).isSome
  files : ∀ p ∈ createdPaths w.sv, (w'.disk.fs.file p).isSome → (w.disk.fs.file p).isSome

variable {w v : World D A δ}

/-! ## The descriptor after the call -/

theorem adoptRewrite_aofFd (env : StartEnv) (w : World D A δ) :
    (adoptRewrite env w).2.sv.aofFd = w.sv.aofFd := by
  unfold adoptRewrite
  dsimp only [getNewBaseFileNameAndMarkPreAsHistory, getNewIncrAofName]
  split
  · rfl
  · split
    · rfl
    · generalize hv : (w.onFs _).onFs _ = v
      generalize markRewrittenIncrAofAsHistory _ _ = am
      have hfd : (persistAofManifest env.persist am v).2.2.sv.aofFd = w.sv.aofFd := by
        subst hv
        unfold persistAofManifest
        split
        · rw [writeAofManifestFile_sv]
          rfl
        · rfl
      split
      · next heq =>
          rw [heq] at hfd
          exact hfd
      · next u heq =>
          rw [heq] at hfd
          obtain ⟨am', hdel⟩ := aofDelHistoryFiles_sv env.persistHistory
            (freeNames env.freed
              (installManifest (w.sv.conf.baseName (w.sv.aofManifest.currBaseFileSeq + 1)) _ u))
          show (aofDelHistoryFiles _ _).sv.aofFd = _
          rw [hdel]
          exact hfd

variable [AofFormat D A δ]

/-- Once the temporary INCR file is open, it stays the AOF. -/
theorem startSync_aofFd (env : StartEnv) (hwait : w.sv.aofState = .waitRewrite)
    (hdir : env.dirCreate = true) (hopen : env.incr.openNew = true) :
    (startSync env w).2.sv.aofFd = some w.disk.fs.nextFd := by
  have hwait' : (prepareRewrite w).sv.aofState = .waitRewrite := hwait
  unfold startSync
  rw [if_neg (by simp [hdir]), openNewIncrAofForAppend_wait env.incr hwait']
  dsimp only
  rw [if_neg (by simp [hopen])]
  dsimp only
  generalize hv : switchIncr env.incr.closeFsync _ _ _ = v
  have hfd : v.sv.aofFd = some w.disk.fs.nextFd := by
    rw [← hv]
    exact (switchIncr_reopened _ _ _ _).aofFd
  obtain ⟨dk, tr, hdisk⟩ := rewriteAppendOnlyFile_onDisk env.rewrite (.cwd syncTempName) v
  generalize rewriteAppendOnlyFile env.rewrite (.cwd syncTempName) v = r at *
  obtain ⟨st, v'⟩ := r
  obtain rfl : v' = { v with disk := dk, trace := tr } := hdisk
  cases st with
  | err => exact hfd
  | ok => exact (adoptRewrite_aofFd env _).trans hfd

/-! ## The early exits -/

/-- A call that fails before the temporary INCR file is open changes nothing that counts. -/
theorem startSync_early_asBefore (env : StartEnv) (hwait : w.sv.aofState = .waitRewrite)
    (hearly : env.dirCreate = false ∨ env.incr.openNew = false) :
    AsBefore w (startSync env w).2 := by
  have hwait' : (prepareRewrite w).sv.aofState = .waitRewrite := hwait
  unfold startSync
  cases hdir : env.dirCreate with
  | false => exact ⟨rfl, rfl, rfl, fun _ h => h, fun _ _ h => h⟩
  | true =>
      have hopen : env.incr.openNew = false := by simpa [hdir] using hearly
      rw [if_neg (by simp), openNewIncrAofForAppend_wait env.incr hwait']
      dsimp only
      rw [if_pos hopen]
      exact ⟨rfl, rfl, rfl, fun _ h => h, fun _ _ h => h⟩

/-! ## The result -/

section Result

variable [Commands A δ]

/-- A failed enable leaves the server as it was exactly if it fails before the temporary INCR file
is open. -/
theorem failed_enable_as_before_iff (env : StartEnv) (w : World D A δ) (hreach : Reachable w)
    (herr : (startAppendOnly env w).1 = .err) :
    AsBefore w (startAppendOnly env w).2 ↔ env.dirCreate = false ∨ env.incr.openNew = false := by
  have hsane := hreach.sane
  have hexec : w.sv.inExec = false := by
    cases hexec : w.sv.inExec with
    | false => rfl
    | true =>
        unfold startAppendOnly at herr
        simp [World.set, hexec] at herr
  rw [startAppendOnly_err env hsane.childType hexec herr]
  generalize hw' : w.set (fun sv => { sv with aofState := .waitRewrite }) = w'
  have hwait : w'.sv.aofState = .waitRewrite := by
    subst hw'
    rfl
  constructor
  · intro h
    by_contra hlate
    have hlate' : env.dirCreate = true ∧ env.incr.openNew = true := by simpa using hlate
    have hfd := startSync_aofFd env hwait hlate'.1 hlate'.2
    rw [h.aofFd] at hfd
    -- the old descriptor would have to be the new one
    have hlt := hsane.fd _ hfd
    subst hw'
    exact Nat.lt_irrefl _ hlt
  · intro hearly
    have h := startSync_early_asBefore env hwait hearly
    subst hw'
    exact ⟨h.aofState, h.aofFd, h.aofManifest, h.descriptors, h.files⟩

end Result

/-- The temporary INCR file cannot be opened: the server is as before. -/
theorem enable_without_incr_as_before :
    let env : StartEnv := { StartEnv.success with incr := ⟨false, .success, true⟩ }
    (startAppendOnly env (firstStart false)).1 = .err ∧
      AsBefore (firstStart false) (startAppendOnly env (firstStart false)).2 := by
  intro env
  have herr : (startAppendOnly env (firstStart false)).1 = .err := by decide +kernel
  have hreach : Reachable (firstStart false) := ⟨defaultStart false, .success, .blank, [], rfl⟩
  exact ⟨herr, (failed_enable_as_before_iff env _ hreach herr).mpr (.inr rfl)⟩

/-- The dataset cannot be saved: `aof_fd` was -1, and it is now the descriptor of the deleted
temporary INCR file. -/
theorem failed_save_leaks_descriptor :
    let env : StartEnv := { StartEnv.success with rewrite := ⟨true, some 0, true, true⟩ }
    Reachable (firstStart false) ∧ (firstStart false).sv.aofState = .off ∧
      (startAppendOnly env (firstStart false)).1 = .err ∧
      ¬ AsBefore (firstStart false) (startAppendOnly env (firstStart false)).2 := by
  intro env
  refine ⟨⟨defaultStart false, .success, .blank, [], rfl⟩, by decide +kernel, by decide +kernel, ?_⟩
  intro h
  have hbefore : (firstStart false).sv.aofFd = none := by decide +kernel
  have hafter : (startAppendOnly env (firstStart false)).2.sv.aofFd = some 0 := by decide +kernel
  have hfd := h.aofFd
  rw [hbefore, hafter] at hfd
  cases hfd

end WasiPorts.Redis.Aof
