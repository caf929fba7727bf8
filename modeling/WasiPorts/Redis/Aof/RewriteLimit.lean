import Mathlib.Data.Set.Card
import WasiPorts.Redis.Aof.Files
import WasiPorts.Redis.Aof.WellFormed
import WasiPorts.Redis.Aof.Startup

/-!
# Failed rewrites and the limiter

`aofRewriteLimited` refuses rewrites after three consecutive failures. The failures are counted
where the exit of the rewriting child is handled; on WASI `redisFork` fails first, when the new
INCR file is already in the manifest. So the count stays 0 and nothing is ever refused
(`aofRewriteLimited_never`).

What a rewrite attempt can add to the AOF directory and to the manifest, in memory and on disk, is one
file and one entry (`Grown`); everything else that is no command adds nothing (`Calm`).
-/

namespace WasiPorts.Redis.Aof

open WasiPorts.Posix WasiPorts.Posix.Fs WasiPorts.Run

variable {D A δ : Type}

/-! ## The counter stays 0 -/

section Counter

/-- No rewrite failure has been counted, and there is no child. -/
structure Unfailed (w : World D A δ) : Prop where
  failures : w.sv.statAofrwConsecutiveFailures = 0
  childType : w.sv.childType = none

variable {w w' : World D A δ}

theorem Unfailed.of_control (h : Unfailed w) (hw : Control w w') : Unfailed w' :=
  ⟨hw.failures.trans h.failures, hw.childType.trans h.childType⟩

/-- The limiter lets the rewrite through. -/
theorem Unfailed.limited (h : Unfailed w) : (aofRewriteLimited w).1 = false := by
  unfold aofRewriteLimited
  simp [h.failures, aofRewriteLimiteThreshold]

variable [AofFormat D A δ]

theorem propagatePendingCommands_unfailed (arbitrary : Bool) (h : Unfailed w) :
    Unfailed (propagatePendingCommands arbitrary w) := by
  refine propagatePendingCommands_inv ?_ ?_ arbitrary h
  · intro dictid len cmd w h
    unfold propagateNow
    dsimp only
    split
    · split <;> exact ⟨h.failures, h.childType⟩
    · exact h
  · intro w h
    exact ⟨h.failures, h.childType⟩

theorem stopAppendOnly_unfailed (env : StopEnv) (h : Unfailed w) :
    Unfailed (stopAppendOnly env w) := by
  have hflush := flushAppendOnlyFile_frame true env.flush w
  have hclose := hflush.trans (closeAof_frame env.fsync _)
  unfold stopAppendOnly
  dsimp only
  split
  · exact h.of_control hflush.toControl
  · exact ⟨hclose.failures.trans h.failures, hclose.childType.trans h.childType⟩

theorem startAppendOnly_unfailed (env : StartEnv) (h : Unfailed w) :
    Unfailed (startAppendOnly env w).2 := by
  have hsync := startSync_switched env (w.set fun sv => { sv with aofState := .waitRewrite })
  unfold startAppendOnly
  dsimp only
  split
  · exact ⟨h.failures, h.childType⟩
  · split
    · next hres =>
        rw [hres] at hsync
        exact ⟨hsync.failures h.failures, hsync.steady.childType.trans h.childType⟩
    · next hres =>
        rw [hres] at hsync
        exact ⟨hsync.failures h.failures, hsync.steady.childType.trans h.childType⟩

theorem configSetAppendonly_unfailed (yes : Bool) (start : StartEnv) (stop : StopEnv)
    (h : Unfailed w) : Unfailed (configSetAppendonly yes start stop w) := by
  have hset : Unfailed (w.set fun sv => { sv with aofEnabled := yes }) :=
    ⟨h.failures, h.childType⟩
  unfold configSetAppendonly
  dsimp only
  split
  · exact h
  · split
    · exact stopAppendOnly_unfailed stop hset
    · split
      · have hres := startAppendOnly_unfailed start hset
        split
        · next hok =>
            rw [hok] at hres
            exact hres
        · next herr =>
            rw [herr] at hres
            exact ⟨hres.failures, hres.childType⟩
      · exact hset

theorem bgrewriteaofCommand_unfailed (env : RewriteEnv) (h : Unfailed w) :
    Unfailed (bgrewriteaofCommand env w) := by
  unfold bgrewriteaofCommand
  split
  · exact h
  · split
    · exact ⟨rfl, h.childType⟩
    · exact h.of_control (rewriteAppendOnlyFileBackground_control env w)

theorem serverCron_unfailed (env : CronEnv) (h : Unfailed w) : Unfailed (serverCron env w) := by
  obtain ⟨w', hcontrol, hres | hres⟩ := serverCron_control env w
  · rw [hres]
    exact h.of_control hcontrol
  · have h' := h.of_control hcontrol
    rw [hres]
    exact ⟨h'.failures, h'.childType⟩

section Step

variable [Commands A δ]

theorem call_unfailed (c : Command A) (h : Unfailed w) : Unfailed (call w c) := by
  cases c with
  | write ops arbitrary =>
      obtain ⟨d, q, heq⟩ := foldl_writeOp ops w.sv
      show Unfailed { w with sv := ops.foldl writeOp w.sv }
      rw [heq]
      exact ⟨h.failures, h.childType⟩
  | configAppendonly yes start stop => exact configSetAppendonly_unfailed yes start stop h
  | bgrewriteaof env => exact bgrewriteaofCommand_unfailed env h

theorem execCommand_unfailed (cs : List (Command A)) (h : Unfailed w) :
    Unfailed (execCommand cs w) := by
  have hcalls : Always callNext Unfailed (enterExec w) cs := by
    refine Always.of_step ?_ ⟨h.failures, h.childType⟩ cs
    intro w c h
    exact andThen_inv h (call_unfailed c)
  refine andThen_inv hcalls.last fun h => ?_
  exact propagatePendingCommands_unfailed false ⟨h.failures, h.childType⟩

theorem step_unfailed (w : World D A δ) (op : Op A) (h : Unfailed w) : Unfailed (step w op) := by
  refine andThen_inv h fun h => ?_
  cases op with
  | command c =>
      exact andThen_inv (call_unfailed c h) (propagatePendingCommands_unfailed c.arbitrary)
  | exec cs => exact execCommand_unfailed cs h
  | beforeSleep env =>
      exact h.of_control ((flushBeforeSleep_frame env w).toControl.andThen
        (updateFsyncedReploff_control _))
  | serverCron env => exact serverCron_unfailed env h
  | clock ms => exact ⟨h.failures, h.childType⟩
  | configAppendfsync policy => exact ⟨h.failures, h.childType⟩

theorem always_unfailed (c : StartConf δ) (env : BootEnv) (dk : Disk D) (ops : List (Op A)) :
    Always step Unfailed (serverStart c env dk : World D A δ) ops := by
  have hfresh : Fresh (serverStart c env dk : World D A δ) := serverStart_fresh c env dk
  exact Always.of_step step_unfailed ⟨hfresh.failures, hfresh.childType⟩ ops

/-- The limiter never refuses a rewrite. -/
theorem aofRewriteLimited_never (c : StartConf δ) (env : BootEnv) (dk : Disk D)
    (ops : List (Op A)) :
    Always step (fun w => (aofRewriteLimited w).1 = false) (serverStart c env dk) ops :=
  (always_unfailed c env dk ops).mono fun _ h => h.limited

end Step

end Counter

/-! ## What there is of the AOF -/

section Contents

/-- The INCR files in the manifest. -/
def incrCount (w : World D A δ) : Nat := w.sv.aofManifest.incrAofList.length

/-- The entries of the manifest, in memory and on disk. -/
def manifestEntries (w : World D A δ) : List (AofInfo String) :=
  w.sv.aofManifest.lines ++ w.disk.manifest.getD []

def newEntries (w w' : World D A δ) : Set (AofInfo String) :=
  {ai | ai ∈ manifestEntries w' ∧ ai ∉ manifestEntries w}

/-- New files in the AOF directory, other than those that every call names alike. -/
def newFiles (w w' : World D A δ) : Set String :=
  {n | n ∉ w.sv.conf.ownNames ∧ w.disk.fs.file (.aof n) = none ∧ (w'.disk.fs.file (.aof n)).isSome}

/-- No more than `n` INCR entries in memory, entries in memory or on disk, and files are new. -/
structure GrowsBy (n : Nat) (w w' : World D A δ) : Prop where
  listed : incrCount w' ≤ incrCount w + n
  entries : (newEntries w w').encard ≤ n
  files : (newFiles w w').encard ≤ n

/-- What decides about rewrites is as before, and the AOF is no smaller. -/
structure SameSettings (w w' : World D A δ) : Prop where
  conf : w'.sv.conf = w.sv.conf
  aofState : w'.sv.aofState = w.sv.aofState
  scheduled : w'.sv.aofRewriteScheduled = w.sv.aofRewriteScheduled
  perc : w'.sv.aofRewritePerc = w.sv.aofRewritePerc
  minSize : w'.sv.aofRewriteMinSize = w.sv.aofRewriteMinSize
  baseSize : w'.sv.aofRewriteBaseSize = w.sv.aofRewriteBaseSize
  size : w.sv.aofCurrentSize ≤ w'.sv.aofCurrentSize

/-- Nothing is added to the AOF directory and to the manifest. -/
structure Calm (w w' : World D A δ) : Prop extends SameSettings w w' where
  aofManifest : w'.sv.aofManifest = w.sv.aofManifest
  manifest : w'.disk.manifest = w.disk.manifest
  files : ∀ n ∉ w.sv.conf.ownNames, (w'.disk.fs.file (.aof n)).isSome → (w.disk.fs.file (.aof n)).isSome

/-- The entry that the `i`-th rewrite attempt from `w` on can add. -/
def madeEntry (w : World D A δ) (i : Nat) : AofInfo String :=
  let seq := w.sv.aofManifest.currIncrFileSeq + i
  ⟨w.sv.conf.incrName seq, seq, .incr⟩

/-- `k` rewrite attempts are made, and `s` of them open a new INCR file. -/
structure Grown (k s : Nat) (w w' : World D A δ) : Prop extends SameSettings w w' where
  le : s ≤ k
  count : incrCount w' = incrCount w + s
  seq : w'.sv.aofManifest.currIncrFileSeq = w.sv.aofManifest.currIncrFileSeq + s
  entries : ∀ ai ∈ manifestEntries w', ai ∈ manifestEntries w ∨ ∃ i ∈ Finset.Icc 1 k, ai = madeEntry w i
  files : ∀ n ∉ w.sv.conf.ownNames, (w'.disk.fs.file (.aof n)).isSome →
    (w.disk.fs.file (.aof n)).isSome ∨ ∃ i ∈ Finset.Icc 1 k, n = (madeEntry w i).fileName

variable {w w' w₁ w₂ w₃ : World D A δ} {k l s t : Nat}

theorem SameSettings.refl (w : World D A δ) : SameSettings w w := ⟨rfl, rfl, rfl, rfl, rfl, rfl, le_rfl⟩

theorem SameSettings.trans (h : SameSettings w₁ w₂) (h' : SameSettings w₂ w₃) : SameSettings w₁ w₃ where
  conf := h'.conf.trans h.conf
  aofState := h'.aofState.trans h.aofState
  scheduled := h'.scheduled.trans h.scheduled
  perc := h'.perc.trans h.perc
  minSize := h'.minSize.trans h.minSize
  baseSize := h'.baseSize.trans h.baseSize
  size := h.size.trans h'.size

namespace Calm

/-- Files are written to, but none is named. -/
theorem of_dir (h : SameSettings w w') (hman : w'.sv.aofManifest = w.sv.aofManifest)
    (hdisk : w'.disk.manifest = w.disk.manifest) (hdir : w'.disk.fs.dir = w.disk.fs.dir) : Calm w w' where
  toSameSettings := h
  aofManifest := hman
  manifest := hdisk
  files n _ hn := by
    simpa [Fs.file, hdir] using hn

theorem refl (w : World D A δ) : Calm w w := .of_dir (.refl w) rfl rfl rfl

theorem trans (h : Calm w₁ w₂) (h' : Calm w₂ w₃) : Calm w₁ w₃ where
  toSameSettings := h.toSameSettings.trans h'.toSameSettings
  aofManifest := h'.aofManifest.trans h.aofManifest
  manifest := h'.manifest.trans h.manifest
  files n hn hsome := h.files n hn (h'.files n (h.conf ▸ hn) hsome)

theorem grown (h : Calm w w') : Grown 0 0 w w' where
  toSameSettings := h.toSameSettings
  le := le_rfl
  count := by rw [incrCount, h.aofManifest, incrCount, Nat.add_zero]
  seq := by simp [h.aofManifest]
  entries ai hai := by
    rw [manifestEntries, h.aofManifest, h.manifest] at hai
    exact .inl hai
  files n hn hsome := .inl (h.files n hn hsome)

end Calm

namespace Grown

theorem refl (w : World D A δ) : Grown 0 0 w w := (Calm.refl w).grown

/-- The entries that are made after those of `w₁` come behind them. -/
theorem madeEntry_eq (h : Grown k s w₁ w₂) (i : Nat) : madeEntry w₂ i = madeEntry w₁ (s + i) := by
  simp [madeEntry, h.seq, h.conf, Int.add_assoc]

theorem trans (h : Grown k s w₁ w₂) (h' : Grown l t w₂ w₃) : Grown (k + l) (s + t) w₁ w₃ where
  toSameSettings := h.toSameSettings.trans h'.toSameSettings
  le := Nat.add_le_add h.le h'.le
  count := by rw [h'.count, h.count, Nat.add_assoc]
  seq := by rw [h'.seq, h.seq, Nat.cast_add, Int.add_assoc]
  entries ai hai := by
    have hle := h.le
    rcases h'.entries ai hai with hold | ⟨i, hi, rfl⟩
    · refine (h.entries ai hold).imp_right ?_
      rintro ⟨i, hi, rfl⟩
      exact ⟨i, by simp at hi ⊢; omega, rfl⟩
    · exact .inr ⟨s + i, by simp at hi ⊢; omega, h.madeEntry_eq i⟩
  files n hn hsome := by
    have hle := h.le
    rcases h'.files n (h.conf ▸ hn) hsome with hold | ⟨i, hi, rfl⟩
    · refine (h.files n hn hold).imp_right ?_
      rintro ⟨i, hi, rfl⟩
      exact ⟨i, by simp at hi ⊢; omega, rfl⟩
    · exact .inr ⟨s + i, by simp at hi ⊢; omega, by rw [h.madeEntry_eq]⟩

/-- As many attempts, as much can be new. -/
theorem growsBy (h : Grown k s w w') : GrowsBy k w w' where
  listed := by
    have := h.le
    rw [h.count]
    omega
  entries := by
    have hsub : newEntries w w' ⊆ (Finset.Icc 1 k).image (madeEntry w) := by
      rintro ai ⟨hai, hnew⟩
      obtain ⟨i, hi, rfl⟩ := (h.entries ai hai).resolve_left hnew
      exact Finset.mem_coe.mpr (Finset.mem_image_of_mem _ hi)
    refine (Set.encard_le_encard hsub).trans ?_
    rw [Set.encard_coe_eq_coe_finsetCard]
    exact_mod_cast Finset.card_image_le.trans (by simp)
  files := by
    have hsub : newFiles w w' ⊆ (Finset.Icc 1 k).image fun i => (madeEntry w i).fileName := by
      rintro n ⟨hn, hnone, hsome⟩
      rcases h.files n hn hsome with hold | ⟨i, hi, rfl⟩
      · rw [hnone] at hold
        cases hold
      · exact Finset.mem_coe.mpr (Finset.mem_image_of_mem _ hi)
    refine (Set.encard_le_encard hsub).trans ?_
    rw [Set.encard_coe_eq_coe_finsetCard]
    exact_mod_cast Finset.card_image_le.trans (by simp)

end Grown

end Contents

/-! ## What adds nothing -/

section Quiet

theorem bioAofFsync_calm (fsyncOk : Bool) (fd : Nat) (w : World D A δ) : Calm w (bioAofFsync fsyncOk fd w) := by
  cases fsyncOk with
  | true => exact .of_dir ⟨rfl, rfl, rfl, rfl, rfl, rfl, le_rfl⟩ rfl rfl (fsync_dir _ fd)
  | false => exact .of_dir ⟨rfl, rfl, rfl, rfl, rfl, rfl, le_rfl⟩ rfl rfl rfl

theorem tryFsync_calm (env : FlushEnv) (w : World D A δ) : Calm w (tryFsync env w) := by
  unfold tryFsync
  dsimp only
  split
  · exact .refl w
  · split
    · split
      · exact .of_dir ⟨rfl, rfl, rfl, rfl, rfl, rfl, le_rfl⟩ rfl rfl rfl
      · next fd _ =>
          split
          · exact .of_dir ⟨rfl, rfl, rfl, rfl, rfl, rfl, le_rfl⟩ rfl rfl (fsync_dir _ fd)
          · exact .of_dir ⟨rfl, rfl, rfl, rfl, rfl, rfl, le_rfl⟩ rfl rfl rfl
    · split
      · -- the background job, with and without a descriptor
        split
        · exact .of_dir ⟨rfl, rfl, rfl, rfl, rfl, rfl, le_rfl⟩ rfl rfl rfl
        · split
          · exact .of_dir ⟨rfl, rfl, rfl, rfl, rfl, rfl, le_rfl⟩ rfl rfl rfl
          · next fd _ =>
              refine (bioAofFsync_calm env.fsync fd w).trans ?_
              exact .of_dir ⟨rfl, rfl, rfl, rfl, rfl, rfl, le_rfl⟩ rfl rfl rfl
      · exact .refl w

theorem tryFsync_size (env : FlushEnv) (w : World D A δ) :
    (tryFsync env w).sv.aofCurrentSize = w.sv.aofCurrentSize := by
  unfold tryFsync bioAofFsync
  dsimp only
  repeat' split
  all_goals rfl

theorem aofRewriteLimited_calm (w : World D A δ) : Calm w (aofRewriteLimited w).2 := by
  unfold aofRewriteLimited
  dsimp only
  repeat' split
  all_goals exact .of_dir ⟨rfl, rfl, rfl, rfl, rfl, rfl, le_rfl⟩ rfl rfl rfl

theorem prepareRewrite_calm (w : World D A δ) : Calm w (prepareRewrite w) :=
  .of_dir ⟨rfl, rfl, rfl, rfl, rfl, rfl, le_rfl⟩ rfl rfl rfl

theorem forkRewrite_calm (w : World D A δ) : Calm w (forkRewrite redisFork w).2 := by
  unfold forkRewrite redisFork
  dsimp only
  split <;> exact .of_dir ⟨rfl, rfl, rfl, rfl, rfl, rfl, le_rfl⟩ rfl rfl rfl

theorem closeOldAof_calm (fsyncOk : Bool) (w : World D A δ) : Calm w (closeOldAof fsyncOk w) := by
  unfold closeOldAof
  cases w.sv.aofFd with
  | none => exact .refl w
  | some fd =>
      refine (bioAofFsync_calm fsyncOk fd w).trans ?_
      exact .of_dir ⟨rfl, rfl, rfl, rfl, rfl, rfl, le_rfl⟩ rfl rfl rfl

variable [AofFormat D A δ]

theorem writeShort_calm (env : FlushEnv) (n : Nat) (w : World D A δ) : Calm w (writeShort env n w) := by
  have hwrite : ∀ fd (v : World D A δ) (xs : List D), Calm v (v.onFs (·.write fd xs)) :=
    fun fd v xs => .of_dir ⟨rfl, rfl, rfl, rfl, rfl, rfl, le_rfl⟩ rfl rfl (write_dir _ fd xs)
  have hcut : ∀ fd (v : World D A δ) m, Calm v (v.onFs (·.ftruncate fd m)) :=
    fun fd v m => .of_dir ⟨rfl, rfl, rfl, rfl, rfl, rfl, le_rfl⟩ rfl rfl (ftruncate_dir _ fd m)
  unfold writeShort
  dsimp only
  split
  · exact .refl w
  · split
    · exact .refl w
    · split
      · exact (hwrite _ w _).trans (hcut _ _ _)
      · exact hwrite _ w _

theorem writeFailed_calm (env : FlushEnv) (n : Nat) (w : World D A δ) : Calm w (writeFailed env n w) := by
  have hshort := writeShort_calm env n w
  unfold writeFailed
  dsimp only
  split
  · exact hshort.trans (.of_dir ⟨rfl, rfl, rfl, rfl, rfl, rfl, le_rfl⟩ rfl rfl rfl)
  · exact hshort.trans (.of_dir ⟨rfl, rfl, rfl, rfl, rfl, rfl, Nat.le_add_right _ _⟩ rfl rfl rfl)

theorem writeDone_calm (fd : Nat) (w : World D A δ) : Calm w (writeDone fd w) :=
  .of_dir ⟨rfl, rfl, rfl, rfl, rfl, rfl, Nat.le_add_right _ _⟩ rfl rfl (write_dir _ fd _)

theorem flushAppendOnlyFile_calm (force : Bool) (env : FlushEnv) (w : World D A δ) :
    Calm w (flushAppendOnlyFile force env w) := by
  unfold flushAppendOnlyFile
  dsimp only
  split
  · split
    · split
      · exact .refl w
      · exact .of_dir ⟨rfl, rfl, rfl, rfl, rfl, rfl, le_rfl⟩ rfl rfl rfl
    · split
      · exact tryFsync_calm env w
      · split
        · exact tryFsync_calm env w
        · exact .refl w
  · split
    · exact .of_dir ⟨rfl, rfl, rfl, rfl, rfl, rfl, le_rfl⟩ rfl rfl rfl
    · split
      · split
        · exact (writeDone_calm _ w).trans (tryFsync_calm env _)
        · exact writeFailed_calm env _ w
      · exact writeFailed_calm env 0 w

/-- How much a forced flush adds to the AOF. -/
def flushStores (env : FlushEnv) (sv : Server D A δ) : Nat :=
  match sv.aofFd with
  | none => 0
  | some _ =>
    let n := aofWrite env sv.aofBuf.length
    if n ≠ sv.aofBuf.length ∧ shortUndone env n then 0 else n

theorem flushAppendOnlyFile_size (env : FlushEnv) (w : World D A δ)
    (hexit : (flushAppendOnlyFile true env w).exited = false) :
    (flushAppendOnlyFile true env w).sv.aofCurrentSize = w.sv.aofCurrentSize + flushStores env w.sv := by
  have hfailed : ∀ n, (writeFailed env n w).exited = false →
      (writeFailed env n w).sv.aofCurrentSize = w.sv.aofCurrentSize + if shortUndone env n then 0 else n := by
    intro n hexit
    unfold writeFailed at hexit ⊢
    dsimp only at hexit ⊢
    split at hexit
    · cases hexit
    · next hpolicy =>
        rw [if_neg hpolicy]
        show (writeShort env n w).sv.aofCurrentSize + _ = _
        rw [writeShort_sv]
  unfold flushAppendOnlyFile at hexit ⊢
  dsimp only at hexit ⊢
  by_cases hbuf : w.sv.aofBuf = []
  · -- nothing to write
    have hstores : flushStores env w.sv = 0 := by
      unfold flushStores aofWrite
      rw [hbuf]
      cases w.sv.aofFd <;> cases env.written <;> simp
    rw [if_pos hbuf, hstores, Nat.add_zero]
    split
    · rfl
    · split
      · exact tryFsync_size env w
      · split
        · exact tryFsync_size env w
        · rfl
  · have hforce : flushPostponed true w.sv = false := by simp [flushPostponed]
    rw [if_neg hbuf, if_neg (by simp [hforce])] at hexit ⊢
    unfold flushStores
    cases hfd : w.sv.aofFd with
    | none =>
        rw [hfd] at hexit
        rw [hfailed 0 hexit]
        simp [shortUndone]
    | some fd =>
        rw [hfd] at hexit
        dsimp only at hexit ⊢
        split
        · next hwhole =>
            rw [tryFsync_size, if_neg (by simp [hwhole]), hwhole]
            rfl
        · next hshort =>
            rw [if_neg hshort] at hexit
            rw [hfailed _ hexit]
            simp [hshort]

end Quiet

/-! ## A rewrite attempt -/

section Attempt

variable {w v : World D A δ} {s : Nat}

theorem Grown.mono {k k' s : Nat} {w w' : World D A δ} (h : Grown k s w w') (hk : k ≤ k') : Grown k' s w w' where
  toSameSettings := h.toSameSettings
  le := h.le.trans hk
  count := h.count
  seq := h.seq
  entries ai hai := (h.entries ai hai).imp_right fun ⟨i, hi, heq⟩ => ⟨i, by simp at hi ⊢; omega, heq⟩
  files n hn hsome := (h.files n hn hsome).imp_right fun ⟨i, hi, heq⟩ => ⟨i, by simp at hi ⊢; omega, heq⟩

/-- The entry is in memory if `s` is 1, and on disk or not. -/
theorem grown_made (hset : SameSettings w v)
    (hman : v.sv.aofManifest = w.sv.aofManifest ∧ s = 0 ∨
      v.sv.aofManifest = { w.sv.aofManifest.pushIncr (madeEntry w 1).fileName with dirty := false } ∧ s = 1)
    (hdisk : v.disk.manifest = w.disk.manifest ∨
      v.disk.manifest = some (w.sv.aofManifest.pushIncr (madeEntry w 1).fileName).lines)
    (hfiles : ∀ n ∉ w.sv.conf.ownNames, (v.disk.fs.file (.aof n)).isSome →
      (w.disk.fs.file (.aof n)).isSome ∨ n = (madeEntry w 1).fileName) : Grown 1 s w v := by
  have hlines : ∀ ai ∈ (w.sv.aofManifest.pushIncr (madeEntry w 1).fileName).lines,
      ai ∈ manifestEntries w ∨ ai = madeEntry w 1 := by
    intro ai hai
    simp only [AofManifest.lines, AofManifest.pushIncr, List.mem_append, List.mem_singleton, or_assoc] at hai
    unfold manifestEntries AofManifest.lines madeEntry
    simp only [List.mem_append]
    tauto
  have hone : (1 : Nat) ∈ Finset.Icc 1 1 := by simp
  have hnew : ∀ ai ∈ manifestEntries v, ai ∈ manifestEntries w ∨ ai = madeEntry w 1 := by
    intro ai hai
    rcases List.mem_append.mp hai with hmem | hfile
    · rcases hman with ⟨hsame, -⟩ | ⟨hpush, -⟩
      · rw [hsame] at hmem
        exact .inl (List.mem_append_left _ hmem)
      · rw [hpush] at hmem
        exact hlines ai hmem
    · rcases hdisk with hsame | hpush
      · rw [hsame] at hfile
        exact .inl (List.mem_append_right _ hfile)
      · rw [hpush] at hfile
        exact hlines ai hfile
  refine ⟨hset, ?_, ?_, ?_, ?_, ?_⟩
  · rcases hman with ⟨-, rfl⟩ | ⟨-, rfl⟩ <;> decide
  · rcases hman with ⟨hsame, rfl⟩ | ⟨hpush, rfl⟩
    · rw [incrCount, hsame]
      rfl
    · rw [incrCount, hpush]
      simp [incrCount, AofManifest.pushIncr]
  · rcases hman with ⟨hsame, rfl⟩ | ⟨hpush, rfl⟩
    · rw [hsame]
      simp
    · rw [hpush]
      rfl
  · exact fun ai hai => (hnew ai hai).imp_right fun heq => ⟨1, hone, heq⟩
  · exact fun n hn hsome => (hfiles n hn hsome).imp_right fun heq => ⟨1, hone, heq⟩

/-- `openNewIncrAofForAppend` gets to the end. -/
def opensIncr (env : OpenIncrEnv) (sv : Server D A δ) : Bool :=
  decide (sv.aofState = .on) && env.openNew && decide (env.persist.status = .ok)

/-- The file that `openNewIncrAofForAppend` opens is the only one that is new. -/
theorem openFile_new {name : String} {fs : Fs Path D} {own : List String}
    (hkeeps : Keeps {.aof (w.sv.conf.tempManifestName)} ∅
      (w.disk.fs.openFile (.aof name) true false).2 fs) (hown : w.sv.conf.tempManifestName ∈ own) :
    ∀ n ∉ own, (fs.file (.aof n)).isSome → (w.disk.fs.file (.aof n)).isSome ∨ n = name := by
  intro n hn hsome
  by_cases hname : n = name
  · exact .inr hname
  · have hdata := hkeeps.data (p := .aof n) (by
      rw [Set.mem_singleton_iff]
      rintro ⟨⟩
      exact hn hown)
    have hisSome := congrArg Option.isSome hdata
    rw [Fs.data, Fs.data, Option.isSome_map, Option.isSome_map,
      openFile_file_ne true false (by simpa using hname)] at hisSome
    exact .inl (hisSome ▸ hsome)

theorem openNewIncrAofForAppend_grown (env : OpenIncrEnv) (w : World D A δ) :
    Grown (if w.sv.aofState = .on then 1 else 0) (if opensIncr env w.sv then 1 else 0) w
      (openNewIncrAofForAppend env w).2 := by
  cases hstate : w.sv.aofState with
  | off =>
      have hno : opensIncr env w.sv = false := by simp [opensIncr, hstate]
      have hsame : (openNewIncrAofForAppend env w).2 = w := by
        unfold openNewIncrAofForAppend
        rw [hstate]
      rw [hno, hsame]
      exact .refl w
  | waitRewrite =>
      have hno : opensIncr env w.sv = false := by simp [opensIncr, hstate]
      rw [hno, openNewIncrAofForAppend_wait env hstate, if_neg (by simp), if_neg (by simp)]
      dsimp only
      split
      · exact .refl w
      · -- the temporary INCR file
        refine Calm.grown ?_
        have hopen : Calm w (w.onFs fun fs => (fs.openFile (.aof w.sv.conf.tempIncrAofName) true false).2) := by
          refine ⟨⟨rfl, rfl, rfl, rfl, rfl, rfl, le_rfl⟩, rfl, rfl, fun n hn hsome => ?_⟩
          have hne : Path.aof n ≠ .aof w.sv.conf.tempIncrAofName := by
            rintro ⟨⟩
            exact hn w.sv.conf.tempIncr_mem_own
          rwa [World.onFs, World.sys, openFile_file_ne true false hne] at hsome
        refine (hopen.trans (closeOldAof_calm env.closeFsync _)).trans ?_
        refine .of_dir ⟨rfl, rfl, rfl, rfl, rfl, rfl, le_rfl⟩ ?_ rfl rfl
        rw [(closeOldAof_calm env.closeFsync _).aofManifest]
        rfl
  | on =>
      rw [openNewIncrAofForAppend_on env hstate]
      generalize hu : (w.onFs fun fs => (fs.openFile
        (.aof (w.sv.conf.incrName (w.sv.aofManifest.currIncrFileSeq + 1))) true false).2) = u
      dsimp only
      rw [hu]
      have hsv : u.sv = w.sv := by
        rw [← hu]
        rfl
      have hpersist := writeAofManifestFile_persisted env.persist
        (w.sv.aofManifest.pushIncr (madeEntry w 1).fileName).lines u
      have hwritten := writeAofManifestFile_sv env.persist
        (w.sv.aofManifest.pushIncr (madeEntry w 1).fileName).lines u
      -- the entry that is made, and the file that is opened for it
      have hname : w.sv.conf.incrName (w.sv.aofManifest.currIncrFileSeq + 1) = (madeEntry w 1).fileName := rfl
      rw [hname] at hu ⊢
      generalize writeAofManifestFile env.persist
        (w.sv.aofManifest.pushIncr (madeEntry w 1).fileName).lines u = v at hpersist hwritten
      -- the manifest may be on disk although writing it failed: the fsync of the directory comes after the rename
      have hdisk : v.disk.manifest = w.disk.manifest ∨
          v.disk.manifest = some (w.sv.aofManifest.pushIncr (madeEntry w 1).fileName).lines := by
        rw [hpersist.manifest, ← hu]
        split
        · exact .inr rfl
        · exact .inl rfl
      have hfiles : ∀ n ∉ w.sv.conf.ownNames, (v.disk.fs.file (.aof n)).isSome →
          (w.disk.fs.file (.aof n)).isSome ∨ n = (madeEntry w 1).fileName := by
        have hkeeps := hpersist.keeps
        rw [tempManifest, hsv, ← hu] at hkeeps
        exact openFile_new hkeeps w.sv.conf.tempManifest_mem_own
      have hset : SameSettings w v := by
        refine ⟨?_, ?_, ?_, ?_, ?_, ?_, le_of_eq ?_⟩ <;> rw [hwritten, hsv]
      rw [if_pos rfl]
      -- the file stays where it is when what comes after it fails
      by_cases hopen : env.openNew = false
      · have hno : opensIncr env w.sv = false := by simp [opensIncr, hopen]
        rw [hno, if_neg (by simp), if_pos hopen]
        exact (Grown.refl w).mono (Nat.zero_le 1)
      · rw [if_neg hopen]
        by_cases herr : env.persist.status = .err
        · have hno : opensIncr env w.sv = false := by simp [opensIncr, herr]
          rw [hno, if_neg (by simp), if_pos herr]
          refine grown_made (v := v.onFs (·.close _)) ⟨hset.conf, hset.aofState, hset.scheduled, hset.perc, hset.minSize,
            hset.baseSize, hset.size⟩ (.inl ⟨?_, rfl⟩) hdisk hfiles
          simp only [World.onFs, World.sys, hwritten, hsv]
        · have hyes : opensIncr env w.sv = true := by
            cases hst : env.persist.status with
            | ok => simpa [opensIncr, hstate, hst] using hopen
            | err => exact absurd hst herr
          have hclose := closeOldAof_calm env.closeFsync v
          rw [hyes, if_pos rfl, if_neg herr]
          refine grown_made ?_ (.inr ⟨rfl, rfl⟩) ?_ ?_
          · exact hset.trans ⟨hclose.conf, hclose.aofState, hclose.scheduled, hclose.perc, hclose.minSize,
              hclose.baseSize, hclose.size⟩
          · exact hclose.manifest.symm ▸ hdisk
          · intro n hn hsome
            refine hfiles n hn (hclose.files n ?_ hsome)
            rwa [hset.conf]

variable [AofFormat D A δ]

/-- The file operations of the rewrite attempt `env` up to the fork succeed. -/
def attemptOpens (env : RewriteEnv) (w : World D A δ) : Bool :=
  env.dirCreate && !(flushAppendOnlyFile true env.flush (prepareRewrite w)).exited && opensIncr env.incr w.sv

/-- A rewrite attempt adds at most one file and one entry. -/
theorem rewriteAppendOnlyFileBackground_grown (env : RewriteEnv) (hchild : w.sv.childType = none) :
    Grown (if w.sv.aofState = .on then 1 else 0) (if attemptOpens env w then 1 else 0) w
      (rewriteAppendOnlyFileBackground env w).2 := by
  have hflush := (prepareRewrite_calm w).trans (flushAppendOnlyFile_calm true env.flush (prepareRewrite w))
  have hactive : hasActiveChildProcess w.sv = false := by simp [hasActiveChildProcess, hchild]
  unfold rewriteAppendOnlyFileBackground rewriteBackground attemptOpens
  simp only [hactive, Bool.false_eq_true, if_false]
  cases env.dirCreate with
  | false =>
      have hset : Calm w (w.set fun sv => { sv with aofLastbgrewriteStatus := .err }) :=
        .of_dir ⟨rfl, rfl, rfl, rfl, rfl, rfl, le_rfl⟩ rfl rfl rfl
      exact hset.grown.mono (Nat.zero_le _)
  | true =>
      simp only [Bool.not_true, Bool.false_eq_true, if_false, Bool.true_and]
      generalize flushAppendOnlyFile true env.flush (prepareRewrite w) = v at hflush
      cases v.exited with
      | true => exact hflush.grown.mono (Nat.zero_le _)
      | false =>
          have hopen := openNewIncrAofForAppend_grown env.incr v
          have hsame : opensIncr env.incr v.sv = opensIncr env.incr w.sv := by
            unfold opensIncr
            rw [hflush.aofState]
          rw [hsame, hflush.aofState] at hopen
          have hall := hflush.grown.trans hopen
          rw [Nat.zero_add, Nat.zero_add] at hall
          simp only [Bool.not_false, Bool.true_and, Bool.false_eq_true, if_false]
          generalize openNewIncrAofForAppend env.incr v = res at hall
          obtain ⟨st, u⟩ := res
          cases st with
          | err =>
              have hset : Calm u (u.set fun sv => { sv with aofLastbgrewriteStatus := .err }) :=
                .of_dir ⟨rfl, rfl, rfl, rfl, rfl, rfl, le_rfl⟩ rfl rfl rfl
              exact hall.trans hset.grown
          | ok => exact hall.trans (forkRewrite_calm u).grown

end Attempt

end WasiPorts.Redis.Aof
