import WasiPorts.Redis.Aof.RewriteLimit

/-!
# Automatic rewrites along a run

What the ticks of a run add to the AOF directory and to the manifest. The limiter lets every rewrite
through, so that is decided by the scheduled flag, by the size at which the AOF falls due for a rewrite
and by how many ticks come after it has got there.

* `run_grown` — a run adds no more than it makes attempts, and exactly as many listed INCR files as
  attempts open one.
* `flood_bounded_iff` — when the ticks of a part of a run add no more than four.
-/

namespace WasiPorts.Redis.Aof

open WasiPorts.Posix WasiPorts.Posix.Fs WasiPorts.Run

variable {D A δ : Type} [AofFormat D A δ] {w w' : World D A δ}

/-! ## One tick -/

/-- The limiter lets the attempt `env` through and its file operations succeed. -/
def limitedOpens (env : RewriteEnv) (w : World D A δ) : Bool := attemptOpens env (aofRewriteLimited w).2

/-- The rewrites that a tick attempts with the AOF on: the scheduled one, and the one for growth. -/
def tickAttempts (env : CronEnv) (w : World D A δ) : Nat :=
  let w' := cronScheduled env.scheduled w
  (if w.sv.aofRewriteScheduled ∧ w.sv.aofState = .on then 1 else 0) +
    if w'.exited = false ∧ growthDue w'.sv then 1 else 0

/-- Those of them that open a new INCR file. -/
def tickOpens (env : CronEnv) (w : World D A δ) : Nat :=
  let w' := cronScheduled env.scheduled w
  (if w.sv.aofRewriteScheduled ∧ limitedOpens env.scheduled w then 1 else 0) +
    if w'.exited = false ∧ growthDue w'.sv ∧ limitedOpens env.growth w' then 1 else 0

/-- A rewrite that falls due is attempted. -/
theorem rewriteUnlessLimited_eq (env : RewriteEnv) (h : Unfailed w) :
    rewriteUnlessLimited env w = (rewriteAppendOnlyFileBackground env (aofRewriteLimited w).2).2 := by
  have hpass := h.limited
  unfold rewriteUnlessLimited
  split
  · next heq =>
      rw [heq] at hpass
      cases hpass
  · next heq => rw [heq]

theorem rewriteUnlessLimited_grown (env : RewriteEnv) (h : Unfailed w) :
    Grown (if w.sv.aofState = .on then 1 else 0) (if limitedOpens env w then 1 else 0) w
      (rewriteUnlessLimited env w) := by
  have hlim := aofRewriteLimited_calm w
  have hchild := (aofRewriteLimited_frame w).childType.trans h.childType
  have hattempt := rewriteAppendOnlyFileBackground_grown env hchild
  rw [hlim.aofState] at hattempt
  have hall := hlim.grown.trans hattempt
  rw [Nat.zero_add, Nat.zero_add] at hall
  rw [rewriteUnlessLimited_eq env h]
  exact hall

theorem cronScheduled_grown (env : RewriteEnv) (h : Unfailed w) :
    Grown (if w.sv.aofRewriteScheduled ∧ w.sv.aofState = .on then 1 else 0)
      (if w.sv.aofRewriteScheduled ∧ limitedOpens env w then 1 else 0) w (cronScheduled env w) := by
  have hactive : hasActiveChildProcess w.sv = false := by simp [hasActiveChildProcess, h.childType]
  have hrewrite := rewriteUnlessLimited_grown env h
  unfold cronScheduled
  rw [hactive]
  cases w.sv.aofRewriteScheduled with
  | false => simpa using Grown.refl w
  | true => simpa using hrewrite

theorem cronGrowth_grown (env : RewriteEnv) (h : Unfailed w) :
    Grown (if growthDue w.sv then 1 else 0) (if growthDue w.sv ∧ limitedOpens env w then 1 else 0) w
      (cronGrowth env w) := by
  have hrewrite := rewriteUnlessLimited_grown env h
  unfold cronGrowth
  cases hdue : growthDue w.sv with
  | false => simpa using Grown.refl w
  | true =>
      have hon : w.sv.aofState = .on := by
        simp only [growthDue, Bool.and_eq_true, decide_eq_true_eq] at hdue
        exact hdue.1.1.1.1
      simpa [hon] using hrewrite

omit [AofFormat D A δ] in
theorem Calm.andThen {f : World D A δ → World D A δ} (h : ∀ w, Calm w (f w)) (w : World D A δ) :
    Calm w (w.andThen f) := by
  obtain hw | hw := w.andThen_cases f <;> rw [hw]
  · exact .refl w
  · exact h w

theorem cronPostponed_calm (env : FlushEnv) (w : World D A δ) : Calm w (cronPostponed env w) := by
  unfold cronPostponed
  split
  · exact flushAppendOnlyFile_calm false env w
  · exact .refl w

theorem cronRetry_calm (second : Bool) (env : FlushEnv) (w : World D A δ) :
    Calm w (cronRetry second env w) := by
  unfold cronRetry
  split
  · exact flushAppendOnlyFile_calm false env w
  · exact .refl w

omit [AofFormat D A δ] in
theorem countTick_calm (w : World D A δ) : Calm w (countTick w) :=
  .of_dir ⟨rfl, rfl, rfl, rfl, rfl, rfl, le_rfl⟩ rfl rfl rfl

/-- A tick adds no more than it attempts rewrites. -/
theorem serverCron_grown (env : CronEnv) (h : Unfailed w) :
    Grown (tickAttempts env w) (tickOpens env w) w (serverCron env w) := by
  have hsched := cronScheduled_grown env.scheduled h
  have hun := h.of_control (cronScheduled_control env.scheduled w)
  have hgrowth : Grown (tickAttempts env w) (tickOpens env w) w
      ((cronScheduled env.scheduled w).andThen (cronGrowth env.growth)) := by
    unfold tickAttempts tickOpens World.andThen
    dsimp only
    cases hexit : (cronScheduled env.scheduled w).exited with
    | true => simpa using hsched
    | false => simpa using hsched.trans (cronGrowth_grown env.growth hun)
  have hpostponed := Calm.andThen (cronPostponed_calm env.postponed)
    ((cronScheduled env.scheduled w).andThen (cronGrowth env.growth))
  have hretry := hpostponed.trans (Calm.andThen (cronRetry_calm env.second env.retry) _)
  have hrest := hretry.trans (Calm.andThen countTick_calm _)
  exact hgrowth.trans hrest.grown

/-! ## The other steps -/

theorem propagatePendingCommands_calm (arbitrary : Bool) (w : World D A δ) :
    Calm w (propagatePendingCommands arbitrary w) := by
  refine propagatePendingCommands_inv (I := Calm w) ?_ ?_ arbitrary (.refl w)
  · intro dictid len cmd v h
    refine h.trans ?_
    unfold propagateNow
    dsimp only
    split
    · split <;> exact .of_dir ⟨rfl, rfl, rfl, rfl, rfl, rfl, le_rfl⟩ rfl rfl rfl
    · exact .refl v
  · exact fun v h => h.trans (.of_dir ⟨rfl, rfl, rfl, rfl, rfl, rfl, le_rfl⟩ rfl rfl rfl)

theorem beforeSleep_calm (env : FlushEnv) (w : World D A δ) : Calm w (beforeSleep env w) := by
  have hflush : Calm w (flushBeforeSleep env w) := by
    unfold flushBeforeSleep
    split
    · exact .refl w
    · exact flushAppendOnlyFile_calm false env w
  refine hflush.trans (Calm.andThen (fun v => ?_) _)
  unfold updateFsyncedReploff
  split
  · exact .of_dir ⟨rfl, rfl, rfl, rfl, rfl, rfl, le_rfl⟩ rfl rfl rfl
  · exact .refl v

section Steps

variable [Commands A δ]

/-- A write command. -/
def Command.Writes : Command A → Prop
  | .write _ _ => True
  | .configAppendonly _ _ _ | .bgrewriteaof _ => False

/-- Ticks, writes, flushes and the clock, with the fsync policy that is configured. -/
def Op.InWindow : Op A → Prop
  | .command c => c.Writes
  | .exec cs => ∀ c ∈ cs, c.Writes
  | .beforeSleep _ | .serverCron _ | .clock _ | .configAppendfsync _ => True

omit [AofFormat D A δ] in
theorem foldl_writeOp_calm (ops : List (RedisOp A)) (w : World D A δ) :
    Calm w (w.set fun sv => ops.foldl writeOp sv) := by
  obtain ⟨d, q, heq⟩ := foldl_writeOp ops w.sv
  refine .of_dir ?_ ?_ rfl rfl
  · constructor <;> simp [World.set, heq]
  · simp [World.set, heq]

theorem call_calm {c : Command A} (hc : c.Writes) (w : World D A δ) : Calm w (call w c) := by
  cases c with
  | write ops arbitrary => exact foldl_writeOp_calm ops w
  | configAppendonly yes start stop => cases hc
  | bgrewriteaof env => cases hc

theorem execCommand_calm {cs : List (Command A)} (hcs : ∀ c ∈ cs, c.Writes) (w : World D A δ) :
    Calm w (execCommand cs w) := by
  have hcalls : ∀ v : World D A δ, Calm w v → Calm w (run callNext v cs) := by
    induction cs with
    | nil => exact fun v h => h
    | cons c cs ih =>
        intro v h
        refine ih (fun c hc => hcs c (List.mem_cons_of_mem _ hc)) _ (h.trans ?_)
        exact Calm.andThen (call_calm (hcs c List.mem_cons_self)) v
  have henter : Calm w (enterExec w) := .of_dir ⟨rfl, rfl, rfl, rfl, rfl, rfl, le_rfl⟩ rfl rfl rfl
  refine (hcalls _ henter).trans (Calm.andThen (fun v => ?_) _)
  have hleave : Calm v (v.set fun sv => { sv with inExec := false }) :=
    .of_dir ⟨rfl, rfl, rfl, rfl, rfl, rfl, le_rfl⟩ rfl rfl rfl
  exact hleave.trans (propagatePendingCommands_calm false _)

/-- The rewrites that a step attempts with the AOF on, and those that open a new INCR file. -/
def opAttempts (w : World D A δ) : Op A → Nat
  | .serverCron env => if w.exited then 0 else tickAttempts env w
  | _ => 0

def opOpens (w : World D A δ) : Op A → Nat
  | .serverCron env => if w.exited then 0 else tickOpens env w
  | _ => 0

/-- Only a tick adds anything. -/
theorem step_grown {op : Op A} (hop : op.InWindow) (h : Unfailed w) :
    Grown (opAttempts w op) (opOpens w op) w (step w op) := by
  cases op with
  | serverCron env =>
      unfold step World.andThen opAttempts opOpens
      cases w.exited with
      | true => exact .refl w
      | false => exact serverCron_grown env h
  | command c =>
      refine (Calm.andThen (fun v => ?_) w).grown
      exact (call_calm hop v).trans (Calm.andThen (propagatePendingCommands_calm c.arbitrary) _)
  | exec cs => exact (Calm.andThen (execCommand_calm hop) w).grown
  | beforeSleep env => exact (Calm.andThen (beforeSleep_calm env) w).grown
  | clock ms =>
      refine (Calm.andThen (fun v => ?_) w).grown
      exact .of_dir ⟨rfl, rfl, rfl, rfl, rfl, rfl, le_rfl⟩ rfl rfl rfl
  | configAppendfsync policy =>
      refine (Calm.andThen (fun v => ?_) w).grown
      exact .of_dir ⟨rfl, rfl, rfl, rfl, rfl, rfl, le_rfl⟩ rfl rfl rfl

/-- The rewrites that the ticks of a run attempt with the AOF on. -/
def attempts : World D A δ → List (Op A) → Nat
  | _, [] => 0
  | w, op :: ops => opAttempts w op + attempts (step w op) ops

/-- Those of them that open a new INCR file. -/
def opens : World D A δ → List (Op A) → Nat
  | _, [] => 0
  | w, op :: ops => opOpens w op + opens (step w op) ops

/-- A run adds no more than its ticks attempt rewrites. -/
theorem run_grown {ops : List (Op A)} (hops : ∀ op ∈ ops, op.InWindow) (h : Unfailed w) :
    Grown (attempts w ops) (opens w ops) w (run step w ops) := by
  induction ops generalizing w with
  | nil => exact .refl w
  | cons op ops ih =>
      have hstep := step_grown (hops op List.mem_cons_self) h
      exact hstep.trans (ih (fun o ho => hops o (List.mem_cons_of_mem _ ho)) (step_unfailed w op h))

theorem running_of_run {ops : List (Op A)} (h : (run step w ops).exited = false) : w.exited = false := by
  induction ops generalizing w with
  | nil => exact h
  | cons op ops ih => exact (andThen_exited (ih h)).1

end Steps

/-! ## When the AOF falls due -/

/-- The size from which on `serverCron` rewrites the AOF because it has grown. -/
def growthLimit (sv : Server D A δ) : Nat :=
  let base := if sv.aofRewriteBaseSize = 0 then 1 else sv.aofRewriteBaseSize
  max (sv.aofRewriteMinSize + 1) (((sv.aofRewritePerc + 100) * base + 99) / 100)

omit [AofFormat D A δ] in
theorem growthDue_iff {sv : Server D A δ} (hchild : sv.childType = none) :
    growthDue sv ↔ sv.aofState = .on ∧ sv.aofRewritePerc ≠ 0 ∧ growthLimit sv ≤ sv.aofCurrentSize := by
  unfold growthDue growthLimit
  simp only [hasActiveChildProcess, hchild, Bool.and_eq_true, decide_eq_true_eq, Option.isSome_none, Bool.not_false,
    and_true, and_assoc]
  refine and_congr_right fun _ => and_congr_right fun _ => ?_
  generalize hbase : (if sv.aofRewriteBaseSize = 0 then 1 else sv.aofRewriteBaseSize) = base
  have hpos : 0 < base := by
    rw [← hbase]
    split <;> omega
  -- the percentage is compared without its fraction
  have hgrowth : (sv.aofRewritePerc : Int) ≤ (sv.aofCurrentSize * 100 / base : Nat) - 100 ↔
      (sv.aofRewritePerc + 100) * base ≤ sv.aofCurrentSize * 100 := by
    rw [← Nat.le_div_iff_mul_le hpos]
    omega
  rw [hgrowth]
  generalize (sv.aofRewritePerc + 100) * base = x
  omega

/-- The size of the AOF when a tick compares it: a scheduled rewrite has flushed by then. -/
def sizeAtCheck (env : CronEnv) (sv : Server D A δ) : Nat :=
  sv.aofCurrentSize +
    if sv.aofRewriteScheduled ∧ env.scheduled.dirCreate then flushStores env.scheduled.flush sv else 0

/-- The step is a tick that finds the AOF at its limit. -/
def atLimit (sv : Server D A δ) : Op A → Bool
  | .serverCron env => decide (sv.aofRewritePerc ≠ 0) && decide (growthLimit sv ≤ sizeAtCheck env sv)
  | _ => false

omit [AofFormat D A δ] in
theorem openNewIncrAofForAppend_size (env : OpenIncrEnv) (w : World D A δ) :
    (openNewIncrAofForAppend env w).2.sv.aofCurrentSize = w.sv.aofCurrentSize := by
  have hswitch : ∀ ok fd am (v : World D A δ),
      (switchIncr ok fd am v).sv.aofCurrentSize = v.sv.aofCurrentSize := by
    intro ok fd am v
    unfold switchIncr closeOldAof bioAofFsync
    cases v.sv.aofFd with
    | none => rfl
    | some fd => cases ok <;> rfl
  cases hstate : w.sv.aofState with
  | off =>
      unfold openNewIncrAofForAppend
      rw [hstate]
  | waitRewrite =>
      rw [openNewIncrAofForAppend_wait env hstate]
      dsimp only
      split
      · rfl
      · rw [hswitch]
        rfl
  | on =>
      rw [openNewIncrAofForAppend_on env hstate]
      dsimp only
      have hwritten : ∀ xs (v : World D A δ),
          (writeAofManifestFile env.persist xs v).sv.aofCurrentSize = v.sv.aofCurrentSize := by
        intro xs v
        rw [writeAofManifestFile_sv]
      split
      · rfl
      · split
        · exact hwritten _ _
        · rw [hswitch, hwritten]
          rfl

theorem rewriteAppendOnlyFileBackground_size (env : RewriteEnv) (hchild : w.sv.childType = none)
    (hexit : (rewriteAppendOnlyFileBackground env w).2.exited = false) :
    (rewriteAppendOnlyFileBackground env w).2.sv.aofCurrentSize =
      w.sv.aofCurrentSize + if env.dirCreate then flushStores env.flush w.sv else 0 := by
  have hactive : hasActiveChildProcess w.sv = false := by simp [hasActiveChildProcess, hchild]
  have hflush := flushAppendOnlyFile_size env.flush (prepareRewrite w)
  unfold rewriteAppendOnlyFileBackground rewriteBackground at hexit ⊢
  simp only [hactive, Bool.false_eq_true, if_false] at hexit ⊢
  cases hdir : env.dirCreate with
  | false => rfl
  | true =>
      simp only [hdir, Bool.not_true, Bool.false_eq_true, if_false, if_true] at hexit ⊢
      generalize flushAppendOnlyFile true env.flush (prepareRewrite w) = v at hexit hflush
      cases hrun : v.exited with
      | true =>
          rw [hrun, if_pos rfl, hrun] at hexit
          cases hexit
      | false =>
          have hopen := openNewIncrAofForAppend_size env.incr v
          rw [hflush hrun] at hopen
          simp only [Bool.false_eq_true, if_false]
          generalize openNewIncrAofForAppend env.incr v = res at hopen
          obtain ⟨st, u⟩ := res
          cases st with
          | err => exact hopen
          | ok =>
              refine Eq.trans ?_ hopen
              unfold forkRewrite redisFork
              dsimp only
              split <;> rfl

theorem cronScheduled_size (env : CronEnv) (h : Unfailed w)
    (hexit : (cronScheduled env.scheduled w).exited = false) :
    (cronScheduled env.scheduled w).sv.aofCurrentSize = sizeAtCheck env w.sv := by
  have hactive : hasActiveChildProcess w.sv = false := by simp [hasActiveChildProcess, h.childType]
  have hchild := (aofRewriteLimited_frame w).childType.trans h.childType
  have hsize := rewriteAppendOnlyFileBackground_size env.scheduled hchild
  have hstores : flushStores env.scheduled.flush (aofRewriteLimited w).2.sv = flushStores env.scheduled.flush w.sv ∧
      (aofRewriteLimited w).2.sv.aofCurrentSize = w.sv.aofCurrentSize := by
    unfold aofRewriteLimited
    simp [h.failures, aofRewriteLimiteThreshold, World.set, flushStores]
  rw [hstores.1, hstores.2] at hsize
  unfold cronScheduled sizeAtCheck at *
  rw [hactive] at hexit ⊢
  cases hsched : w.sv.aofRewriteScheduled with
  | false => simp
  | true =>
      simp only [hsched, Bool.not_false, Bool.and_self, if_true, rewriteUnlessLimited_eq env.scheduled h] at hexit ⊢
      simpa using hsize hexit

omit [AofFormat D A δ] in
/-- The limit is one of the settings. -/
theorem SameSettings.growthLimit {w w' : World D A δ} (h : SameSettings w w') :
    growthLimit w'.sv = growthLimit w.sv := by
  unfold Aof.growthLimit
  rw [h.baseSize, h.minSize, h.perc]

/-- A tick attempts the scheduled rewrite, and the other one if it finds the AOF at its limit. -/
theorem tickAttempts_eq (env : CronEnv) (h : Unfailed w) (hon : w.sv.aofState = .on)
    (hexit : (cronScheduled env.scheduled w).exited = false) :
    tickAttempts env w =
      (if w.sv.aofRewriteScheduled then 1 else 0) + if atLimit w.sv (.serverCron env : Op A) then 1 else 0 := by
  have hsched := cronScheduled_grown env.scheduled h
  have hun := h.of_control (cronScheduled_control env.scheduled w)
  have hsize := cronScheduled_size env h hexit
  unfold tickAttempts atLimit
  dsimp only
  simp only [growthDue_iff hun.childType, hsched.aofState, hsched.perc, hsched.toSameSettings.growthLimit, hsize,
    hexit, hon, true_and, and_true, Bool.and_eq_true, decide_eq_true_eq]

theorem tickAttempts_le (env : CronEnv) (h : Unfailed w) (hon : w.sv.aofState = .on) :
    tickAttempts env w ≤
      (if w.sv.aofRewriteScheduled then 1 else 0) + if atLimit w.sv (.serverCron env : Op A) then 1 else 0 := by
  cases hexit : (cronScheduled env.scheduled w).exited with
  | false => exact (tickAttempts_eq env h hon hexit).le
  | true => simp [tickAttempts, hexit, hon]

/-! ## The ticks of a run -/

/-- The ticks among the steps. -/
def ticks : List (Op A) → Nat
  | [] => 0
  | .serverCron _ :: ops => ticks ops + 1
  | _ :: ops => ticks ops

/-- Those that come with a rewrite scheduled. -/
def scheduledTicks (sv : Server D A δ) (ops : List (Op A)) : Nat :=
  if sv.aofRewriteScheduled then ticks ops else 0

omit [AofFormat D A δ] in
theorem ticks_cons (op : Op A) (ops : List (Op A)) : ticks (op :: ops) = ticks [op] + ticks ops := by
  cases op <;> simp [ticks, Nat.add_comm]

omit [AofFormat D A δ] in
theorem scheduledTicks_cons (sv : Server D A δ) (op : Op A) (ops : List (Op A)) :
    scheduledTicks sv (op :: ops) = scheduledTicks sv [op] + scheduledTicks sv ops := by
  unfold scheduledTicks
  split
  · exact ticks_cons op ops
  · rfl

omit [AofFormat D A δ] in
theorem SameSettings.scheduledTicks {w w' : World D A δ} (h : SameSettings w w') (ops : List (Op A)) :
    scheduledTicks w'.sv ops = scheduledTicks w.sv ops := by
  unfold Aof.scheduledTicks
  rw [h.scheduled]

omit [AofFormat D A δ] in
theorem atLimit_tick {sv : Server D A δ} {op : Op A} (h : atLimit sv op) : ticks [op] = 1 := by
  cases op with
  | serverCron env => rfl
  | _ => cases h

section Runs

variable [Commands A δ]

/-- The ticks of a run from the first one on that finds the AOF at its limit. -/
def ticksFromLimit : World D A δ → List (Op A) → Nat
  | _, [] => 0
  | w, op :: ops => if atLimit w.sv op then ticks (op :: ops) else ticksFromLimit (step w op) ops

/-- With the AOF on, no more than `AOF_REWRITE_LIMITE_THRESHOLD + 1` ticks come with a rewrite scheduled
or with the AOF at its limit, counting twice those that come with both. -/
def RewritesBounded (w : World D A δ) (window : List (Op A)) : Prop :=
  w.sv.aofState = .on →
    scheduledTicks w.sv window + ticksFromLimit w window ≤
      aofRewriteLimiteThreshold + 1

instance (w : World D A δ) (window : List (Op A)) : Decidable (RewritesBounded w window) :=
  inferInstanceAs (Decidable (_ → _))

omit [Commands A δ] in
/-- A step attempts a scheduled rewrite if it is a tick, and one more at the limit. -/
theorem opAttempts_le (op : Op A) (h : Unfailed w) (hon : w.sv.aofState = .on) :
    opAttempts w op ≤ scheduledTicks w.sv [op] + if atLimit w.sv op then 1 else 0 := by
  cases op with
  | serverCron env =>
      unfold opAttempts
      cases w.exited with
      | true => exact Nat.zero_le _
      | false => exact tickAttempts_le env h hon
  | _ => exact Nat.zero_le _

theorem opAttempts_eq (op : Op A) (h : Unfailed w) (hon : w.sv.aofState = .on)
    (hexit : (step w op).exited = false) :
    opAttempts w op = scheduledTicks w.sv [op] + if atLimit w.sv op then 1 else 0 := by
  cases op with
  | serverCron env =>
      have hrun := (andThen_exited hexit).1
      have hcron : (serverCron env w).exited = false := by
        unfold step at hexit
        rwa [World.andThen_running hrun] at hexit
      have hsched : (cronScheduled env.scheduled w).exited = false :=
        (andThen_exited (andThen_exited (andThen_exited (andThen_exited hcron).1).1).1).1
      have htick := tickAttempts_eq (A := A) env h hon hsched
      simpa [opAttempts, scheduledTicks, ticks, hrun] using htick
  | _ => simp [opAttempts, scheduledTicks, ticks, atLimit]

/-- At the limit, the AOF stays there. -/
theorem step_atLimit {op : Op A} (h : Unfailed w) (hat : atLimit w.sv op) (hexit : (step w op).exited = false) :
    w.sv.aofRewritePerc ≠ 0 ∧ growthLimit (step w op).sv ≤ (step w op).sv.aofCurrentSize := by
  cases op with
  | serverCron env =>
      have hrun := (andThen_exited hexit).1
      have hstep : step w (.serverCron env) = serverCron env w := by
        unfold step
        rw [World.andThen_running hrun]
      rw [hstep] at hexit ⊢
      obtain ⟨hgrowth, hgrowthEq⟩ := andThen_exited (andThen_exited (andThen_exited (andThen_exited hexit).1).1).1
      have hsettings := (serverCron_grown env h).toSameSettings.growthLimit
      have hun := h.of_control (cronScheduled_control env.scheduled w)
      -- from the comparison on, the AOF does not shrink
      have hpostponed := Calm.andThen (cronPostponed_calm env.postponed)
        ((cronScheduled env.scheduled w).andThen (cronGrowth env.growth))
      have hretry := hpostponed.trans (Calm.andThen (cronRetry_calm env.second env.retry) _)
      have hrest := hretry.trans (Calm.andThen countTick_calm _)
      have hgrown := cronGrowth_grown env.growth hun
      rw [← hgrowthEq] at hgrown
      have hsize := hgrown.size.trans hrest.size
      rw [cronScheduled_size env h hgrowth] at hsize
      simp only [atLimit, Bool.and_eq_true, decide_eq_true_eq] at hat
      exact ⟨hat.1, hsettings ▸ hat.2.trans hsize⟩
  | _ => cases hat

/-- Two rewrites at most are attempted in a tick. -/
theorem attempts_le_ticks {ops : List (Op A)} (hops : ∀ op ∈ ops, op.InWindow) (h : Unfailed w)
    (hon : w.sv.aofState = .on) :
    attempts w ops ≤ scheduledTicks w.sv ops + ticks ops := by
  induction ops generalizing w with
  | nil => exact Nat.zero_le _
  | cons op ops ih =>
      have hstep := step_grown (hops op List.mem_cons_self) h
      have hrest := ih (fun o ho => hops o (List.mem_cons_of_mem _ ho)) (step_unfailed w op h)
        (hstep.aofState.trans hon)
      have hop := opAttempts_le op h hon
      have hlimit : (if atLimit w.sv op then 1 else 0) ≤ ticks [op] := by
        split
        · next hat => exact (atLimit_tick hat).ge
        · exact Nat.zero_le _
      rw [hstep.toSameSettings.scheduledTicks] at hrest
      rw [attempts, ticks_cons, scheduledTicks_cons]
      omega

/-- With the AOF at its limit, every tick attempts the rewrite for growth. -/
theorem attempts_reached {ops : List (Op A)} (hops : ∀ op ∈ ops, op.InWindow) (h : Unfailed w)
    (hon : w.sv.aofState = .on) (hperc : w.sv.aofRewritePerc ≠ 0)
    (hreached : growthLimit w.sv ≤ w.sv.aofCurrentSize) (hexit : (run step w ops).exited = false) :
    attempts w ops = scheduledTicks w.sv ops + ticks ops := by
  induction ops generalizing w with
  | nil => simp [attempts, scheduledTicks, ticks]
  | cons op ops ih =>
      have hstep := step_grown (hops op List.mem_cons_self) h
      have hrest := ih (fun o ho => hops o (List.mem_cons_of_mem _ ho)) (step_unfailed w op h)
        (hstep.aofState.trans hon) (hstep.perc ▸ hperc)
        (hstep.toSameSettings.growthLimit ▸ hreached.trans hstep.size) hexit
      have hop := opAttempts_eq op h hon (running_of_run hexit)
      have hlimit : (if atLimit w.sv op then 1 else 0) = ticks [op] := by
        cases op with
        | serverCron env =>
            have hat : atLimit w.sv (.serverCron env : Op A) := by
              simp only [atLimit, Bool.and_eq_true, decide_eq_true_eq]
              exact ⟨hperc, hreached.trans (Nat.le_add_right _ _)⟩
            rw [if_pos hat]
            rfl
        | _ => rfl
      rw [hstep.toSameSettings.scheduledTicks] at hrest
      rw [attempts, ticks_cons, scheduledTicks_cons]
      omega

/-- No more rewrites are attempted than the condition counts. -/
theorem attempts_le {ops : List (Op A)} (hops : ∀ op ∈ ops, op.InWindow) (h : Unfailed w)
    (hon : w.sv.aofState = .on) :
    attempts w ops ≤ scheduledTicks w.sv ops + ticksFromLimit w ops := by
  induction ops generalizing w with
  | nil => exact Nat.zero_le _
  | cons op ops ih =>
      have hstep := step_grown (hops op List.mem_cons_self) h
      have hrest := ih (fun o ho => hops o (List.mem_cons_of_mem _ ho)) (step_unfailed w op h)
        (hstep.aofState.trans hon)
      have hop := opAttempts_le op h hon
      rw [ticksFromLimit]
      split
      · exact attempts_le_ticks hops h hon
      · next hat =>
          rw [if_neg hat] at hop
          rw [hstep.toSameSettings.scheduledTicks] at hrest
          rw [attempts, scheduledTicks_cons]
          omega

/-- As long as the process runs, as many are. -/
theorem attempts_eq {ops : List (Op A)} (hops : ∀ op ∈ ops, op.InWindow) (h : Unfailed w)
    (hon : w.sv.aofState = .on) (hexit : (run step w ops).exited = false) :
    attempts w ops = scheduledTicks w.sv ops + ticksFromLimit w ops := by
  induction ops generalizing w with
  | nil => simp [attempts, scheduledTicks, ticks, ticksFromLimit]
  | cons op ops ih =>
      have hops' := fun o ho => hops o (List.mem_cons_of_mem op ho)
      have hstep := step_grown (hops op List.mem_cons_self) h
      have hun := step_unfailed w op h
      have hon' := hstep.aofState.trans hon
      have hop := opAttempts_eq op h hon (running_of_run hexit)
      rw [ticksFromLimit, attempts, scheduledTicks_cons]
      split
      · next hat =>
          obtain ⟨hperc, hreached⟩ := step_atLimit h hat (running_of_run hexit)
          have hrest := attempts_reached hops' hun hon' (hstep.perc ▸ hperc) hreached hexit
          rw [if_pos hat, ← atLimit_tick hat] at hop
          rw [hstep.toSameSettings.scheduledTicks] at hrest
          rw [ticks_cons]
          omega
      · next hat =>
          have hrest := ih hops' hun hon' hexit
          rw [if_neg hat] at hop
          rw [hstep.toSameSettings.scheduledTicks] at hrest
          omega

/-- With the AOF off, none is. -/
theorem attempts_off {ops : List (Op A)} (hops : ∀ op ∈ ops, op.InWindow) (h : Unfailed w)
    (hoff : w.sv.aofState ≠ .on) : attempts w ops = 0 := by
  induction ops generalizing w with
  | nil => rfl
  | cons op ops ih =>
      have hstep := step_grown (hops op List.mem_cons_self) h
      have hrest := ih (fun o ho => hops o (List.mem_cons_of_mem _ ho)) (step_unfailed w op h)
        (hstep.aofState ▸ hoff)
      rw [attempts, hrest]
      cases op with
      | serverCron env =>
          have hsched := cronScheduled_grown env.scheduled h
          have hdue : growthDue (cronScheduled env.scheduled w).sv = false := by
            simp [growthDue, hsched.aofState, hoff]
          simp [opAttempts, tickAttempts, hoff, hdue]
      | _ => rfl

end Runs

/-! ## Attempts that get as far as the fork -/

/-- The file operations of a rewrite attempt succeed, but for its flush. -/
def RewriteEnv.Opens (env : RewriteEnv) : Prop :=
  env.dirCreate = true ∧ env.incr.openNew = true ∧ env.incr.persist.status = .ok

def Op.Opens : Op A → Prop
  | .serverCron env => env.scheduled.Opens ∧ env.growth.Opens
  | _ => True

theorem limitedOpens_of {env : RewriteEnv} (henv : env.Opens) (h : Unfailed w) (hon : w.sv.aofState = .on)
    (hexit : (rewriteUnlessLimited env w).exited = false) : limitedOpens env w := by
  obtain ⟨hdir, hopen, hpersist⟩ := henv
  have hcalm := aofRewriteLimited_calm w
  have hchild := (aofRewriteLimited_frame w).childType.trans h.childType
  rw [rewriteUnlessLimited_eq env h] at hexit
  unfold limitedOpens attemptOpens opensIncr
  generalize (aofRewriteLimited w).2 = v at *
  have hactive : hasActiveChildProcess v.sv = false := by simp [hasActiveChildProcess, hchild]
  have hrun : (flushAppendOnlyFile true env.flush (prepareRewrite v)).exited = false := by
    unfold rewriteAppendOnlyFileBackground rewriteBackground at hexit
    simp only [hactive, hdir, Bool.not_true, Bool.false_eq_true, if_false] at hexit
    split at hexit
    · exact hexit
    · next hrun => simpa using hrun
  simp [hdir, hrun, hcalm.aofState, hon, hopen, hpersist]

/-- Every attempt of a tick opens a new INCR file, unless the process ends. -/
theorem tickOpens_eq {env : CronEnv} (hsched : env.scheduled.Opens) (hgrowth : env.growth.Opens) (h : Unfailed w)
    (hexit : (serverCron env w).exited = false) : tickOpens env w = tickAttempts env w := by
  obtain ⟨hrun, heq⟩ := andThen_exited (andThen_exited (andThen_exited (andThen_exited hexit).1).1).1
  have hun := h.of_control (cronScheduled_control env.scheduled w)
  have hnext : (cronGrowth env.growth (cronScheduled env.scheduled w)).exited = false :=
    heq ▸ (andThen_exited (andThen_exited (andThen_exited hexit).1).1).1
  have hfirst : (w.sv.aofRewriteScheduled ∧ limitedOpens env.scheduled w) ↔
      (w.sv.aofRewriteScheduled ∧ w.sv.aofState = .on) := by
    refine and_congr_right fun hdue => ⟨fun hopens => ?_, fun hon => ?_⟩
    · simp only [limitedOpens, attemptOpens, opensIncr, Bool.and_eq_true, decide_eq_true_eq] at hopens
      exact (aofRewriteLimited_calm w).aofState ▸ hopens.2.1.1
    · refine limitedOpens_of hsched h hon ?_
      simpa [cronScheduled, hasActiveChildProcess, h.childType, hdue] using hrun
  have hsecond : (growthDue (cronScheduled env.scheduled w).sv ∧
      limitedOpens env.growth (cronScheduled env.scheduled w)) ↔ growthDue (cronScheduled env.scheduled w).sv := by
    refine and_iff_left_of_imp fun hdue => limitedOpens_of hgrowth hun ?_ ?_
    · exact ((growthDue_iff hun.childType).mp hdue).1
    · simpa [cronGrowth, hdue] using hnext
  simp only [tickOpens, tickAttempts, hfirst, hsecond]

section Runs

variable [Commands A δ]

theorem opens_eq_attempts {ops : List (Op A)} (hopens : ∀ op ∈ ops, op.Opens) (h : Unfailed w)
    (hexit : (run step w ops).exited = false) : opens w ops = attempts w ops := by
  induction ops generalizing w with
  | nil => rfl
  | cons op ops ih =>
      have hrest := ih (fun o ho => hopens o (List.mem_cons_of_mem _ ho)) (step_unfailed w op h) hexit
      rw [opens, attempts, hrest]
      cases op with
      | serverCron env =>
          have hstep : (step w (.serverCron env)).exited = false := running_of_run hexit
          have hrun := (andThen_exited hstep).1
          have hcron : (serverCron env w).exited = false := by
            unfold step at hstep
            rwa [World.andThen_running hrun] at hstep
          obtain ⟨hsched, hgrowth⟩ := hopens _ List.mem_cons_self
          simp [opOpens, opAttempts, hrun, tickOpens_eq hsched hgrowth h hcron]
      | _ => rfl

/-- **When the AOF directory is not flooded.** After every run, and over every part of it with ticks,
writes and flushes only: if no more than `AOF_REWRITE_LIMITE_THRESHOLD + 1` ticks come with a rewrite
scheduled or with the AOF at its limit, then no more INCR files and manifest entries are added than that;
and if more come, more are, unless file operations fail or the process ends. The limiter plays no part. -/
theorem flood_bounded_iff (c : StartConf δ) (env : BootEnv) (dk : Disk D) (before window : List (Op A))
    (hwindow : ∀ op ∈ window, op.InWindow) {w w' : World D A δ} (hw : w = run step (serverStart c env dk) before)
    (hw' : w' = run step w window) :
    (RewritesBounded w window → GrowsBy (aofRewriteLimiteThreshold + 1) w w') ∧
      ((∀ op ∈ window, op.Opens) → w'.exited = false →
        (GrowsBy (aofRewriteLimiteThreshold + 1) w w' ↔ RewritesBounded w window)) := by
  have hun : Unfailed w := hw ▸ (always_unfailed c env dk before).last
  have hgrown := run_grown hwindow hun
  rw [← hw'] at hgrown
  have hbounded : RewritesBounded w window → GrowsBy (aofRewriteLimiteThreshold + 1) w w' := by
    intro hticks
    by_cases hon : w.sv.aofState = .on
    · exact (hgrown.mono ((attempts_le hwindow hun hon).trans (hticks hon))).growsBy
    · rw [attempts_off hwindow hun hon] at hgrown
      exact (hgrown.mono (Nat.zero_le _)).growsBy
  refine ⟨hbounded, fun hopens hexit => ⟨fun hgrows hon => ?_, hbounded⟩⟩
  have hlisted := hgrows.listed
  rw [hgrown.count, opens_eq_attempts hopens hun (hw' ▸ hexit), attempts_eq hwindow hun hon (hw' ▸ hexit)] at hlisted
  omega

/-- A rewrite is scheduled, and three ticks follow. -/
theorem flood_bounded_scheduled :
    GrowsBy (aofRewriteLimiteThreshold + 1) (run step (firstStart true) [.exec [.bgrewriteaof .success]])
      (run step (run step (firstStart true) [.exec [.bgrewriteaof .success]])
        (List.replicate 3 (.serverCron .success))) := by
  refine (flood_bounded_iff (defaultStart true) .success .blank [.exec [.bgrewriteaof .success]]
    (List.replicate 3 (.serverCron .success)) ?_ rfl rfl).1 ?_
  · intro op hop
    rw [List.eq_of_mem_replicate hop]
    trivial
  · decide +kernel

/-- After a `BGREWRITEAOF` inside `EXEC`, five ticks within the same second add five INCR files. -/
theorem scheduled_rewrite_floods :
    Always step (fun w => w.sv.unixtime = 0)
        (run step (firstStart true) [.exec [.bgrewriteaof .success]])
        (List.replicate 5 (.serverCron .success)) ∧
      ¬ GrowsBy (aofRewriteLimiteThreshold + 1) (run step (firstStart true) [.exec [.bgrewriteaof .success]])
        (run step (run step (firstStart true) [.exec [.bgrewriteaof .success]])
          (List.replicate 5 (.serverCron .success))) := by
  refine ⟨by decide +kernel, fun hgrows => ?_⟩
  have hmore : ¬ incrCount (run step (run step (firstStart true) [.exec [.bgrewriteaof .success]])
      (List.replicate 5 (.serverCron .success))) ≤
        incrCount (run step (firstStart true) [.exec [.bgrewriteaof .success]]) +
          (aofRewriteLimiteThreshold + 1) := by
    decide +kernel
  exact hmore hgrows.listed

end Runs

end WasiPorts.Redis.Aof
