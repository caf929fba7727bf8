import WasiPorts.Redis.Aof.Startup

/-!
# An acknowledged enable takes effect

`CONFIG SET appendonly yes` is acknowledged when `startAppendOnly` returns `C_OK`. Outside `EXEC`
this happens only after the synchronous rewrite, with the AOF on. Inside `EXEC` it schedules a
background rewrite instead, which on WASI never succeeds: the state stays `AOF_WAIT_REWRITE`, and
`feedAppendOnlyFile` drops what it is given.

* `AckedTakesEffect` — from the first complete tick after an acknowledged enable, the AOF is on
  and every command fed is appended to `aof_buf`.
* `acked_enable_takes_effect` — it holds throughout every run that never enables the AOF inside
  `EXEC`.
-/

namespace WasiPorts.Redis.Aof

open WasiPorts.Run

variable {D A δ : Type} [AofFormat D A δ]

/-- The records that `feedAppendOnlyFile` may put before a command. -/
def Rec.Leads : Rec A δ → Prop
  | .timestamp | .select _ => True
  | _ => False

/-- The call has left in `aof_buf` what was there before, followed by the command. -/
def FeedEvent.Appended (e : FeedEvent D A δ) : Prop :=
  ∃ rs : List (Rec A δ), (∀ r ∈ rs, r.Leads) ∧
    e.after = e.before ++ (rs ++ [e.cmd]).flatMap AofFormat.enc

/-- The AOF is on from the first complete tick after an acknowledged enable until the next
disable, and every command fed in that time was appended to `aof_buf`. -/
def AckedTakesEffect (w : World D A δ) : Prop :=
  (∀ n, w.ackTicks = some (n + 1) → w.sv.aofState = .on) ∧
    ∀ e ∈ w.feeds, ∀ n, e.ackTicks = some (n + 1) → e.Appended

/-- The command makes `updateAppendonly` call `startAppendOnly`. -/
def Enables (w : World D A δ) (c : Command A) : Prop :=
  w.sv.aofEnabled = false ∧ w.sv.aofState = .off ∧ ∃ start stop, c = .configAppendonly true start stop

/-- The invariant, inside and outside `EXEC`: the AOF is on or off, and on since an acknowledged
enable. -/
structure Acked (inExec : Bool) (w : World D A δ) : Prop where
  inExec : w.sv.inExec = inExec
  childType : w.sv.childType = none
  aofState : w.sv.aofState ≠ .waitRewrite
  on : w.ackTicks ≠ none → w.sv.aofState = .on
  appended : ∀ e ∈ w.feeds, e.ackTicks ≠ none → e.Appended

variable {w w' : World D A δ} {b : Bool}

theorem Acked.effect (h : Acked b w) : AckedTakesEffect w := by
  constructor
  · intro n hn
    exact h.on (by simp [hn])
  · intro e he n hn
    exact h.appended e he (by simp [hn])

theorem Acked.of_control (h : Acked b w) (hw : Control w w') : Acked b w' := by
  constructor
  · rw [hw.inExec]
    exact h.inExec
  · rw [hw.childType]
    exact h.childType
  · rw [hw.aofState]
    exact h.aofState
  · rw [hw.ackTicks, hw.aofState]
    exact h.on
  · rw [hw.feeds]
    exact h.appended

/-- The invariant looks at nothing else. -/
theorem Acked.of_eq (h : Acked b w) {b' : Bool} (hexec : w'.sv.inExec = b')
    (hchild : w'.sv.childType = w.sv.childType) (hstate : w'.sv.aofState = w.sv.aofState)
    (hack : w'.ackTicks = w.ackTicks) (hfeeds : w'.feeds = w.feeds) : Acked b' w' :=
  ⟨hexec, hchild ▸ h.childType, hstate ▸ h.aofState, hack ▸ hstate ▸ h.on, hfeeds ▸ h.appended⟩

/-! ## Commands -/

/-- Where `feedAppendOnlyFile` keeps what it made, the command is the last of it. -/
theorem feedAppendOnlyFile_appended (dictid : Option Nat) (cmd : Rec A δ)
    (h : feedAppends w.sv = true) :
    FeedEvent.Appended ⟨cmd, w.sv.aofBuf, (feedAppendOnlyFile dictid cmd w).sv.aofBuf, w.ackTicks⟩ := by
  refine ⟨(if timestampNeeded w.sv then [.timestamp] else []) ++
    (if selectNeeded w.sv dictid then [.select (dictid.getD 0)] else []), ?_, ?_⟩
  · intro r hr
    rcases List.mem_append.mp hr with hr | hr
    · split at hr
      · rw [List.mem_singleton.mp hr]
        trivial
      · cases hr
    · split at hr
      · rw [List.mem_singleton.mp hr]
        trivial
      · cases hr
  · show (if feedAppends w.sv then _ else _) = _
    rw [if_pos h]
    rfl

theorem feedAppendOnlyFile_acked (dictid : Option Nat) (cmd : Rec A δ) (h : Acked b w) :
    Acked b (feedAppendOnlyFile dictid cmd w) := by
  refine ⟨h.inExec, h.childType, h.aofState, h.on, ?_⟩
  intro e he hne
  rcases List.mem_append.mp he with he | he
  · exact h.appended e he hne
  · rw [List.mem_singleton.mp he] at hne ⊢
    exact feedAppendOnlyFile_appended dictid cmd (by simp [feedAppends, h.on hne])

theorem propagateNow_acked (dictid : Option Nat) (len : Nat) (cmd : Nat → Rec A δ) (h : Acked b w) :
    Acked b (propagateNow dictid len cmd w) := by
  unfold propagateNow
  dsimp only
  split
  · split
    · exact (feedAppendOnlyFile_acked dictid _ h).of_eq h.inExec rfl rfl rfl rfl
    · exact h.of_eq h.inExec rfl rfl rfl rfl
  · exact h

theorem propagatePendingCommands_acked (arbitrary : Bool) (h : Acked b w) :
    Acked b (propagatePendingCommands arbitrary w) := by
  refine propagatePendingCommands_inv ?_ ?_ arbitrary h
  · intro dictid len cmd w h
    exact propagateNow_acked dictid len cmd h
  · intro w h
    exact h.of_eq h.inExec rfl rfl rfl rfl

theorem stopAppendOnly_acked (env : StopEnv) (h : Acked b w) : Acked b (stopAppendOnly env w) := by
  have hflush := flushAppendOnlyFile_frame true env.flush w
  have hclose := hflush.trans (closeAof_frame env.fsync _)
  unfold stopAppendOnly
  dsimp only
  split
  · exact h.of_control hflush.toControl
  · refine ⟨?_, ?_, nofun, fun hne => absurd rfl hne, ?_⟩
    · exact hclose.inExec.trans h.inExec
    · exact hclose.childType.trans h.childType
    · intro e he
      exact h.appended e (hclose.feeds ▸ he)

/-- Outside `EXEC`, an enable is acknowledged with the AOF on. -/
theorem startAppendOnly_acked (env : StartEnv) (h : Acked false w)
    (hoff : w.sv.aofState = .off) : Acked false (startAppendOnly env w).2 := by
  have hack : w.ackTicks = none := by
    by_contra hne
    simp [h.on hne] at hoff
  obtain ⟨hsteady, hstate, -⟩ :=
    startSync_switched env (w.set fun sv => { sv with aofState := .waitRewrite })
  rw [startAppendOnly_eq env h.childType h.inExec]
  split
  · next w' hres =>
      rw [hres] at hsteady hstate
      have hoff' : w'.sv.aofState = .off := hstate
      refine ⟨hsteady.inExec.trans h.inExec, hsteady.childType.trans h.childType,
        by simp [hoff'], ?_, ?_⟩
      · exact fun hne => absurd (hsteady.ackTicks.trans hack) hne
      · exact fun e he => h.appended e (hsteady.feeds ▸ he)
  · next w' hres =>
      rw [hres] at hsteady hstate
      have hon : w'.sv.aofState = .on := hstate
      refine ⟨hsteady.inExec.trans h.inExec, hsteady.childType.trans h.childType,
        by simp [startDone, hon], ?_, ?_⟩
      · exact fun _ => hon
      · exact fun e he => h.appended e (hsteady.feeds ▸ he)

theorem configSetAppendonly_acked (yes : Bool) (start : StartEnv) (stop : StopEnv) (h : Acked b w)
    (hexec : b = true → ¬ Enables w (.configAppendonly yes start stop)) :
    Acked b (configSetAppendonly yes start stop w) := by
  unfold configSetAppendonly
  dsimp only
  have hset : Acked b (w.set fun sv => { sv with aofEnabled := yes }) := h.of_eq h.inExec rfl rfl rfl rfl
  split
  · exact h
  · next hyes =>
      split
      · exact stopAppendOnly_acked stop hset
      · split
        · next hstart =>
            obtain ⟨rfl, hoff⟩ := hstart
            obtain rfl : b = false := by
              by_contra hne
              have hen : w.sv.aofEnabled = false := by simpa using Ne.symm hyes
              exact hexec (by simpa using hne) ⟨hen, hoff, start, stop, rfl⟩
            have hres := startAppendOnly_acked start hset hoff
            split
            · next hok =>
                rw [hok] at hres
                exact hres
            · next herr =>
                rw [herr] at hres
                exact hres.of_eq hres.inExec rfl rfl rfl rfl
        · exact hset

theorem bgrewriteaofCommand_acked (env : RewriteEnv) (h : Acked b w) :
    Acked b (bgrewriteaofCommand env w) := by
  unfold bgrewriteaofCommand
  split
  · exact h
  · split
    · exact h.of_eq h.inExec rfl rfl rfl rfl
    · exact h.of_control (rewriteAppendOnlyFileBackground_control env w)

/-! ## The event loop -/

theorem beforeSleep_acked (env : FlushEnv) (h : Acked b w) : Acked b (beforeSleep env w) :=
  h.of_control ((flushBeforeSleep_frame env w).toControl.andThen (updateFsyncedReploff_control _))

theorem serverCron_acked (env : CronEnv) (h : Acked b w) : Acked b (serverCron env w) := by
  obtain ⟨w', hcontrol, hres | hres⟩ := serverCron_control env w
  · rw [hres]
    exact h.of_control hcontrol
  · have h' := h.of_control hcontrol
    rw [hres]
    refine ⟨h'.inExec, h'.childType, h'.aofState, ?_, h'.appended⟩
    intro hne
    exact h'.on (by simpa [countTick] using hne)

/-! ## Steps -/

variable [Commands A δ]

theorem foldl_writeOp_acked (ops : List (RedisOp A)) (h : Acked b w) :
    Acked b (w.set fun sv => ops.foldl writeOp sv) := by
  obtain ⟨d, pending, heq⟩ := foldl_writeOp ops w.sv
  show Acked b { w with sv := ops.foldl writeOp w.sv }
  rw [heq]
  exact h.of_eq h.inExec rfl rfl rfl rfl

theorem call_acked (c : Command A) (h : Acked b w) (hexec : b = true → ¬ Enables w c) :
    Acked b (call w c) := by
  cases c with
  | write ops arbitrary => exact foldl_writeOp_acked ops h
  | configAppendonly yes start stop => exact configSetAppendonly_acked yes start stop h hexec
  | bgrewriteaof env => exact bgrewriteaofCommand_acked env h

/-- The step does not enable the AOF inside `EXEC`. -/
def NoEnableInExec (w : World D A δ) : Op A → Prop
  | .exec cs =>
    Meets callNext (fun w c => ¬ Enables w c) (enterExec w) cs
  | _ => True

/-- The invariant of a run. A server that exits inside `EXEC` stays there. -/
def RunAcked (w : World D A δ) : Prop := Acked false w ∨ w.exited = true ∧ Acked true w

theorem execCommand_acked (cs : List (Command A)) (h : Acked false w)
    (hok : NoEnableInExec w (.exec cs)) : RunAcked (execCommand cs w) := by
  have hcalls : Always callNext (Acked true) (enterExec w) cs := by
    refine Always.of_inductive ?_ (h.of_eq rfl rfl rfl rfl rfl) hok
    intro w c h hne
    exact andThen_inv h fun h => call_acked c h fun _ => hne
  unfold execCommand World.andThen
  split
  · next hexit => exact .inr ⟨hexit, hcalls.last⟩
  · exact .inl (propagatePendingCommands_acked false (hcalls.last.of_eq rfl rfl rfl rfl rfl))

theorem step_acked (w : World D A δ) (op : Op A) (h : RunAcked w) (hok : NoEnableInExec w op) :
    RunAcked (step w op) := by
  unfold step World.andThen
  split
  · exact h
  · next hrun =>
      obtain h | h := h
      · cases op with
        | command c =>
            refine .inl (andThen_inv (call_acked c h nofun) fun h => ?_)
            exact propagatePendingCommands_acked _ h
        | exec cs => exact execCommand_acked cs h hok
        | beforeSleep env => exact .inl (beforeSleep_acked env h)
        | serverCron env => exact .inl (serverCron_acked env h)
        | clock ms => exact .inl (h.of_eq h.inExec rfl rfl rfl rfl)
        | configAppendfsync policy => exact .inl (h.of_eq h.inExec rfl rfl rfl rfl)
      · exact absurd h.1 hrun

/-! ## Runs -/

omit [Commands A δ] in
theorem Fresh.acked (h : Fresh w) : Acked false w where
  inExec := h.inExec
  childType := h.childType
  aofState := h.aofState
  on := fun hne => absurd h.ackTicks hne
  appended := by simp [h.feeds]

end WasiPorts.Redis.Aof
