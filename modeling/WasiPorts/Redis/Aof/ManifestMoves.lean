import Mathlib.Logic.Relation
import WasiPorts.Redis.Aof.Opening

/-!
# How the manifest changes

Whatever the server does and whatever system call fails, the manifest in memory changes by five moves only: a new
BASE file, a new INCR file, the INCR files become history, the history is dropped, the dirty flag is
set. What the moves keep holds in every run.

* `Moves.seqs_le` — the sequence numbers never go down.
* `Moves.names` — a name that appears is one that was not used before.
* `step_moved` — every step of the server is a sequence of moves, as long as the names that an enable
  frees read as before.
-/

namespace WasiPorts.Redis.Aof

open WasiPorts.Posix WasiPorts.Posix.Fs WasiPorts.Run

/-! ## Moves -/

inductive Move (cf : Conf) : AofManifest String → AofManifest String → Prop
  | newBase (am : AofManifest String) :
      Move cf am (am.pushBase (cf.baseName (am.currBaseFileSeq + 1)))
  | newIncr (am : AofManifest String) :
      Move cf am (am.pushIncr (cf.incrName (am.currIncrFileSeq + 1)))
  | markRewritten (am : AofManifest String) : Move cf am (markRewrittenIncrAofAsHistory true am)
  | dropHistory (am : AofManifest String) (dirty : Bool) : Move cf am (am.noHistory dirty)
  | setDirty (am : AofManifest String) (dirty : Bool) : Move cf am { am with dirty := dirty }

abbrev Moves (cf : Conf) : AofManifest String → AofManifest String → Prop :=
  Relation.ReflTransGen (Move cf)

variable {cf : Conf} {am am' am'' : AofManifest String}

theorem markRewritten_seqs (am : AofManifest String) :
    (markRewrittenIncrAofAsHistory true am).currBaseFileSeq = am.currBaseFileSeq ∧
      (markRewrittenIncrAofAsHistory true am).currIncrFileSeq = am.currIncrFileSeq := by
  unfold markRewrittenIncrAofAsHistory
  split <;> exact ⟨rfl, rfl⟩

theorem Move.wellNamed (h : Move cf am am') (hnamed : WellNamed cf am) : WellNamed cf am' := by
  cases h with
  | newBase => exact hnamed.pushBase
  | newIncr => exact hnamed.pushIncr
  | markRewritten => exact hnamed.markRewritten true
  | dropHistory dirty =>
      have hsub := am.names_noHistory_sublist dirty
      exact hnamed.of_subset (hnamed.nodup.sublist hsub) (fun n hn => hsub.subset hn) rfl rfl
  | setDirty => exact ⟨hnamed.nodup, hnamed.base, hnamed.incr, hnamed.own, hnamed.seq⟩

theorem Move.ordered (h : Move cf am am') (hseq : 0 ≤ am.currBaseFileSeq) (hord : Ordered am) : Ordered am' := by
  cases h with
  | newBase => exact hord.pushBase (by omega) _
  | newIncr => exact hord.pushIncr _
  | markRewritten => exact hord.markRewritten true fun _ => rfl
  | dropHistory dirty => exact hord.dropHistory dirty
  | setDirty dirty => exact hord.setDirty dirty

theorem Move.seqs_le (h : Move cf am am') :
    am.currBaseFileSeq ≤ am'.currBaseFileSeq ∧ am.currIncrFileSeq ≤ am'.currIncrFileSeq := by
  cases h with
  | newBase =>
      refine ⟨?_, Int.le_refl _⟩
      show _ ≤ am.currBaseFileSeq + 1
      omega
  | newIncr =>
      refine ⟨Int.le_refl _, ?_⟩
      show _ ≤ am.currIncrFileSeq + 1
      omega
  | markRewritten =>
      obtain ⟨hbase, hincr⟩ := markRewritten_seqs am
      exact ⟨hbase.ge, hincr.ge⟩
  | dropHistory => exact ⟨Int.le_refl _, Int.le_refl _⟩
  | setDirty => exact ⟨Int.le_refl _, Int.le_refl _⟩

/-- A name that the server makes up from `am` on. -/
def Unused (cf : Conf) (am : AofManifest String) (n : String) : Prop :=
  (∃ s, am.currBaseFileSeq < s ∧ n = cf.baseName s) ∨ ∃ s, am.currIncrFileSeq < s ∧ n = cf.incrName s

theorem Move.names (h : Move cf am am') {n : String} (hn : n ∈ am'.names) : n ∈ am.names ∨ Unused cf am n := by
  cases h with
  | newBase =>
      rw [AofManifest.names_pushBase] at hn
      rcases List.mem_cons.mp hn with rfl | hn
      · exact .inr (.inl ⟨_, Int.lt_succ _, rfl⟩)
      · exact .inl hn
  | newIncr =>
      rw [AofManifest.names_pushIncr] at hn
      rcases List.mem_append.mp hn with hn | hn
      · exact .inl hn
      · obtain rfl := List.mem_singleton.mp hn
        exact .inr (.inr ⟨_, Int.lt_succ _, rfl⟩)
  | markRewritten => exact .inl ((markRewrittenIncrAofAsHistory_names_perm true am).mem_iff.mp hn)
  | dropHistory dirty => exact .inl ((am.names_noHistory_sublist dirty).subset hn)
  | setDirty => exact .inl hn

namespace Moves

theorem wellNamed (h : Moves cf am am') (hnamed : WellNamed cf am) : WellNamed cf am' := by
  induction h with
  | refl => exact hnamed
  | tail _ hmove ih => exact hmove.wellNamed ih

theorem ordered (h : Moves cf am am') (hnamed : WellNamed cf am) (hord : Ordered am) : Ordered am' := by
  induction h with
  | refl => exact hord
  | tail hmoves hmove ih => exact hmove.ordered (wellNamed hmoves hnamed).seq ih

theorem seqs_le (h : Moves cf am am') :
    am.currBaseFileSeq ≤ am'.currBaseFileSeq ∧ am.currIncrFileSeq ≤ am'.currIncrFileSeq := by
  induction h with
  | refl => exact ⟨Int.le_refl _, Int.le_refl _⟩
  | tail _ hmove ih =>
      obtain ⟨hbase, hincr⟩ := hmove.seqs_le
      exact ⟨ih.1.trans hbase, ih.2.trans hincr⟩

theorem unused (h : Moves cf am am') {n : String} (hn : Unused cf am' n) : Unused cf am n := by
  obtain ⟨hbase, hincr⟩ := h.seqs_le
  rcases hn with ⟨s, hs, rfl⟩ | ⟨s, hs, rfl⟩
  · exact .inl ⟨s, by omega, rfl⟩
  · exact .inr ⟨s, by omega, rfl⟩

theorem names (h : Moves cf am am') {n : String} (hn : n ∈ am'.names) : n ∈ am.names ∨ Unused cf am n := by
  induction h with
  | refl => exact .inl hn
  | tail hmoves hmove ih =>
      rcases hmove.names hn with hn | hn
      · exact ih hn
      · exact .inr (unused hmoves hn)

end Moves

/-- The server makes up no name that is in the manifest. -/
theorem WellNamed.not_unused (h : WellNamed cf am) {n : String} (hn : n ∈ am.names) : ¬ Unused cf am n := by
  rintro (⟨s, hs, rfl⟩ | ⟨s, hs, rfl⟩)
  · exact h.base s hs hn
  · exact h.incr s hs hn

/-! ## The server -/

variable {D A δ : Type} {w₀ w w' : World D A δ}

/-- From `w` to `w'` the manifest has changed by moves. -/
structure Moved (w w' : World D A δ) : Prop where
  conf : w'.sv.conf = w.sv.conf
  moves : Moves w.sv.conf w.sv.aofManifest w'.sv.aofManifest

namespace Moved

theorem refl (w : World D A δ) : Moved w w := ⟨rfl, .refl⟩

theorem of_eq (h : Moved w₀ w) (hconf : w'.sv.conf = w.sv.conf)
    (hman : w'.sv.aofManifest = w.sv.aofManifest) : Moved w₀ w' :=
  ⟨hconf.trans h.conf, hman ▸ h.moves⟩

theorem of_frame (h : Moved w₀ w) (hf : Frame w w') : Moved w₀ w' := h.of_eq hf.conf hf.aofManifest

theorem of_moves (h : Moved w₀ w) (hconf : w'.sv.conf = w.sv.conf)
    (hmoves : Moves w.sv.conf w.sv.aofManifest w'.sv.aofManifest) : Moved w₀ w' :=
  ⟨hconf.trans h.conf, h.moves.trans (h.conf ▸ hmoves)⟩

theorem delHistory (h : Moved w₀ w) (env : ManifestWrite) : Moved w₀ (aofDelHistoryFiles env w) := by
  have hconf := (aofDelHistoryFiles_control env w).conf
  obtain ⟨-, heq⟩ | ⟨-, heq⟩ := aofDelHistoryFiles_cases env w
  · rw [heq]
    exact h
  · refine h.of_moves hconf ?_
    rw [heq]
    exact .single (.dropHistory _ _)

theorem openNewIncr (h : Moved w₀ w) (env : OpenIncrEnv) : Moved w₀ (openNewIncrAofForAppend env w).2 := by
  have hconf := (openNewIncrAofForAppend_control env w).conf
  cases hstate : w.sv.aofState with
  | off =>
      unfold openNewIncrAofForAppend
      rw [hstate]
      exact h
  | waitRewrite =>
      rw [openNewIncrAofForAppend_wait env hstate] at hconf ⊢
      dsimp only at hconf ⊢
      split
      · exact h
      · next hopen =>
          rw [if_neg hopen] at hconf
          exact h.of_eq hconf (switchIncr_reopened _ _ _ _).aofManifest
  | on =>
      have hwrite := fun lines (v : World D A δ) => writeAofManifestFile_sv env.persist lines v
      rw [openNewIncrAofForAppend_on env hstate] at hconf ⊢
      dsimp only at hconf ⊢
      split
      · exact h
      · next hopen =>
          rw [if_neg hopen] at hconf
          split
          · refine h.of_eq ?_ ?_
            · exact congrArg (·.conf) (hwrite _ _)
            · exact congrArg (·.aofManifest) (hwrite _ _)
          · next hst =>
              rw [if_neg hst] at hconf
              refine h.of_moves hconf ?_
              rw [(switchIncr_reopened _ _ _ _).aofManifest]
              exact (Relation.ReflTransGen.single (.newIncr _)).tail (.setDirty _ _)

section Sync

variable [AofFormat D A δ]

theorem rewriteBackground (h : Moved w₀ w) (env : RewriteEnv) :
    Moved w₀ (rewriteAppendOnlyFileBackground env w).2 := by
  unfold rewriteAppendOnlyFileBackground Aof.rewriteBackground
  split
  · exact h
  · split
    · exact h.of_eq rfl rfl
    · dsimp only
      have hprep : Moved w₀ (prepareRewrite w) := h.of_eq rfl rfl
      have hflush := hprep.of_frame (flushAppendOnlyFile_frame true env.flush (prepareRewrite w))
      split
      · exact hflush
      · have hincr := hflush.openNewIncr env.incr
        split
        · next heq =>
            rw [heq] at hincr
            exact hincr.of_eq rfl rfl
        · next v heq =>
            rw [heq] at hincr
            unfold forkRewrite redisFork
            dsimp only
            split <;> exact hincr.of_eq rfl rfl

theorem stop (h : Moved w₀ w) (env : StopEnv) : Moved w₀ (stopAppendOnly env w) := by
  have hflush := h.of_frame (flushAppendOnlyFile_frame true env.flush w)
  unfold stopAppendOnly
  dsimp only
  split
  · exact hflush
  · have hclose := hflush.of_frame (closeAof_frame env.fsync _)
    exact hclose.of_eq rfl rfl

theorem startSync (h : Moved w₀ w) (env : StartEnv) (hfreed : env.freed = none)
    (hwait : w.sv.aofState = .waitRewrite) :
    Moved w₀ (startSync env w).2 := by
  have hconf := (startSync_switched env w).steady.conf
  cases hrep : env.replaces with
  | false => exact h.of_eq hconf (startSync_stopped env hwait hrep).2.aofManifest
  | true =>
      obtain ⟨fd, v, hv, heq⟩ := startSync_replaced env hwait hrep
      have hvconf : v.sv.conf = w.sv.conf := hv.reopened.control.conf
      rw [heq] at hconf ⊢
      split
      · -- a new BASE and a new INCR file; everything before becomes history
        have hrewritten : Moves w.sv.conf w.sv.aofManifest { rewrittenManifest w.sv with dirty := false } :=
          (((Relation.ReflTransGen.single (.newBase _)).tail (.newIncr _)).tail (.markRewritten _)).tail
            (.setDirty _ _)
        have hinstall : Moved w₀ (freeNames none (installManifest (newBaseName w.sv)
            { rewrittenManifest w.sv with dirty := false } v)) :=
          h.of_moves hvconf hrewritten
        unfold installRewrite
        rw [hfreed]
        exact (hinstall.delHistory env.persistHistory).of_eq rfl rfl
      · exact h.of_eq hvconf hv.reopened.aofManifest

theorem start (h : Moved w₀ w) (env : StartEnv) (hfreed : env.freed = none) :
    Moved w₀ (startAppendOnly env w).2 := by
  have hwait : Moved w₀ (w.set fun sv => { sv with aofState := .waitRewrite }) := h.of_eq rfl rfl
  have hsync := hwait.startSync env hfreed rfl
  unfold startAppendOnly
  dsimp only
  split
  · exact hwait.of_eq rfl rfl
  · split
    · next heq =>
        rw [heq] at hsync
        exact hsync
    · next heq =>
        rw [heq] at hsync
        exact hsync.of_eq rfl rfl

/-! ### The event loop -/

theorem unlessLimited (h : Moved w₀ w) (env : RewriteEnv) : Moved w₀ (rewriteUnlessLimited env w) := by
  have hlim := h.of_frame (aofRewriteLimited_frame w)
  unfold rewriteUnlessLimited
  split
  · next heq =>
      rw [heq] at hlim
      exact hlim
  · next heq =>
      rw [heq] at hlim
      exact hlim.rewriteBackground env

theorem cron (h : Moved w₀ w) (env : CronEnv) : Moved w₀ (serverCron env w) := by
  have hscheduled : Moved w₀ (cronScheduled env.scheduled w) := by
    unfold cronScheduled
    split
    · exact h.unlessLimited _
    · exact h
  have hgrowth := andThen_inv (f := cronGrowth env.growth) hscheduled fun h => by
    unfold cronGrowth
    split
    · exact h.unlessLimited _
    · exact h
  have hpostponed := andThen_inv (f := cronPostponed env.postponed) hgrowth fun h =>
    h.of_frame (cronPostponed_frame _ _)
  have hretry := andThen_inv (f := cronRetry env.second env.retry) hpostponed fun h =>
    h.of_frame (cronRetry_frame _ _ _)
  exact andThen_inv hretry fun h => h.of_eq rfl rfl

theorem sleep (h : Moved w₀ w) (env : FlushEnv) : Moved w₀ (beforeSleep env w) := by
  refine andThen_inv (h.of_frame (flushBeforeSleep_frame env w)) fun h => ?_
  unfold updateFsyncedReploff
  split
  · exact h.of_eq rfl rfl
  · exact h

theorem propagate (h : Moved w₀ w) (arbitrary : Bool) : Moved w₀ (propagatePendingCommands arbitrary w) := by
  refine propagatePendingCommands_inv ?_ ?_ arbitrary h
  · intro dictid len cmd w h
    unfold propagateNow
    dsimp only
    split
    · split <;> exact h.of_eq rfl rfl
    · exact h
  · intro w h
    exact h.of_eq rfl rfl

theorem config (h : Moved w₀ w) (yes : Bool) (start : StartEnv) (stop : StopEnv)
    (hfreed : yes = true → start.freed = none) : Moved w₀ (configSetAppendonly yes start stop w) := by
  have hset : Moved w₀ (w.set fun sv => { sv with aofEnabled := yes }) := h.of_eq rfl rfl
  unfold configSetAppendonly
  dsimp only
  split
  · exact h
  · split
    · exact hset.stop stop
    · split
      · next hyes =>
        have hres := hset.start start (hfreed hyes.1)
        split
        · next hok =>
            rw [hok] at hres
            exact hres
        · next herr =>
            rw [herr] at hres
            exact hres.of_eq rfl rfl
      · exact hset

theorem bgrewriteaof (h : Moved w₀ w) (env : RewriteEnv) : Moved w₀ (bgrewriteaofCommand env w) := by
  unfold bgrewriteaofCommand
  split
  · exact h
  · split
    · exact h.of_eq rfl rfl
    · exact h.rewriteBackground env

end Sync

end Moved

/-! ## Steps and runs -/

section Step

variable [Commands A δ] [AofFormat D A δ]

theorem Moved.call (h : Moved w₀ w) {c : Command A} (hc : c.KeepsNames) : Moved w₀ (call w c) := by
  cases c with
  | write ops arbitrary =>
      obtain ⟨d, q, heq⟩ := foldl_writeOp ops w.sv
      refine h.of_eq ?_ ?_
      · exact congrArg (·.conf) heq
      · exact congrArg (·.aofManifest) heq
  | configAppendonly yes start stop => exact h.config yes start stop fun _ => hc
  | bgrewriteaof env => exact h.bgrewriteaof env

theorem step_moved (w : World D A δ) {op : Op A} (hop : op.KeepsNames) : Moved w (step w op) := by
  refine andThen_inv (.refl w) fun h => ?_
  cases op with
  | command c => exact andThen_inv (h.call hop) fun h => h.propagate c.arbitrary
  | exec cs =>
      have henter : Moved w (enterExec w) := h.of_eq rfl rfl
      have hcalls : Always callNext (Moved w) (enterExec w) cs := by
        refine Always.of_inductive ?_ henter (.of_forall fun _ c hc => hop c hc)
        intro v c h hc
        exact andThen_inv h fun h => h.call hc
      refine andThen_inv hcalls.last fun h => ?_
      have hleave : Moved w (World.set _ fun sv => { sv with inExec := false }) := h.of_eq rfl rfl
      exact hleave.propagate false
  | beforeSleep env => exact h.sleep env
  | serverCron env => exact h.cron env
  | clock ms => exact h.of_eq rfl rfl
  | configAppendfsync policy => exact h.of_eq rfl rfl

theorem run_moved (w : World D A δ) {ops : List (Op A)} (hops : ∀ op ∈ ops, op.KeepsNames) :
    Moved w (run step w ops) := by
  have hinv : Always step (Moved w) w ops := by
    refine Always.of_inductive ?_ (.refl w) (.of_forall fun _ op hop => hops op hop)
    intro v op h hop
    exact h.of_moves (step_moved v hop).conf (step_moved v hop).moves
  exact hinv.last

end Step

end WasiPorts.Redis.Aof
