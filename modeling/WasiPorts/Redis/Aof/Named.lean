import WasiPorts.Redis.Aof.ManifestMoves

/-!
# The manifest stays well named

From a start on a well-named manifest on, the manifest in memory is well named and ordered in every
state, whatever fails, as long as the names that an enable frees read as before: no name occurs twice, and the
server will not generate one of them again.
-/

namespace WasiPorts.Redis.Aof

open WasiPorts.Posix WasiPorts.Posix.Fs WasiPorts.Run

variable {D A δ : Type} {w w' : World D A δ}

structure Named (w : World D A δ) : Prop where
  named : WellNamed w.sv.conf w.sv.aofManifest
  ordered : Ordered w.sv.aofManifest

namespace Named

theorem of_eq (h : Named w) (hconf : w'.sv.conf = w.sv.conf)
    (hman : w'.sv.aofManifest = w.sv.aofManifest) : Named w' := by
  obtain ⟨hnamed, hord⟩ := h
  rw [← hconf, ← hman] at hnamed
  rw [← hman] at hord
  exact ⟨hnamed, hord⟩

theorem of_frame (h : Named w) (hf : Frame w w') : Named w' := h.of_eq hf.conf hf.aofManifest

/-- What the moves keep. -/
theorem of_moved (h : Named w) (hmoved : Moved w w') : Named w' := by
  constructor
  · rw [hmoved.conf]
    exact hmoved.moves.wellNamed h.named
  · exact hmoved.moves.ordered h.named h.ordered

section Sync

variable [AofFormat D A δ]

theorem rewriteBackground (h : Named w) (env : RewriteEnv) :
    Named (rewriteAppendOnlyFileBackground env w).2 :=
  h.of_moved ((Moved.refl w).rewriteBackground env)

theorem propagate (h : Named w) (arbitrary : Bool) : Named (propagatePendingCommands arbitrary w) :=
  h.of_moved ((Moved.refl w).propagate arbitrary)

theorem config (h : Named w) (yes : Bool) (start : StartEnv) (stop : StopEnv)
    (hfreed : yes = true → start.freed = none) : Named (configSetAppendonly yes start stop w) :=
  h.of_moved ((Moved.refl w).config yes start stop hfreed)

theorem call [Commands A δ] (h : Named w) {c : Command A} (hc : c.KeepsNames) : Named (call w c) :=
  h.of_moved ((Moved.refl w).call hc)

end Sync

end Named

section Step

variable [Commands A δ] [AofFormat D A δ]

theorem step_named (w : World D A δ) (op : Op A) (h : Named w) (hop : op.KeepsNames) : Named (step w op) :=
  h.of_moved (step_moved w hop)

/-! ## From a start on -/

theorem serverStart_named (c : StartConf δ) (env : BootEnv) (dk : Disk D)
    (hnamed : ∀ am, startManifest A c dk = some am → WellNamed c.conf am)
    (hexit : (serverStart c env dk : World D A δ).exited = false) :
    Named (serverStart c env dk : World D A δ) := by
  cases henabled : c.aofEnabled with
  | true =>
      obtain ⟨log, hlog⟩ := (serverStart_holds c env dk hnamed henabled hexit).log
      exact ⟨hlog.named, hlog.ordered⟩
  | false =>
      obtain ⟨am, hman, heq⟩ := serverStart_off c env dk henabled hexit
      have hstart : startManifest A c dk = some am := by
        simp [startManifest, hman, henabled]
      have hboot : Named ((bootWorld c dk am : World D A δ).set fun sv => { sv with dataset := c.rdb }) :=
        ⟨hnamed am hstart, bootManifest_ordered hman⟩
      rw [heq]
      exact hboot.of_moved ((Moved.refl _).delHistory _)

/-- The states of a server that was started on a well-named manifest, while the names that an enable
frees read as before. -/
def NamedReachable (w : World D A δ) : Prop :=
  ∃ (c : StartConf δ) (env : BootEnv) (dk : Disk D) (ops : List (Op A)),
    (∀ am, startManifest A c dk = some am → WellNamed c.conf am) ∧ (∀ op ∈ ops, op.KeepsNames) ∧
      w = run step (serverStart c env dk) ops

theorem NamedReachable.sane (h : NamedReachable w) : Sane w := by
  obtain ⟨c, env, dk, ops, -, -, heq⟩ := h
  exact Reachable.sane ⟨c, env, dk, ops, heq⟩

theorem NamedReachable.named (h : NamedReachable w) (hexit : w.exited = false) : Named w := by
  obtain ⟨c, env, dk, ops, hnamed, hops, rfl⟩ := h
  -- a server that has exited stays as it is
  have hinv : Always step (fun w => w.exited = true ∨ Named w) (serverStart c env dk) ops := by
    refine Always.of_inductive ?_ ?_ (.of_forall fun _ op hop => hops op hop)
    · rintro w op (hdone | h) hop
      · left
        unfold step World.andThen
        rw [if_pos hdone]
        exact hdone
      · exact .inr (step_named w op h hop)
    · cases hstart : (serverStart c env dk : World D A δ).exited with
      | true => exact .inl rfl
      | false => exact .inr (serverStart_named c env dk hnamed hstart)
  rcases hinv.last with hdone | h
  · rw [hdone] at hexit
    cases hexit
  · exact h

end Step

end WasiPorts.Redis.Aof
