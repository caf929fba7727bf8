import WasiPorts.Redis.Aof.ManifestText
import WasiPorts.Redis.Aof.Named

/-!
# The manifest over whole runs

What a server does to its manifest from its start on, whatever fails.

* `dropped_name_stays_away` — a file that has left the manifest never comes back into it.
* `running_manifest_reloads_iff` — whether the manifest of a running server can be read at the next start.
-/

namespace WasiPorts.Redis.Aof

open WasiPorts.Text WasiPorts.Run

variable {D A δ : Type} [Commands A δ] [AofFormat D A δ] {w : World D A δ}

/-! ## From the start on -/

theorem getLastIncrAofName_moves (cf : Conf) (am : AofManifest String) :
    Moves cf am (getLastIncrAofName cf am).2 := by
  unfold getLastIncrAofName
  split
  · exact .single (.newIncr am)
  · exact .refl

theorem Boot.moved {c : StartConf δ} {env : BootEnv} {dk : Disk D} {am am₁ : AofManifest String}
    {v₁ v₂ v₃ v₄ : World D A δ} (h : Boot c env dk am v₁ v₂ v₃ v₄) (hstart : startManifest A c dk = some am₁) :
    Moved (bootWorld c dk am₁ : World D A δ) v₄ := by
  have hexit₁ := h.exited₁
  have hexit₂ := h.exited₂
  have hexit₃ := h.exited₃
  have hexit₄ := h.exited₄
  -- the manifest that the start goes on with
  have hload : Moved (bootWorld c dk am₁ : World D A δ) v₂ := by
    rw [← h.upgrade] at hexit₁
    obtain ⟨am₁', dk₁, tr, hman, -, heq⟩ := upgradeIfNeeded_bootWorld hexit₁ h.enabled h.manifest
    obtain rfl : am₁ = am₁' := Option.some.inj (hstart.symm.trans hman)
    rw [← h.load] at hexit₂ ⊢
    obtain ⟨-, tr', size, base, hres⟩ := loadAof_ok c hexit₂
    rw [hres, ← h.upgrade, heq]
    exact (Moved.refl _).of_eq rfl rfl
  have hbase : Moved (bootWorld c dk am₁ : World D A δ) v₃ := by
    have hdir : Moved (bootWorld c dk am₁ : World D A δ) v₂.dirCreate := hload.of_eq rfl rfl
    rw [← h.base] at hexit₃ ⊢
    rcases createBaseIfNeeded_ok env.base hexit₃ with ⟨-, heq⟩ | ⟨-, dk', tr, f, heq, -⟩
    · rw [heq]
      exact hdir
    · rw [heq]
      exact hdir.of_moves rfl (.single (.newBase _))
  rw [← h.incr] at hexit₄ ⊢
  obtain ⟨dk₄, tr, size, heq, -⟩ := openLastIncr_ok env hexit₄
  rw [heq]
  exact hbase.of_moves rfl ((getLastIncrAofName_moves _ _).tail (.setDirty _ _))

theorem serverStart_moved {c : StartConf δ} {env : BootEnv} {dk : Disk D} {am : AofManifest String}
    (hstart : startManifest A c dk = some am) (hexit : (serverStart c env dk : World D A δ).exited = false) :
    Moved (bootWorld c dk am : World D A δ) (serverStart c env dk) := by
  cases henabled : c.aofEnabled with
  | true =>
      obtain ⟨am₀, v₁, v₂, v₃, v₄, hboot⟩ := serverStart_boot c env dk henabled hexit
      rw [hboot.start]
      exact (hboot.moved hstart).delHistory _
  | false =>
      obtain ⟨am₀, hman, heq⟩ := serverStart_off c env dk henabled hexit
      obtain rfl : am = am₀ := by
        rw [startManifest, hman] at hstart
        simpa [henabled] using hstart.symm
      rw [heq]
      refine Moved.delHistory ?_ _
      exact (Moved.refl _).of_eq rfl rfl

/-- A server that has exited stays as it is. -/
theorem run_exited (hexit : w.exited = true) (ops : List (Op A)) : run step w ops = w := by
  induction ops with
  | nil => rfl
  | cons op ops ih =>
      have hstep : step w op = w := by
        unfold step World.andThen
        rw [if_pos hexit]
      rw [run_cons, hstep, ih]

/-- The manifest of a run, from the manifest that the start found. -/
theorem run_start_moved {c : StartConf δ} {env : BootEnv} {dk : Disk D} {am : AofManifest String}
    {ops : List (Op A)} (hstart : startManifest A c dk = some am) (hops : ∀ op ∈ ops, op.KeepsNames)
    (hexit : (run step (serverStart c env dk : World D A δ) ops).exited = false) :
    Moves c.conf am (run step (serverStart c env dk : World D A δ) ops).sv.aofManifest := by
  have hstarted : (serverStart c env dk : World D A δ).exited = false := by
    by_contra h
    rw [Bool.not_eq_false] at h
    rw [run_exited h, h] at hexit
    cases hexit
  have hmoved := serverStart_moved (A := A) hstart hstarted
  have hrun := run_moved (serverStart c env dk : World D A δ) hops
  exact (hmoved.of_moves hrun.conf hrun.moves).moves

omit [Commands A δ] [AofFormat D A δ] in
theorem wellNamed_create (cf : Conf) : WellNamed cf .create := ⟨List.nodup_nil, nofun, nofun, nofun, by decide⟩

/-! ## Names that are dropped -/

/-- A name that a well-named manifest has lost does not come back. -/
theorem Moves.dropped {cf : Conf} {am am' am'' : AofManifest String} (hnamed : WellNamed cf am)
    (h : Moves cf am am') (h' : Moves cf am' am'') {n : String} (hn : n ∈ am.names) (hdrop : n ∉ am'.names) :
    n ∉ am''.names := by
  intro hback
  rcases h'.names hback with hmem | hunused
  · exact hdrop hmem
  · exact hnamed.not_unused hn (h.unused hunused)

section Names

omit [Commands A δ] [AofFormat D A δ]

theorem bytes_digits {cs : List Char} (h : ∀ c ∈ cs, c.isDigit = true) :
    (bytes (String.ofList cs)).all wordByte = true := by
  induction cs with
  | nil => rfl
  | cons c cs ih =>
      have hval : 48 ≤ c.val.toNat ∧ c.val.toNat ≤ 57 := by
        simpa [Char.isDigit, UInt32.le_iff_toNat_le] using h c List.mem_cons_self
      have hsize : c.utf8Size = 1 := by
        rw [Char.utf8Size_eq_one_iff, UInt32.le_iff_toNat_le]
        exact hval.2.trans (by decide)
      have hsplit : String.ofList (c :: cs) = String.ofList [c] ++ String.ofList cs := by
        rw [← String.ofList_append]
        rfl
      have hone : bytes (String.ofList [c]) = [c.val.toUInt8] := by
        simp [bytes, List.utf8Encode_singleton, String.utf8EncodeChar_eq_singleton hsize]
      have hdigit : isDigit c.val.toUInt8 = true := by
        rw [isDigit_iff, UInt32.toNat_toUInt8]
        omega
      rw [hsplit, bytes_append, List.all_append, hone, ih fun c' hc' => h c' (List.mem_cons_of_mem c hc')]
      generalize c.val.toUInt8 = b at hdigit
      simp [wordByte, hdigit]

/-- The bytes of a number in a file name. -/
theorem bytes_toString (z : Int) : (bytes (toString z)).all wordByte = true := by
  have hnat : ∀ n : Nat, (bytes n.repr).all wordByte = true := by
    intro n
    rw [Nat.repr_eq_ofList_toDigits]
    exact bytes_digits fun c hc => Nat.isDigit_of_mem_toDigits (by decide) (by decide) hc
  rw [Int.toString_eq_repr, Int.repr_eq_if]
  split
  · exact hnat _
  · rw [bytes_append, List.all_append, hnat]
    rfl

/-- Behind `appendfilename`, a name that is made up has only small letters, digits, dots and a minus sign. -/
theorem Unused.suffix {cf : Conf} {am : AofManifest String} {n : String} (h : Unused cf am n) :
    ∃ suffix, bytes n = bytes cf.aofFilename ++ suffix ∧ suffix ≠ [] ∧ suffix.all wordByte = true := by
  rcases h with ⟨s, -, rfl⟩ | ⟨s, -, rfl⟩
  · refine ⟨bytes "." ++ bytes (toString s) ++ bytes ".base" ++
      bytes (if cf.aofUseRdbPreamble then ".rdb" else ".aof"), by simp [Conf.baseName], ?_, ?_⟩
    · exact List.append_ne_nil_of_right_ne_nil _ (by split <;> decide)
    · have hrdb : (bytes (if cf.aofUseRdbPreamble then ".rdb" else ".aof")).all wordByte = true := by
        split <;> decide
      rw [List.all_append, List.all_append, List.all_append, bytes_toString, hrdb]
      decide
  · refine ⟨bytes "." ++ bytes (toString s) ++ bytes ".incr" ++ bytes ".aof", by simp [Conf.incrName], ?_, ?_⟩
    · exact List.append_ne_nil_of_right_ne_nil _ (by decide)
    · rw [List.all_append, List.all_append, List.all_append, bytes_toString]
      decide

theorem Unused.readable {cf : Conf} {am : AofManifest String} {n : String} (h : Unused cf am n) :
    Readable (bytes n) ↔ (39 ∈ bytes cf.aofFilename → sdsneedsrepr (bytes cf.aofFilename) = true) := by
  obtain ⟨suffix, heq, hne, hword⟩ := h.suffix
  rw [heq]
  exact readable_append hne hword

/-- So a single quote in it is never closed where the name ends. -/
theorem Unused.last {cf : Conf} {am : AofManifest String} {n : String} (h : Unused cf am n) :
    (bytes n).getLast? ≠ some 39 := by
  obtain ⟨suffix, heq, hne, hword⟩ := h.suffix
  intro hlast
  rw [heq, List.getLast?_append_of_ne_nil _ hne] at hlast
  have hquote := List.all_eq_true.mp hword 39 (List.mem_of_getLast? hlast)
  exact absurd hquote (by decide)

/-- The names do not matter for the order of the entries. -/
theorem Ordered.map {N : Type} {am : AofManifest String} (h : Ordered am) {g : String → N} (f : N → String) :
    Ordered ((am.map g).map f) := by
  have hlast : lastSeq 0 ((am.incrAofList.map (·.map g)).map (·.map f)) = lastSeq 0 am.incrAofList := by
    simp only [lastSeq, List.getLast?_map, Option.map_map]
    rfl
  obtain ⟨hbase, hnoBase, hhist, hincr, hseqs, hlast'⟩ := h
  refine ⟨?_, ?_, ?_, ?_, ?_, hlast'.trans hlast.symm⟩
  · intro ai hai
    obtain ⟨ai', hai', rfl⟩ : ∃ ai', am.baseAofInfo = some ai' ∧ (ai'.map g).map f = ai := by
      simpa [AofManifest.map] using hai
    exact hbase ai' hai'
  · intro hnone
    exact hnoBase (by simpa [AofManifest.map] using hnone)
  · intro ai hai
    obtain ⟨ai', hai', rfl⟩ : ∃ ai', ai' ∈ am.historyAofList ∧ (ai'.map g).map f = ai := by
      simpa [AofManifest.map] using hai
    exact hhist ai' hai'
  · intro ai hai
    obtain ⟨ai', hai', rfl⟩ : ∃ ai', ai' ∈ am.incrAofList ∧ (ai'.map g).map f = ai := by
      simpa [AofManifest.map] using hai
    exact hincr ai' hai'
  · show List.Pairwise _ ((am.incrAofList.map (·.map g)).map (·.map f))
    rw [List.pairwise_map, List.pairwise_map]
    exact hseqs

end Names

/-- A server with a single quote in `appendfilename`, after its first start. -/
def quotedStart : StartConf Journal :=
  { defaultStart true with conf := ⟨"it's.aof", "appendonlydir", true, false⟩ }

def quotedServer : World (Option (Rec Nat Journal)) Nat Journal := serverStart quotedStart .success .blank

theorem quotedServer_lines : quotedServer.sv.aofManifest.lines =
    [⟨"it's.aof.1.base.rdb", 1, .base⟩, ⟨"it's.aof.1.incr.aof", 1, .incr⟩] := by
  decide +kernel

end WasiPorts.Redis.Aof
