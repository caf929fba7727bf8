import WasiPorts.Redis.Aof.Opening

/-!
# Flushes and rewrite attempts on the log

While the AOF is on, a flush moves `aof_buf` to the last file or leaves both as they are, and a rewrite
attempt ends the last file and begins a new one, which gets what could not be flushed.
-/

namespace WasiPorts.Redis.Aof

open WasiPorts.Posix WasiPorts.Posix.Fs

variable {D A δ : Type} {w w' : World D A δ} {log : Log D} {fd : Nat}

namespace Text

/-- The contents of all files. -/
def files (t : Text D) : List (List D) := t.base ++ t.incrs ++ [t.last]

def append (t : Text D) (xs : List D) : Text D := { t with last := t.last ++ xs }

/-- A new INCR file. -/
def switch (t : Text D) : Text D := ⟨t.base, t.incrs ++ [t.last], []⟩

end Text

theorem Log.text_eq_append (log : Log D) (buf : List D) : log.text buf = (log.text []).append buf := by
  simp [text, Text.append]

theorem Text.append_right_cancel {t t' : Text D} {xs : List D} (h : t.append xs = t'.append xs) : t = t' := by
  obtain ⟨base, incrs, last⟩ := t
  obtain ⟨base', incrs', last'⟩ := t'
  simp only [append, mk.injEq, List.append_cancel_right_eq] at h
  obtain ⟨rfl, rfl, rfl⟩ := h
  rfl

/-- The entries of the manifest, in the order in which they are loaded, with their files. -/
theorem HoldsWith.stores {gaps : Bool} (h : HoldsWith gaps w log) :
    List.Forall₂ (Stores w) (w.sv.aofManifest.baseAofInfo.toList ++ w.sv.aofManifest.incrAofList) log.files := by
  obtain ⟨-, -, hbase, init, ai, hsplit, hinit, hlast, -⟩ := h
  rw [hsplit, ← List.append_assoc]
  exact List.rel_append (List.rel_append hbase hinit) (.cons hlast .nil)

/-! ## Records of a file -/

section Records

variable [AofFormat D A δ]

def recs (xs : List D) : List (Rec A δ) := (AofFormat.parse xs).1.map (·.1)

/-- The file has no command that is not whole. -/
def EndsWhole (xs : List D) : Prop := (AofFormat.parse xs).2 = .eof ∨ (AofFormat.parse xs).2 = .torn

instance (xs : List D) : Decidable (EndsWhole xs) := inferInstanceAs (Decidable (_ ∨ _))

/-- The last INCR file of the manifest does not end inside a `#TS:` line. -/
def LastIncrWhole (am : AofManifest String) (dk : Disk D) : Prop :=
  ∀ ai ∈ am.incrAofList.getLast?, ∀ xs ∈ dk.fs.data (.aof ai.fileName), (AofFormat.parse xs).2 ≠ .torn

/-- What `feedAppendOnlyFile` makes: no record of a BASE file. -/
def Fed (rs : List (Rec A δ)) : Prop := ∀ r ∈ rs, ∀ d u, r ≠ .base d u

theorem Fed.nil : Fed ([] : List (Rec A δ)) := nofun

theorem Fed.append {rs rs' : List (Rec A δ)} (h : Fed rs) (h' : Fed rs') : Fed (rs ++ rs') := by
  intro r hr
  rcases List.mem_append.mp hr with hr | hr
  · exact h r hr
  · exact h' r hr

omit [AofFormat D A δ] in
theorem Fed.feedRecs {cmd : Rec A δ} (h : Fed [cmd]) (sv : Server D A δ) (dictid : Option Nat) :
    Fed (feedRecs sv dictid cmd) := by
  have hts : Fed (if timestampNeeded sv then [.timestamp] else [] : List (Rec A δ)) := by
    split
    · intro r hr
      obtain rfl := List.mem_singleton.mp hr
      nofun
    · exact .nil
  have hselect : Fed (if selectNeeded sv dictid then [.select (dictid.getD 0)] else [] : List (Rec A δ)) := by
    split
    · intro r hr
      obtain rfl := List.mem_singleton.mp hr
      nofun
    · exact .nil
  exact (hts.append hselect).append h

/-- A complete file that is continued with records has them at its end. -/
theorem parse_append_recs {xs : List D} {rs : List (Rec A δ)} (heof : (AofFormat.parse xs).2 = .eof)
    (hfed : Fed rs) :
    (AofFormat.parse (xs ++ rs.flatMap AofFormat.enc)).2 = .eof ∧
      recs (xs ++ rs.flatMap AofFormat.enc) = recs xs ++ rs := by
  induction rs generalizing xs with
  | nil => simp [heof]
  | cons r rs ih =>
      have hone := AofFormat.parse_append xs r heof (hfed r List.mem_cons_self)
      have heof' : (AofFormat.parse (xs ++ AofFormat.enc r)).2 = .eof := by rw [hone]
      have hrest := ih heof' fun r' hr' => hfed r' (List.mem_cons_of_mem r hr')
      rw [List.flatMap_cons, ← List.append_assoc]
      refine ⟨hrest.1, hrest.2.trans ?_⟩
      simp [recs, hone]

theorem recs_nil : recs ([] : List D) = [] := by
  simp [recs, AofFormat.parse_nil]

end Records

/-! ## Flushes -/

theorem Fsync.exited {env : FlushEnv} (h : Fsync env fd w w')
    (hpolicy : w.sv.aofFsync = .always → env.fsync = true) : w'.exited = w.exited := by
  cases h with
  | skipped => rfl
  | exit halways hfail =>
      rw [hpolicy halways] at hfail
      cases hfail
  | always => rfl
  | job => cases env.fsync <;> rfl

theorem Fsync.aofDir {env : FlushEnv} (h : Fsync env fd w w') : w'.disk.aofDir = w.disk.aofDir := by
  cases h with
  | skipped => rfl
  | exit => rfl
  | always => rfl
  | job => cases env.fsync <;> rfl

variable [AofFormat D A δ]

theorem Flush.aofDir {env : FlushEnv} (h : Flush env fd w w') : w'.disk.aofDir = w.disk.aofDir := by
  cases h with
  | idle => rfl
  | durable => rfl
  | fsync _ hf => exact hf.aofDir
  | written _ _ hf => exact hf.aofDir
  | exit => rfl
  | failed => rfl

/-- A failed flush ends the process only under `always`. -/
theorem Flush.exited {env : FlushEnv} (h : Flush env fd w w')
    (hpolicy : w.sv.aofFsync = .always → env.written = none ∧ env.fsync = true) :
    w'.exited = w.exited := by
  cases h with
  | idle => rfl
  | durable => rfl
  | fsync _ hf => exact hf.exited fun halways => (hpolicy halways).2
  | written _ _ hf => exact hf.exited fun halways => (hpolicy halways).2
  | exit hnone halways =>
      rw [(hpolicy halways).1] at hnone
      cases hnone
  | failed => rfl

/-- What a flush leaves in `aof_buf`. -/
def flushLeaves (env : FlushEnv) (buf : List D) : List D := if env.written = none then [] else buf

/-- What a flush makes of the files. -/
def flushText (env : FlushEnv) (t : Text D) (buf : List D) : Text D :=
  if env.written = none then t.append buf else t

theorem Holds.flushed (h : Holds w log) (force : Bool) {env : FlushEnv} (henv : env.Whole) :
    (flushAppendOnlyFile force env w).sv.aofBuf = flushLeaves env w.sv.aofBuf ∧
      ∃ log', Holds (flushAppendOnlyFile force env w) log' ∧
        log'.text [] = flushText env (log.text []) w.sv.aofBuf := by
  obtain ⟨-, -, -, init, ai, -, -, -, fd, hfd, -⟩ := id h
  obtain ⟨log', hlog', htext, hbuf⟩ := h.flush hfd (flushAppendOnlyFile_flush force env henv hfd)
  refine ⟨hbuf, log', hlog', ?_⟩
  rw [hbuf] at htext
  unfold flushText
  split
  · next hall =>
      rw [if_pos hall] at htext
      rw [htext, Log.text_eq_append]
  · next hnone =>
      rw [if_neg hnone, Log.text_eq_append, log.text_eq_append] at htext
      exact Text.append_right_cancel htext

/-- `aof_fd` of a log is open. -/
theorem Holds.flush_exited (h : Holds w log) (force : Bool) {env : FlushEnv} (henv : env.Whole)
    (hpolicy : w.sv.aofFsync = .always → env.written = none ∧ env.fsync = true) :
    (flushAppendOnlyFile force env w).exited = w.exited := by
  obtain ⟨-, -, -, init, ai, -, -, -, fd, hfd, -⟩ := h
  exact (flushAppendOnlyFile_flush force env henv hfd).exited hpolicy

theorem Holds.flush_aofDir (h : Holds w log) (force : Bool) {env : FlushEnv} (henv : env.Whole) :
    (flushAppendOnlyFile force env w).disk.aofDir = w.disk.aofDir := by
  obtain ⟨-, -, -, init, ai, -, -, -, fd, hfd, -⟩ := h
  exact (flushAppendOnlyFile_flush force env henv hfd).aofDir

/-! ## Rewrite attempts -/

omit [AofFormat D A δ] in
theorem switchIncr_aofDir (fsyncOk : Bool) (newfd : Nat) (am : AofManifest String) (w : World D A δ) :
    (switchIncr fsyncOk newfd am w).disk.aofDir = w.disk.aofDir := by
  unfold switchIncr closeOldAof
  cases w.sv.aofFd with
  | none => rfl
  | some fd => cases fsyncOk <;> rfl

omit [AofFormat D A δ] in
theorem openNewIncrAofForAppend_aofDir (env : OpenIncrEnv) (w : World D A δ) :
    (openNewIncrAofForAppend env w).2.disk.aofDir = w.disk.aofDir := by
  cases hstate : w.sv.aofState with
  | off =>
      unfold openNewIncrAofForAppend
      rw [hstate]
  | waitRewrite =>
      rw [openNewIncrAofForAppend_wait env hstate]
      dsimp only
      split
      · rfl
      · exact switchIncr_aofDir _ _ _ _
  | on =>
      have hwrite : ∀ lines (v : World D A δ),
          (writeAofManifestFile env.persist lines v).disk.aofDir = v.disk.aofDir := by
        intro lines v
        exact (writeAofManifestFile_persisted env.persist lines v).aofDir
      rw [openNewIncrAofForAppend_on env hstate]
      dsimp only
      split
      · rfl
      · split
        · exact hwrite _ _
        · exact (switchIncr_aofDir _ _ _ _).trans (hwrite _ _)

/-- The attempt gets as far as the new INCR file. -/
def RewriteEnv.switches (env : RewriteEnv) : Bool :=
  env.dirCreate && env.incr.openNew && decide (env.incr.persist.status = .ok)

/-- What a rewrite attempt makes of the files: if it opens a new one, the old one ends with what was
flushed. -/
def rewriteText (env : RewriteEnv) (t : Text D) (buf : List D) : Text D :=
  if env.dirCreate then
    if env.switches then (flushText env.flush t buf).switch else flushText env.flush t buf
  else t

/-- What a rewrite attempt leaves in `aof_buf`. -/
def rewriteLeaves (env : RewriteEnv) (buf : List D) : List D :=
  if env.dirCreate then flushLeaves env.flush buf else buf

/-- A rewrite attempt of a server without children, with the AOF on. -/
structure Attempted (env : RewriteEnv) (w : World D A δ) (log : Log D) (w' : World D A δ) : Prop where
  aofBuf : w'.sv.aofBuf = rewriteLeaves env w.sv.aofBuf
  text : ∃ log', Holds w' log' ∧ log'.text [] = rewriteText env (log.text []) w.sv.aofBuf
  aofSelectedDb : w'.sv.aofSelectedDb = if env.dirCreate then none else w.sv.aofSelectedDb
  exited : w'.exited = w.exited
  control : Control w w'
  manifest : env.switches = true → w'.disk.manifest = some w'.sv.aofManifest.lines
  aofDir : env.dirCreate = true → w'.disk.aofDir = true

theorem Log.switch_text (log : Log D) : log.switch.text [] = (log.text []).switch := by
  simp [switch, text, Text.switch]

theorem Holds.attempt (h : Holds w log) {env : RewriteEnv} (henv : env.flush.Whole)
    (hon : w.sv.aofState = .on) (hchild : w.sv.childType = none)
    (hpolicy : w.sv.aofFsync = .always → env.flush.written = none ∧ env.flush.fsync = true)
    (hexit : w.exited = false) : Attempted env w log (rewriteAppendOnlyFileBackground env w).2 := by
  have hcontrol := rewriteAppendOnlyFileBackground_control env w
  unfold rewriteAppendOnlyFileBackground rewriteBackground at hcontrol ⊢
  rw [if_neg (by simp [hasActiveChildProcess, hchild])] at hcontrol ⊢
  cases hdir : env.dirCreate with
  | false =>
      rw [hdir] at hcontrol
      refine ⟨?_, ⟨log, h.of_sv rfl rfl rfl rfl, ?_⟩, ?_, rfl, hcontrol, ?_, ?_⟩
      · simp [rewriteLeaves, hdir, World.set]
      · simp [rewriteText, hdir]
      · simp [hdir, World.set]
      · simp [RewriteEnv.switches, hdir]
      · simp [hdir]
  | true =>
      rw [hdir, if_neg (by simp)] at hcontrol
      rw [if_neg (by simp)]
      dsimp only at hcontrol ⊢
      -- the flush comes before the switch; what it leaves in `aof_buf` goes to the next file
      have hprep : Holds (prepareRewrite w) log := h.of_sv rfl rfl rfl rfl
      have hframe := flushAppendOnlyFile_frame true env.flush (prepareRewrite w)
      have hexited := hprep.flush_exited true henv hpolicy
      have hmade : (flushAppendOnlyFile true env.flush (prepareRewrite w)).disk.aofDir = true :=
        hprep.flush_aofDir true henv
      obtain ⟨hbuf, log₁, hlog₁, htext₁⟩ := hprep.flushed true henv
      generalize flushAppendOnlyFile true env.flush (prepareRewrite w) = v at *
      have hvexit : v.exited = false := hexited.trans hexit
      rw [if_neg (by simp [hvexit])] at hcontrol ⊢
      have hvon : v.sv.aofState = .on := hframe.aofState.trans hon
      have hsel : v.sv.aofSelectedDb = none := hframe.aofSelectedDb
      have hopenDir := (openNewIncrAofForAppend_aofDir env.incr v).trans hmade
      by_cases hsw : env.incr.openNew = true ∧ env.incr.persist.status = .ok
      · obtain ⟨w', hopen, hre, hman, hlog'⟩ := hlog₁.openNewIncr_ok env.incr hvon hsw.1 hsw.2
        rw [hopen] at hcontrol hopenDir ⊢
        dsimp only at hcontrol ⊢
        have hstate : w'.sv.aofState = .on := hre.control.aofState.trans hvon
        -- `redisFork` fails behind the switch, which stays
        have hfork : (forkRewrite redisFork w').2 =
            w'.set fun sv => { sv with aofLastbgrewriteStatus := .err } := by
          unfold forkRewrite redisFork
          dsimp only
          rw [if_neg (by simp [hstate])]
        rw [hfork] at hcontrol ⊢
        refine ⟨?_, ⟨_, hlog'.of_sv rfl rfl rfl rfl, ?_⟩, ?_, ?_, hcontrol, fun _ => hman, fun _ => hopenDir⟩
        · show w'.sv.aofBuf = _
          rw [hre.aofBuf, hbuf, rewriteLeaves, if_pos hdir]
          rfl
        · rw [Log.switch_text, Log.trySync_text, htext₁, rewriteText, if_pos hdir, if_pos (by
            simp [RewriteEnv.switches, hdir, hsw])]
          rfl
        · show w'.sv.aofSelectedDb = _
          rw [hre.aofSelectedDb, hsel, if_pos hdir]
        · exact hre.exited.trans hexited
      · obtain ⟨dk, tr, hopen, hlog', -⟩ := hlog₁.openNewIncr_err env.incr hvon hsw
        rw [hopen] at hcontrol hopenDir ⊢
        refine ⟨?_, ⟨log₁, hlog'.of_sv rfl rfl rfl rfl, ?_⟩, ?_, hexited, hcontrol, ?_, fun _ => hopenDir⟩
        · rw [rewriteLeaves, if_pos hdir]
          exact hbuf
        · rw [htext₁, rewriteText, if_pos hdir, if_neg (by
            simpa [RewriteEnv.switches, hdir] using hsw)]
          rfl
        · rw [if_pos hdir]
          exact hsel
        · intro hswitch
          exact absurd (by simpa [RewriteEnv.switches, hdir] using hswitch) hsw

end WasiPorts.Redis.Aof
