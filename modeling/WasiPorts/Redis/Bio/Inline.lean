import WasiPorts.Redis.Bio.Workers

/-!
# Running jobs inline is one schedule of the workers

When the worker of a job empties its queue before the main thread goes on, a submitted job has the
same effect as one run inside `bioSubmitJob` (`workers_one`). So the two builds go through the same
states (`inline_same_as_workers`), for every main thread, also for one that looks at the queues: at
every step they are empty.
-/

namespace WasiPorts.Redis.Workers

open WasiPorts.Run
open WasiPorts.Redis.Bio (Worker)

variable {b : Bio} {s : Shared}

/-! ## Idle workers -/

/-- No job is queued or counted. -/
structure Idle (b : Bio) : Prop where
  queues : ∀ w, b.bioJobs w = []
  counters : ∀ t, b.bioJobsCounter t = 0

theorem idle_init (s : Shared) : Idle (.init s) := ⟨fun _ => rfl, fun _ => rfl⟩

theorem Idle.withShared (h : Idle b) (s : Shared) : Idle { b with shared := s } :=
  ⟨h.queues, h.counters⟩

theorem Idle.pending (h : Idle b) (type : JobType) : bioPendingJobsOfType b type = 0 :=
  h.counters type

theorem Idle.drains (h : Idle b) (type : JobType) : bioDrainWorkerReturns b type = true := by
  unfold bioDrainWorkerReturns
  rw [h.queues]
  rfl

theorem worker_idle (h : Idle b) (w : Worker) : bioProcessBackgroundJobs b w = b := by
  unfold bioProcessBackgroundJobs
  rw [h.queues w]

theorem workers_idle (h : Idle b) (ws : List Worker) : ws.foldl bioProcessBackgroundJobs b = b := by
  induction ws with
  | nil => rfl
  | cons w ws ih => rw [List.foldl_cons, worker_idle h, ih]

/-! ## One job -/

/-- The worker takes the only job. -/
theorem worker_takes (h : Idle b) (job : Job) :
    bioProcessBackgroundJobs (bioSubmitJobThreaded job b) (bioJobToWorker job.type) =
      bioSubmitJobInline job b := by
  have hqueue : (bioSubmitJobThreaded job b).bioJobs (bioJobToWorker job.type) = [job] := by
    show (if _ then _ else _) = _
    rw [if_pos rfl, h.queues, List.nil_append]
  unfold bioProcessBackgroundJobs
  rw [hqueue]
  show Bio.mk _ _ _ = Bio.mk _ _ _
  congr 1
  · funext w
    show (if w = _ then [] else if w = _ then _ else _) = _
    split
    · exact (h.queues w).symm
    · rfl
  · funext t
    show (if t = _ then (if t = _ then _ else _) - 1 else if t = _ then _ else _) = _
    split
    · rfl
    · rfl

/-- The other workers wait. -/
theorem other_worker_waits (h : Idle b) (job : Job) {w : Worker}
    (hw : w ≠ bioJobToWorker job.type) :
    bioProcessBackgroundJobs (bioSubmitJobThreaded job b) w = bioSubmitJobThreaded job b := by
  have hqueue : (bioSubmitJobThreaded job b).bioJobs w = [] := by
    show (if _ then _ else _) = _
    rw [if_neg hw, h.queues]
  unfold bioProcessBackgroundJobs
  rw [hqueue]

/-- The workers after a submission: the job has run once its worker was awake. -/
theorem workers_one (h : Idle b) (job : Job) (ws : List Worker) :
    ws.foldl bioProcessBackgroundJobs (bioSubmitJobThreaded job b) =
      if bioJobToWorker job.type ∈ ws then bioSubmitJobInline job b
      else bioSubmitJobThreaded job b := by
  induction ws with
  | nil => rfl
  | cons w ws ih =>
      rw [List.foldl_cons]
      by_cases hw : w = bioJobToWorker job.type
      · have hidle : Idle (bioSubmitJobInline job b) := h.withShared _
        rw [hw, worker_takes h, workers_idle hidle, if_pos List.mem_cons_self]
      · rw [other_worker_waits h job hw, ih]
        have hmem : bioJobToWorker job.type ∈ w :: ws ↔ bioJobToWorker job.type ∈ ws := by
          rw [List.mem_cons]
          exact or_iff_right (Ne.symm hw)
        simp only [hmem]

/-! ## Steps -/

theorem perform_idle (h : Idle b) (call : Call) : Idle (call.perform bioSubmitJobInline b) := by
  unfold Call.perform
  split
  · exact h.withShared _
  · exact h.withShared _

theorem inlineStep_idle (h : Idle b) (step : MainStep) : Idle (inlineStep b step) := by
  unfold inlineStep mainStep
  split
  · exact h.withShared _
  · exact perform_idle (h.withShared _) _

/-- Either no job is submitted, and the builds do the same, or one job is. -/
theorem mainStep_cases (b : Bio) (step : MainStep) :
    (∃ s, ∀ submit, mainStep submit b step = { b with shared := s }) ∨
      ∃ s job, ∀ submit, mainStep submit b step = submit job { b with shared := s } := by
  unfold mainStep
  generalize step.act (bioPendingJobsOfType b) (bioDrainWorkerReturns b) b.shared = r
  obtain ⟨s, call⟩ := r
  cases call with
  | none => exact .inl ⟨s, fun _ => rfl⟩
  | some call =>
      dsimp only
      unfold Call.perform
      generalize call.prepare ({ b with shared := s } : Bio).shared = r
      obtain ⟨s', job⟩ := r
      cases job with
      | none => exact .inl ⟨s', fun _ => rfl⟩
      | some job => exact .inr ⟨s', job, fun _ => rfl⟩

/-- In the threaded build the workers have emptied their queues before the main thread goes on. -/
def DrainsAfter (bs : Bio × Bio) (step : MainStep) : Prop :=
  ∀ w, (threadedStep bs.2 step).bioJobs w = []

/-- One step of the threaded build does what the WASI build does. -/
theorem threadedStep_drained (h : Idle b) {step : MainStep}
    (hdrain : ∀ w, (threadedStep b step).bioJobs w = []) :
    threadedStep b step = inlineStep b step := by
  unfold threadedStep inlineStep at *
  obtain ⟨s, hs⟩ | ⟨s, job, hjob⟩ := mainStep_cases b step
  · rw [hs, hs]
    exact workers_idle (h.withShared s) _
  · rw [hjob] at hdrain ⊢
    rw [hjob]
    rw [workers_one (h.withShared s)] at hdrain ⊢
    split at hdrain
    · next hmem => rw [if_pos hmem]
    · -- the job would still be queued
      have hqueue := hdrain (bioJobToWorker job.type)
      have hjob' : (bioSubmitJobThreaded job { b with shared := s }).bioJobs
          (bioJobToWorker job.type) = b.bioJobs (bioJobToWorker job.type) ++ [job] := if_pos rfl
      rw [hjob'] at hqueue
      exact absurd hqueue (by simp)

/-- Waking all workers is enough. -/
theorem wakeAll_drains (h : Idle b) {step : MainStep} (hall : ∀ w, w ∈ step.wakeups) :
    ∀ w, (threadedStep b step).bioJobs w = [] := by
  unfold threadedStep
  obtain ⟨s, hs⟩ | ⟨s, job, hjob⟩ := mainStep_cases b step
  · rw [hs, workers_idle (h.withShared s)]
    exact h.queues
  · rw [hjob, workers_one (h.withShared s), if_pos (hall _)]
    exact h.queues

/-- The two builds are in the same state, with nothing queued. -/
def SameState (bs : Bio × Bio) : Prop := bs.2 = bs.1 ∧ Idle bs.1

theorem both_same {bs : Bio × Bio} {step : MainStep} (h : SameState bs)
    (hdrain : DrainsAfter bs step) : SameState (both inlineStep threadedStep bs step) := by
  obtain ⟨b, t⟩ := bs
  obtain ⟨heq, hidle⟩ := h
  obtain rfl : t = b := heq
  exact ⟨threadedStep_drained hidle hdrain, inlineStep_idle hidle step⟩

theorem meets_wakeAll {bs : Bio × Bio} {steps : List MainStep} (h : SameState bs)
    (hall : ∀ step ∈ steps, ∀ w, w ∈ step.wakeups) :
    Meets (both inlineStep threadedStep) DrainsAfter bs steps := by
  induction steps generalizing bs with
  | nil => trivial
  | cons step steps ih =>
      have hidle : Idle bs.2 := h.1.symm ▸ h.2
      have hdrain : DrainsAfter bs step := wakeAll_drains hidle (hall step List.mem_cons_self)
      exact ⟨hdrain, ih (both_same h hdrain) fun st hst => hall st (List.mem_cons_of_mem step hst)⟩

/-! ## The counters of `lazyfree.c` -/

theorem decrRefCount_pending (o : Nat) (s : Shared) :
    (decrRefCount o s).lazyfreeObjects = s.lazyfreeObjects := by
  unfold decrRefCount
  dsimp only
  split
  · rfl
  · split
    · rfl
    · split
      · rfl
      · rfl

theorem kvstoreRelease_pending (kv : KvStore) (s : Shared) :
    (kvstoreRelease kv s).lazyfreeObjects = s.lazyfreeObjects := by
  have hfold : ∀ (vs : List (Option Nat)) (s : Shared),
      (vs.foldl (fun s v => v.elim s fun o => decrRefCount o s) s).lazyfreeObjects =
        s.lazyfreeObjects := by
    intro vs
    induction vs with
    | nil => intro s; rfl
    | cons v vs ih =>
        intro s
        rw [List.foldl_cons, ih]
        cases v with
        | none => rfl
        | some o => exact decrRefCount_pending o s
  exact hfold kv.values s

theorem release_pending (args : FreeArgs) (s : Shared) :
    (args.release s).lazyfreeObjects = s.lazyfreeObjects := by
  cases args with
  | object o => exact decrRefCount_pending o s
  | database keys expires hexpires => exact kvstoreRelease_pending keys _
  | trackingTable rt => rfl
  | errors rax => rfl
  | luaScripts scripts lruList lua => rfl
  | functionsCtx ctx engs => rfl
  | replicationBacklog blocks index => rfl

theorem fsync_pending {fd : Nat} {r : Option FsyncErrno} {s' : Shared} (h : fsync fd s = (r, s')) :
    s'.lazyfreeObjects = s.lazyfreeObjects := by
  unfold fsync at h
  rw [← (Prod.mk.inj h).2]

theorem fsyncAof_pending (fd : Nat) (offset : Int) (s : Shared) :
    (fsyncAof fd offset s).lazyfreeObjects = s.lazyfreeObjects := by
  unfold fsyncAof
  split
  · next h => exact (fsync_pending h :)
  · next h => exact (fsync_pending h :)

theorem reclaim_pending (need : Bool) (s : Shared) :
    (reclaimFilePageCache need s).lazyfreeObjects = s.lazyfreeObjects := by
  unfold reclaimFilePageCache
  split
  · dsimp only
    split
    · rfl
    · rfl
  · rfl

/-- What a call has counted as pending is counted as freed when its job has run. -/
theorem submitIf_pending (submit : Bool) (args : FreeArgs) (s : Shared) :
    ((submitIf submit args s).2.elim (submitIf submit args s).1
      fun job => bioProcessJob job (submitIf submit args s).1).lazyfreeObjects =
        s.lazyfreeObjects := by
  cases submit with
  | false => exact release_pending args s
  | true =>
      show (args.release (countPending args.count s)).lazyfreeObjects - BitVec.ofNat 32 args.count =
        s.lazyfreeObjects
      rw [release_pending]
      exact BitVec.add_sub_cancel _ _

/-- The state after a call of the WASI build. -/
theorem perform_shared (call : Call) (b : Bio) :
    (call.perform bioSubmitJobInline b).shared =
      (call.prepare b.shared).2.elim (call.prepare b.shared).1
        fun job => bioProcessJob job (call.prepare b.shared).1 := by
  unfold Call.perform
  generalize call.prepare b.shared = r
  obtain ⟨s, job⟩ := r
  cases job with
  | none => rfl
  | some job => rfl

theorem perform_pending (call : Call) (b : Bio) :
    (call.perform bioSubmitJobInline b).shared.lazyfreeObjects = b.shared.lazyfreeObjects := by
  rw [perform_shared]
  cases call with
  | createCloseJob fd needFsync reclaim =>
      show (reclaimFilePageCache reclaim _).lazyfreeObjects = _
      rw [reclaim_pending]
      split
      · split
        · next h => exact (fsync_pending h :)
        · next h => exact (fsync_pending h :)
      · rfl
  | createCloseAofJob fd offset reclaim =>
      show (reclaimFilePageCache reclaim _).lazyfreeObjects = _
      rw [reclaim_pending, fsyncAof_pending]
      rfl
  | createFsyncJob fd offset reclaim =>
      show (reclaimFilePageCache reclaim _).lazyfreeObjects = _
      rw [reclaim_pending, fsyncAof_pending]
      rfl
  | freeObjAsync obj => exact submitIf_pending _ _ _
  | emptyDbAsync db => exact submitIf_pending _ _ _
  | freeTrackingRadixTreeAsync numnodes tracking => exact submitIf_pending _ _ _
  | freeErrorsRadixTreeAsync numnodes errors => exact submitIf_pending _ _ _
  | freeLuaScriptsAsync scripts lruList lua => exact submitIf_pending _ _ _
  | freeFunctionsAsync ctx engs => exact submitIf_pending _ _ _
  | freeReplicationBacklogRefMemAsync blocks index => exact submitIf_pending _ _ _

/-! ## Runs -/

/-- Every main thread brings both builds through the same states, if in the threaded one the workers
empty their queues after every submission. In the WASI build nothing is ever queued or pending,
`bioDrainWorker` never waits, and a call leaves `lazyfree_objects` as it was. -/
theorem inline_same_as_workers (s : Shared) (steps : List MainStep)
    (hdrain : Meets (both inlineStep threadedStep) DrainsAfter (.init s, .init s) steps) :
    Always (both inlineStep threadedStep) (fun bs => bs.2 = bs.1) (.init s, .init s) steps ∧
      (run threadedStep (.init s) steps).shared = (run inlineStep (.init s) steps).shared ∧
      Always inlineStep
        (fun b => (∀ w, b.bioJobs w = []) ∧ (∀ type, bioPendingJobsOfType b type = 0) ∧
          (∀ type, bioDrainWorkerReturns b type = true) ∧
          ∀ call : Call,
            (∀ w, (call.perform bioSubmitJobInline b).bioJobs w = []) ∧
            (∀ type, bioPendingJobsOfType (call.perform bioSubmitJobInline b) type = 0) ∧
            (∀ type, bioDrainWorkerReturns (call.perform bioSubmitJobInline b) type = true) ∧
            (call.perform bioSubmitJobInline b).shared.lazyfreeObjects = b.shared.lazyfreeObjects)
        (.init s) steps := by
  have hsame : Always (both inlineStep threadedStep) SameState (.init s, .init s) steps :=
    Always.of_inductive (fun bs step h hd => both_same h hd) ⟨rfl, idle_init s⟩ hdrain
  refine ⟨hsame.mono fun bs h => h.1, ?_, ?_⟩
  · have hlast := hsame.last.1
    rw [run_both] at hlast
    exact congrArg Bio.shared hlast
  · have hstep : ∀ b step, Idle b → Idle (inlineStep b step) := fun b step h => inlineStep_idle h step
    have hidle : Always inlineStep Idle (.init s) steps := Always.of_step hstep (idle_init s) steps
    refine hidle.mono ?_
    intro b h
    refine ⟨h.queues, h.pending, h.drains, ?_⟩
    intro call
    have h' := perform_idle h call
    exact ⟨h'.queues, h'.pending, h'.drains, perform_pending call b⟩

/-- An AOF file is closed, and a database with two keys is emptied. -/
theorem close_and_empty_same :
    let obj : Robj := ⟨1, .other⟩
    let db : RedisDb := ⟨⟨0, [some 7, some 8]⟩, ⟨1, 0⟩, ⟨2, 0⟩⟩
    let s : Shared :=
      ⟨fun fd => decide (fd < 5), fun _ => none, 0, fun _ => none, 0, fun _ => true, 0, true, 0, 0,
        fun _ => obj, fun _ => db, 3, 0, 0, [], [], false, [], 0⟩
    let awake : List Worker := [.closeFile, .aofFsync, .lazyFree]
    let steps : List MainStep :=
      [⟨fun _ _ s => (s, some (.createCloseAofJob 3 100 false)), awake⟩,
        ⟨fun _ _ s => (s, some (.emptyDbAsync 0)), awake⟩]
    let q := (run inlineStep (.init s) steps).shared
    (run threadedStep (.init s) steps).shared = q ∧ q.fds 3 = false ∧
      q.fsyncedReploffPending = 100 ∧ q.lazyfreeObjects = 0 ∧ q.lazyfreedObjects = 2 ∧
      q.freed = [.container 2, .object 7, .object 8, .container 0, .container 1] := by
  intro obj db s awake steps q
  have hall : ∀ step ∈ steps, ∀ w, w ∈ step.wakeups := by
    intro step hstep w
    have hawake : step.wakeups = awake := by
      simp only [steps, List.mem_cons, List.not_mem_nil, or_false] at hstep
      obtain rfl | rfl := hstep
      · rfl
      · rfl
    rw [hawake]
    cases w with
    | closeFile => exact .head _
    | aofFsync => exact .tail _ (.head _)
    | lazyFree => exact .tail _ (.tail _ (.head _))
  have hsame := inline_same_as_workers s steps (meets_wakeAll ⟨rfl, idle_init s⟩ hall)
  exact ⟨hsame.2.1, rfl, rfl, by decide +kernel, by decide +kernel, by decide +kernel⟩

end WasiPorts.Redis.Workers
