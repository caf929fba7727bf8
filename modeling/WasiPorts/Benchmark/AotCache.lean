import WasiPorts.Lib.Run

/-!
# The cache of compiled benchmarks

`wasmtime-llvm-aot.py` as the steps of a process: it takes the lock of its folder, checks the manifest
against the artifact, and otherwise compiles into a directory of its own, renames the result over the
artifact and writes the manifest. Any number of processes run, each on a runtime and a source, in any
order of steps; each may die before any of its steps, and the manifest may be left cut short.

An artifact only ever comes from the rename of the output of a compiler that succeeded, in the folder
that the digests of runtime and source name. So what is in a folder was compiled from what names it
(`Inv`), and this also holds for a path that was printed (`printed_artifacts_compiled`).
-/

namespace WasiPorts.Benchmark

open WasiPorts.Run

/-! ## Data -/

abbrev Bytes := List UInt8

/-- `flags`. -/
def flags : List String := ["-C", "cranelift-llvm-backend=true", "-C", "cranelift-sse41"]

/-- `identity`, with digests of the type `D`. -/
structure Identity (D : Type) where
  format : Nat
  runtimeSha256 : D
  inputSha256 : D
  flags : List String
  deriving DecidableEq

structure Manifest (D : Type) where
  identity : Identity D
  aotSha256 : D
  source : String
  deriving DecidableEq

/-- `json.loads` of a manifest, as far as the check uses it. -/
inductive Loaded (D : Type) where
  | saved (identity : Identity D) (aotSha256 : D)
  /-- `OSError`, `ValueError` or `KeyError`. -/
  | caught
  /-- Another exception. -/
  | uncaught

/-- The digests and the JSON texts. -/
structure Host (D K : Type) where
  /-- `digest` of a file. -/
  digest : Bytes → D
  /-- `key`, the digest of the identity. -/
  key : Identity D → K
  dumps : Manifest D → Bytes
  loads : Bytes → Loaded D

/-- A run of the compiler that succeeded. -/
structure Compiled where
  runtime : Bytes
  source : Bytes
  flags : List String
  output : Bytes
  deriving DecidableEq

/-- Where a process is. -/
inductive Pc (D : Type) where
  /-- Before `flock`. -/
  | lock
  /-- Before `manifest.read_text()`. -/
  | check
  /-- Before `digest(artifact)` of the check. -/
  | compare (aotSha256 : D)
  /-- While the compiler runs. -/
  | compile
  /-- Before `candidate.replace(artifact)`. -/
  | replace (candidate : Bytes)
  /-- Before `digest(artifact)` for the manifest. -/
  | digest
  /-- Before the manifest is opened, which empties it. -/
  | openManifest (text : Bytes)
  /-- Some of the text is in the manifest. -/
  | write (text : Bytes) (written : Nat)
  /-- Before the lock is closed. -/
  | unlock
  /-- Before `print(artifact)`. -/
  | print
  | exited

/-- A run of the script. -/
structure Process (D : Type) where
  runtime : Bytes
  source : Bytes
  sourceName : String
  pc : Pc D

/-- The files of a folder, and the process that has its lock. -/
structure Folder where
  artifact : Option Bytes
  manifest : Option Bytes
  lock : Option Nat

/-- The cache, the processes, and what happened. -/
structure World (D K : Type) where
  folders : K → Folder
  procs : Nat → Option (Process D)
  compiled : List Compiled
  /-- Runtime and source of each run that printed its path. -/
  printed : List (Bytes × Bytes)

/-- What is decided outside during a step. -/
structure StepEnv where
  /-- The compiler goes on, or exits: with success and an output, or without. -/
  compiler : Option (Option Bytes)
  /-- The bytes of the manifest that are written next. -/
  chunk : Nat

inductive Event where
  | spawn (pid : Nat) (runtime source : Bytes) (sourceName : String)
  | step (pid : Nat) (env : StepEnv)
  | crash (pid : Nat)

/-! ## Steps -/

section Steps

variable {D K : Type} (h : Host D K)

/-- `identity` of a run. -/
def identity (runtime source : Bytes) : Identity D :=
  ⟨1, h.digest runtime, h.digest source, flags⟩

/-- `key` of a run. -/
def keyOf (runtime source : Bytes) : K := h.key (identity h runtime source)

def Process.key (p : Process D) : K := keyOf h p.runtime p.source

def World.setFolder [DecidableEq K] (w : World D K) (k : K) (f : Folder) : World D K :=
  { w with folders := fun i => if i = k then f else w.folders i }

def World.setProc (w : World D K) (pid : Nat) (p : Option (Process D)) : World D K :=
  { w with procs := fun i => if i = pid then p else w.procs i }

/-- The process goes on at `pc`. -/
def World.goto (w : World D K) (pid : Nat) (p : Process D) (pc : Pc D) : World D K :=
  w.setProc pid (some { p with pc := pc })

/-- The process ends; its lock is released. -/
def World.exit [DecidableEq K] (w : World D K) (pid : Nat) (p : Process D) : World D K :=
  let f := w.folders (p.key h)
  let w := w.setProc pid none
  if f.lock = some pid then w.setFolder (p.key h) { f with lock := none } else w

/-- One step of a process. -/
def procStep [DecidableEq D] [DecidableEq K] (w : World D K) (pid : Nat) (p : Process D)
    (env : StepEnv) : World D K :=
  let k := p.key h
  let f := w.folders k
  match p.pc with
  | .lock =>
    if f.lock = none then (w.setFolder k { f with lock := some pid }).goto pid p .check else w
  | .check =>
    match f.manifest with
    | none => w.goto pid p .compile
    | some text =>
      match h.loads text with
      | .caught => w.goto pid p .compile
      | .uncaught => w.exit h pid p
      | .saved saved aot =>
        if saved = identity h p.runtime p.source then w.goto pid p (.compare aot)
        else w.goto pid p .compile
  | .compare aot =>
    match f.artifact with
    | none => w.goto pid p .compile
    | some artifact =>
      if aot = h.digest artifact then w.goto pid p .unlock else w.goto pid p .compile
  | .compile =>
    match env.compiler with
    | none => w
    | some none => w.exit h pid p
    | some (some output) =>
      { w with compiled := ⟨p.runtime, p.source, flags, output⟩ :: w.compiled }.goto pid p
        (.replace output)
  | .replace candidate =>
    (w.setFolder k { f with artifact := some candidate }).goto pid p .digest
  | .digest =>
    match f.artifact with
    | none => w.exit h pid p
    | some artifact =>
      w.goto pid p (.openManifest
        (h.dumps ⟨identity h p.runtime p.source, h.digest artifact, p.sourceName⟩))
  | .openManifest text => (w.setFolder k { f with manifest := some [] }).goto pid p (.write text 0)
  | .write text written =>
    let written := written + env.chunk
    let w := w.setFolder k { f with manifest := some (text.take written) }
    if text.length ≤ written then w.goto pid p .unlock else w.goto pid p (.write text written)
  | .unlock => (w.setFolder k { f with lock := none }).goto pid p .print
  | .print => { w with printed := (p.runtime, p.source) :: w.printed }.goto pid p .exited
  | .exited => w

/-- One event; events that cannot happen are ignored. -/
def step [DecidableEq D] [DecidableEq K] (w : World D K) : Event → World D K
  | .spawn pid runtime source name =>
    match w.procs pid with
    | none => w.setProc pid (some ⟨runtime, source, name, .lock⟩)
    | some _ => w
  | .step pid env =>
    match w.procs pid with
    | none => w
    | some p => procStep h w pid p env
  | .crash pid =>
    match w.procs pid with
    | none => w
    | some p => w.exit h pid p

/-- An empty cache. -/
def World.empty : World D K := ⟨fun _ => ⟨none, none, none⟩, fun _ => none, [], []⟩

/-! ## The invariant -/

/-- Different files and different identities have different digests. -/
structure CollisionFree : Prop where
  digest : Function.Injective h.digest
  key : Function.Injective h.key

theorem keyOf_inj {h : Host D K} (hfree : CollisionFree h) {runtime source runtime' source' : Bytes}
    (heq : keyOf h runtime source = keyOf h runtime' source') :
    runtime = runtime' ∧ source = source' := by
  have hid := hfree.key heq
  unfold identity at hid
  injection hid with _ hruntime hsource
  exact ⟨hfree.digest hruntime, hfree.digest hsource⟩

/-- What a process relies on: its candidate was compiled, or the artifact is there. -/
def Pc.Relies (compiled : List Compiled) (runtime source : Bytes) (artifact : Option Bytes) :
    Pc D → Prop
  | .replace candidate => ⟨runtime, source, flags, candidate⟩ ∈ compiled
  | .digest | .openManifest _ | .write _ _ | .unlock | .print => artifact.isSome
  | _ => True

structure Inv (w : World D K) : Prop where
  /-- An artifact was compiled from a runtime and a source that name its folder. -/
  artifacts : ∀ k artifact, (w.folders k).artifact = some artifact →
    ∃ c ∈ w.compiled, keyOf h c.runtime c.source = k ∧ c.flags = flags ∧ c.output = artifact
  procs : ∀ pid p, w.procs pid = some p →
    p.pc.Relies w.compiled p.runtime p.source (w.folders (p.key h)).artifact
  printed : ∀ x ∈ w.printed, (w.folders (keyOf h x.1 x.2)).artifact.isSome

theorem Inv.empty : Inv h (World.empty : World D K) := ⟨nofun, nofun, nofun⟩

/-- What a process relies on stays true. -/
theorem Pc.Relies.mono {pc : Pc D} {compiled compiled' : List Compiled} {runtime source : Bytes}
    {artifact artifact' : Option Bytes} (hr : pc.Relies compiled runtime source artifact)
    (hc : ∀ c ∈ compiled, c ∈ compiled') (ha : artifact.isSome → artifact'.isSome) :
    pc.Relies compiled' runtime source artifact' := by
  cases pc with
  | replace candidate => exact hc _ hr
  | digest => exact ha hr
  | openManifest text => exact ha hr
  | write text written => exact ha hr
  | unlock => exact ha hr
  | print => exact ha hr
  | lock => trivial
  | check => trivial
  | compare aot => trivial
  | compile => trivial
  | exited => trivial

variable {h} {w w' : World D K} {pid : Nat} {p : Process D}

/-- Artifacts are only added or replaced, and processes go on from what they rely on. -/
theorem Inv.of_grown (hinv : Inv h w) (hc : ∀ c ∈ w.compiled, c ∈ w'.compiled)
    (ha : ∀ k, (w.folders k).artifact.isSome → (w'.folders k).artifact.isSome)
    (hnew : ∀ k artifact, (w'.folders k).artifact = some artifact →
      (w.folders k).artifact = some artifact ∨
        ∃ c ∈ w'.compiled, keyOf h c.runtime c.source = k ∧ c.flags = flags ∧ c.output = artifact)
    (hp : ∀ i q, w'.procs i = some q → w.procs i = some q ∨
      q.pc.Relies w'.compiled q.runtime q.source (w'.folders (q.key h)).artifact)
    (hx : ∀ x ∈ w'.printed, x ∈ w.printed ∨ (w'.folders (keyOf h x.1 x.2)).artifact.isSome) :
    Inv h w' := by
  refine ⟨?_, ?_, ?_⟩
  · intro k artifact hk
    obtain hold | hc' := hnew k artifact hk
    · obtain ⟨c, hmem, hfacts⟩ := hinv.artifacts k artifact hold
      exact ⟨c, hc c hmem, hfacts⟩
    · exact hc'
  · intro i q hq
    obtain hold | hr := hp i q hq
    · exact (hinv.procs i q hold).mono hc (ha _)
    · exact hr
  · intro x hmem
    obtain hold | hsome := hx x hmem
    · exact ha _ (hinv.printed x hold)
    · exact hsome

theorem goto_procs (w : World D K) (p : Process D) (pc : Pc D) {i : Nat} {q : Process D}
    (hq : (w.goto pid p pc).procs i = some q) : w.procs i = some q ∨ q = { p with pc := pc } := by
  have hq' : (if i = pid then some { p with pc := pc } else w.procs i) = some q := hq
  split at hq'
  · exact .inr (Option.some.inj hq').symm
  · exact .inl hq'

theorem setFolder_artifact [DecidableEq K] (w : World D K) {k : K} {f : Folder}
    (hf : f.artifact = (w.folders k).artifact) (i : K) :
    ((w.setFolder k f).folders i).artifact = (w.folders i).artifact := by
  show (if i = k then f else w.folders i).artifact = _
  split
  · next heq => rw [hf, heq]
  · rfl

/-- A step that leaves the artifacts alone. -/
theorem Inv.goto (hinv : Inv h w) (hfolders : ∀ k, (w'.folders k).artifact = (w.folders k).artifact)
    (hcompiled : w'.compiled = w.compiled) (hprinted : w'.printed = w.printed)
    (hprocs : w'.procs = w.procs) {pc : Pc D}
    (hr : pc.Relies w.compiled p.runtime p.source (w.folders (p.key h)).artifact) :
    Inv h (w'.goto pid p pc) := by
  refine hinv.of_grown ?_ ?_ ?_ ?_ ?_
  · intro c hc
    exact hcompiled ▸ hc
  · intro k hk
    show (w'.folders k).artifact.isSome
    rw [hfolders]
    exact hk
  · intro k artifact hk
    have hk' : (w'.folders k).artifact = some artifact := hk
    rw [hfolders] at hk'
    exact .inl hk'
  · intro i q hq
    obtain hold | rfl := goto_procs w' p pc hq
    · exact .inl (hprocs ▸ hold)
    · refine .inr ?_
      show pc.Relies w'.compiled p.runtime p.source (w'.folders (p.key h)).artifact
      rw [hcompiled, hfolders]
      exact hr
  · intro x hx
    exact .inl (hprinted ▸ hx)

theorem Inv.exit [DecidableEq K] (hinv : Inv h w) (pid : Nat) (p : Process D) : Inv h (w.exit h pid p) := by
  have hprocs : ∀ i q, (w.setProc pid none).procs i = some q → w.procs i = some q := by
    intro i q hq
    have hq' : (if i = pid then none else w.procs i) = some q := hq
    split at hq'
    · cases hq'
    · exact hq'
  unfold World.exit
  dsimp only
  split
  · have hfold := setFolder_artifact (w.setProc pid none) (k := p.key h)
      (f := { w.folders (p.key h) with lock := none }) rfl
    refine hinv.of_grown (fun c hc => hc) ?_ ?_ (fun i q hq => .inl (hprocs i q hq))
      fun x hx => .inl hx
    · intro k hk
      rw [hfold]
      exact hk
    · intro k artifact hk
      rw [hfold] at hk
      exact .inl hk
  · exact hinv.of_grown (fun c hc => hc) (fun k hk => hk) (fun k artifact hk => .inl hk)
      (fun i q hq => .inl (hprocs i q hq)) fun x hx => .inl hx

/-- The output of the compiler is recorded. -/
theorem Inv.compile (hinv : Inv h w) (pid : Nat) (p : Process D) (output : Bytes) :
    Inv h ({ w with compiled := ⟨p.runtime, p.source, flags, output⟩ :: w.compiled }.goto pid p
      (.replace output)) := by
  refine hinv.of_grown (fun c hc => List.mem_cons_of_mem _ hc) (fun k hk => hk)
    (fun k artifact hk => .inl hk) ?_ fun x hx => .inl hx
  intro i q hq
  obtain hold | rfl := goto_procs { w with compiled := _ :: w.compiled } p (.replace output) hq
  · exact .inl hold
  · exact .inr List.mem_cons_self

/-- The rename puts what was compiled into the folder of its runtime and source. -/
theorem Inv.replace [DecidableEq K] (hinv : Inv h w) (pid : Nat) {candidate : Bytes}
    (hr : (⟨p.runtime, p.source, flags, candidate⟩ : Compiled) ∈ w.compiled) :
    Inv h ((w.setFolder (p.key h)
      { w.folders (p.key h) with artifact := some candidate }).goto pid p .digest) := by
  have hart : ∀ k, ((w.setFolder (p.key h)
      { w.folders (p.key h) with artifact := some candidate }).folders k).artifact =
        if k = p.key h then some candidate else (w.folders k).artifact := by
    intro k
    show (if k = p.key h then _ else w.folders k).artifact = _
    split <;> rfl
  refine hinv.of_grown (fun c hc => hc) ?_ ?_ ?_ fun x hx => .inl hx
  · intro k hk
    show ((w.setFolder _ _).folders k).artifact.isSome
    rw [hart]
    split
    · rfl
    · exact hk
  · intro k artifact hk
    have hk' : ((w.setFolder _ _).folders k).artifact = some artifact := hk
    rw [hart] at hk'
    split at hk'
    · next heq => exact .inr ⟨_, hr, heq.symm, rfl, Option.some.inj hk'⟩
    · exact .inl hk'
  · intro i q hq
    obtain hold | rfl := goto_procs (w.setFolder _ _) p .digest hq
    · exact .inl hold
    · refine .inr ?_
      show ((w.setFolder _ _).folders (p.key h)).artifact.isSome
      rw [hart, if_pos rfl]
      rfl

theorem Inv.print (hinv : Inv h w) (pid : Nat) (p : Process D)
    (hr : (w.folders (p.key h)).artifact.isSome) :
    Inv h ({ w with printed := (p.runtime, p.source) :: w.printed }.goto pid p .exited) := by
  refine hinv.of_grown (fun c hc => hc) (fun k hk => hk) (fun k artifact hk => .inl hk) ?_ ?_
  · intro i q hq
    obtain hold | rfl := goto_procs { w with printed := _ :: w.printed } p .exited hq
    · exact .inl hold
    · exact .inr trivial
  · intro x hx
    obtain rfl | hx := List.mem_cons.mp hx
    · exact .inr hr
    · exact .inl hx

theorem procStep_inv [DecidableEq D] [DecidableEq K] (hinv : Inv h w) (env : StepEnv)
    (hp : w.procs pid = some p) : Inv h (procStep h w pid p env) := by
  have hrelies := hinv.procs pid p hp
  -- the steps that change nothing but where the process is, and the lock or the manifest
  have hgoto : ∀ {pc : Pc D}, pc.Relies w.compiled p.runtime p.source
      (w.folders (p.key h)).artifact → Inv h (w.goto pid p pc) :=
    fun hr => hinv.goto (fun _ => rfl) rfl rfl rfl hr
  have hset : ∀ {f : Folder} {pc : Pc D}, f.artifact = (w.folders (p.key h)).artifact →
      pc.Relies w.compiled p.runtime p.source (w.folders (p.key h)).artifact →
      Inv h ((w.setFolder (p.key h) f).goto pid p pc) :=
    fun hf hr => hinv.goto (setFolder_artifact w hf) rfl rfl rfl hr
  unfold procStep
  dsimp only
  cases hpc : p.pc with
  | lock =>
      dsimp only
      split
      · exact hset rfl trivial
      · exact hinv
  | check =>
      dsimp only
      split
      · exact hgoto trivial
      · split
        · exact hgoto trivial
        · exact hinv.exit pid p
        · split
          · exact hgoto trivial
          · exact hgoto trivial
  | compare aot =>
      dsimp only
      split
      · exact hgoto trivial
      · next artifact hart =>
          split
          · apply hgoto
            show (w.folders (p.key h)).artifact.isSome
            rw [hart]
            rfl
          · exact hgoto trivial
  | compile =>
      dsimp only
      split
      · exact hinv
      · exact hinv.exit pid p
      · exact hinv.compile pid p _
  | replace candidate =>
      rw [hpc] at hrelies
      exact hinv.replace pid hrelies
  | digest =>
      rw [hpc] at hrelies
      dsimp only
      split
      · exact hinv.exit pid p
      · exact hgoto hrelies
  | openManifest text =>
      rw [hpc] at hrelies
      exact hset rfl hrelies
  | write text written =>
      rw [hpc] at hrelies
      dsimp only
      split
      · exact hset rfl hrelies
      · exact hset rfl hrelies
  | unlock =>
      rw [hpc] at hrelies
      exact hset rfl hrelies
  | print =>
      rw [hpc] at hrelies
      exact hinv.print pid p hrelies
  | exited => exact hinv

theorem step_inv [DecidableEq D] [DecidableEq K] (hinv : Inv h w) (ev : Event) : Inv h (step h w ev) := by
  cases ev with
  | spawn pid runtime source name =>
      show Inv h (match w.procs pid with
        | none => w.setProc pid (some ⟨runtime, source, name, .lock⟩)
        | some _ => w)
      split
      · refine hinv.of_grown (fun c hc => hc) (fun k hk => hk) (fun k artifact hk => .inl hk) ?_
          fun x hx => .inl hx
        intro i q hq
        have hq' : (if i = pid then some ⟨runtime, source, name, .lock⟩ else w.procs i) = some q := hq
        split at hq'
        · cases hq'
          exact .inr trivial
        · exact .inl hq'
      · exact hinv
  | step pid env =>
      show Inv h (match w.procs pid with
        | none => w
        | some p => procStep h w pid p env)
      split
      · exact hinv
      · next p hp => exact procStep_inv hinv env hp
  | crash pid =>
      show Inv h (match w.procs pid with
        | none => w
        | some p => w.exit h pid p)
      split
      · exact hinv
      · next p hp => exact hinv.exit pid p

end Steps

/-! ## Every run -/

/-- At every path that was printed there is the output of a compile of that run's source by that run's
runtime, with the flags. -/
def PrintedCompiled {D K : Type} (h : Host D K) (w : World D K) : Prop :=
  ∀ x ∈ w.printed, ∃ artifact, (w.folders (keyOf h x.1 x.2)).artifact = some artifact ∧
    ⟨x.1, x.2, flags, artifact⟩ ∈ w.compiled

theorem Inv.printedCompiled {D K : Type} {h : Host D K} {w : World D K} (hfree : CollisionFree h)
    (hinv : Inv h w) : PrintedCompiled h w := by
  intro x hx
  obtain ⟨artifact, hart⟩ := Option.isSome_iff_exists.mp (hinv.printed x hx)
  obtain ⟨c, hc, hkey, hflags, houtput⟩ := hinv.artifacts _ artifact hart
  -- the key tells which runtime and source it was
  obtain ⟨hruntime, hsource⟩ := keyOf_inj hfree hkey
  obtain ⟨runtime, source, fs, output⟩ := c
  dsimp only at hruntime hsource hflags houtput
  subst hruntime hsource hflags houtput
  exact ⟨output, hart, hc⟩

/-- From an empty cache, whatever processes run in whatever order and wherever they crash: at every
path that was printed, from then on, there is a complete output of a successful compile. -/
theorem printed_artifacts_compiled {D K : Type} [DecidableEq D] [DecidableEq K] (h : Host D K)
    (hfree : CollisionFree h) (evs : List Event) :
    Always (step h) (PrintedCompiled h) .empty evs := by
  have hstep : ∀ w ev, Inv h w → Inv h (step h w ev) := fun w ev hw => step_inv hw ev
  exact (Always.of_step hstep (Inv.empty h) evs).mono fun w hw => hw.printedCompiled hfree

/-- Digests without collisions, and a manifest that reads back. -/
def sampleHost : Host Bytes (Identity Bytes) where
  digest := id
  key := id
  dumps := fun m => m.aotSha256 ++ [10]
  loads := fun text => if text = [9, 10] then .saved ⟨1, [1], [2], flags⟩ [9] else .caught

/-- A run dies while it writes the manifest, the next one compiles again, and the third one uses
what it finds. -/
theorem crash_then_hit_compiled :
    let compiles : StepEnv := ⟨some (some [9]), 1⟩
    let evs : List Event :=
      [.spawn 0 [1] [2] "app.wasm"] ++ List.replicate 7 (.step 0 compiles) ++ [.crash 0] ++
        [.spawn 1 [1] [2] "app.wasm"] ++ List.replicate 10 (.step 1 compiles) ++
        [.spawn 2 [1] [2] "app.wasm"] ++ List.replicate 5 (.step 2 compiles)
    let w := run (step sampleHost) .empty evs
    w.printed = [([1], [2]), ([1], [2])] ∧ w.compiled.length = 2 ∧ PrintedCompiled sampleHost w := by
  intro compiles evs w
  have hfree : CollisionFree sampleHost := ⟨fun _ _ heq => heq, fun _ _ heq => heq⟩
  exact ⟨by decide +kernel, by decide +kernel,
    (printed_artifacts_compiled sampleHost hfree evs).last⟩

end WasiPorts.Benchmark
