import WasiPorts.Lib.Run
import WasiPorts.Redis.Bio.Basic

/-!
# Completion requests are never completed

On WASI nothing fires `bioPipeReadJobCompList`: no pipe is opened and no event is registered. So a
completion request stays on `bio_comp_list`, and the client it was made for stays blocked. The only
runs in which every request is delivered in time are those that make none: no synchronous flush by
a client that may block (`completion_delivered_iff`).
-/

namespace WasiPorts.Redis.Bio

open WasiPorts.Run
open WasiPorts.Text (Bytes)

/-! ## The property -/

/-- The callback of request `r` was executed once, after all jobs submitted earlier to the same
worker; the request is off the list and no connected client waits for it. -/
structure Delivered (s : Server) (r : Nat) (job : Job) : Prop where
  once : s.finished.count r = 1
  afterEarlier : ∀ j earlier, j < r → s.jobs[j]? = some earlier → earlier.worker = job.worker →
    j ∈ s.finished.takeWhile (· ≠ r)
  offList : ∀ item ∈ s.bioCompList, item.serial ≠ r
  unblocked : ∀ id, (s.clients id).connected = true → (s.clients id).blockedLazyfree ≠ some r

/-- Every completion request made before the start of the last complete iteration is delivered. -/
def DeliversInTime (s : Server) : Prop :=
  ∀ r job, s.jobs[r]? = some job → job.comp.isSome → job.iteration + 1 < s.iterations →
    Delivered s r job

/-- The event is a flush that is executed at once as a blocking asynchronous one: it is
synchronous (by option or by configuration), and its client is served and may block. -/
def BlockingFlush (s : Server) : Event → Prop
  | .command id (.flush _ args _) =>
    (s.clients id).connected = true ∧ (s.clients id).blockedLazyfree = none ∧
      (s.clients id).avoidsBlockingFlush = false ∧
      getFlushCommandFlags s.lazyfreeLazyUserFlush args = some false
  | _ => False

/-! ## What a step adds -/

/-- When the completion requests were made. -/
def compIters (s : Server) : List Nat :=
  (s.jobs.filter (·.comp.isSome)).map (·.iteration)

/-- No event will ever run a callback, and none has run so far. -/
structure Inv (s : Server) : Prop where
  noEvent : s.pipeEvent = false
  finished_lt : ∀ r ∈ s.finished, r < s.jobs.length
  unfinished : ∀ r job, s.jobs[r]? = some job → job.comp.isSome → r ∉ s.finished

/-- `s'` follows from `s` within an iteration, with completion requests made at `reqs`. -/
structure Grows (s s' : Server) (reqs : List Nat) : Prop where
  inv : Inv s → Inv s'
  iterations : s'.iterations = s.iterations
  requests : compIters s' = compIters s ++ reqs

theorem Grows.trans {s s' s'' : Server} {l l' : List Nat} (h : Grows s s' l)
    (h' : Grows s' s'' l') : Grows s s'' (l ++ l') :=
  ⟨fun hs => h'.inv (h.inv hs), h'.iterations.trans h.iterations,
    by rw [h'.requests, h.requests, List.append_assoc]⟩

/-- A change that leaves the jobs alone. -/
theorem grows_of_same {s s' : Server} (hevent : s'.pipeEvent = s.pipeEvent)
    (hjobs : s'.jobs = s.jobs) (hfin : s'.finished = s.finished)
    (hiter : s'.iterations = s.iterations) : Grows s s' [] := by
  refine ⟨?_, hiter, by rw [compIters, compIters, hjobs, List.append_nil]⟩
  intro hs
  exact ⟨hevent.trans hs.noEvent, by rw [hfin, hjobs]; exact hs.finished_lt,
    by rw [hfin, hjobs]; exact hs.unfinished⟩

theorem Grows.refl (s : Server) : Grows s s [] := grows_of_same rfl rfl rfl rfl

theorem setClient_grows (s : Server) (id : Nat) (c : Client) : Grows s (s.setClient id c) [] :=
  grows_of_same rfl rfl rfl rfl

theorem bioSubmitJob_grows (s : Server) (w : Worker) : Grows s (bioSubmitJob s w) [] := by
  refine ⟨?_, rfl, by simp [compIters, bioSubmitJob]⟩
  intro hs
  refine ⟨hs.noEvent, ?_, ?_⟩
  · intro r hr
    simp only [bioSubmitJob, List.mem_append, List.mem_singleton, List.length_append,
      List.length_singleton] at hr ⊢
    rcases hr with hr | hr
    · have := hs.finished_lt r hr
      omega
    · omega
  · intro r job hjob hcomp hr
    simp only [bioSubmitJob, List.mem_append, List.mem_singleton] at hjob hr
    rcases Nat.lt_or_ge r s.jobs.length with hlt | hge
    · rw [List.getElem?_append_left hlt] at hjob
      rcases hr with hr | hr
      · exact hs.unfinished r job hjob hcomp hr
      · omega
    · rw [List.getElem?_append_right hge] at hjob
      have hjob' := List.mem_of_getElem? hjob
      rw [List.mem_singleton] at hjob'
      rw [hjob'] at hcomp
      cases hcomp

theorem submitLazyFree_grows (s : Server) (n : Nat) : Grows s (submitLazyFree s n) [] := by
  induction n generalizing s with
  | zero => exact Grows.refl s
  | succ n ih => exact (bioSubmitJob_grows s .lazyFree).trans (ih _)

theorem submitAll_grows (s : Server) (ws : List Worker) : Grows s (submitAll s ws) [] := by
  induction ws generalizing s with
  | nil => exact Grows.refl s
  | cons w ws ih => exact (bioSubmitJob_grows s w).trans (ih _)

/-- A completion request is recorded and not run. -/
theorem bioCreateCompRq_grows (s : Server) (w : Worker) (id : Nat) :
    Grows s (bioCreateCompRq s w id) [s.iterations] := by
  refine ⟨?_, rfl, by simp [compIters, bioCreateCompRq]⟩
  intro hs
  refine ⟨hs.noEvent, ?_, ?_⟩
  · intro r hr
    have := hs.finished_lt r hr
    simp only [bioCreateCompRq, List.length_append, List.length_singleton]
    omega
  · intro r job hjob hcomp hr
    have hlt := hs.finished_lt r hr
    simp only [bioCreateCompRq] at hjob
    rw [List.getElem?_append_left hlt] at hjob
    exact hs.unfinished r job hjob hcomp hr

/-! ## Commands -/

@[simp] theorem submitLazyFree_clients (s : Server) (n : Nat) :
    (submitLazyFree s n).clients = s.clients := by
  induction n generalizing s with
  | zero => rfl
  | succ n ih => exact ih _

@[simp] theorem submitAll_clients (s : Server) (ws : List Worker) :
    (submitAll s ws).clients = s.clients := by
  induction ws generalizing s with
  | nil => rfl
  | cons w ws ih => exact ih _

theorem flushCommandCommon_blocks {s : Server} {id : Nat} {args : List Bytes} (n : Nat)
    (hflags : getFlushCommandFlags s.lazyfreeLazyUserFlush args = some false)
    (hmay : (s.clients id).avoidsBlockingFlush = false) :
    Grows s (flushCommandCommon s id args n) [s.iterations] := by
  unfold flushCommandCommon
  simp only [hflags, hmay]
  have hlazy := submitLazyFree_grows s n
  have h := (hlazy.trans (setClient_grows _ id
    { s.clients id with blockedLazyfree := some (submitLazyFree s n).jobs.length })).trans
    (bioCreateCompRq_grows _ .lazyFree id)
  have hiter : ((submitLazyFree s n).setClient id
    { s.clients id with blockedLazyfree := some (submitLazyFree s n).jobs.length }).iterations =
      s.iterations := hlazy.iterations
  rw [hiter] at h
  exact h

/-- A flush that does not block makes no request and leaves the clients alone. -/
theorem flushCommandCommon_quiet {s : Server} {id : Nat} {args : List Bytes} (n : Nat)
    (h : getFlushCommandFlags s.lazyfreeLazyUserFlush args = some false →
      (s.clients id).avoidsBlockingFlush = true) :
    Grows s (flushCommandCommon s id args n) [] ∧
      (flushCommandCommon s id args n).clients = s.clients := by
  unfold flushCommandCommon
  split
  · exact ⟨Grows.refl s, rfl⟩
  · next async hflags =>
      cases async with
      | true => exact ⟨submitLazyFree_grows s n, submitLazyFree_clients s n⟩
      | false =>
          simp only [h hflags]
          exact ⟨Grows.refl s, rfl⟩

theorem execute_quiet {s : Server} {id : Nat} (cmd : Cmd)
    (h : (s.clients id).avoidsBlockingFlush = true) :
    Grows s (execute s id cmd) [] ∧ (execute s id cmd).clients = s.clients := by
  cases cmd with
  | flush all args n => exact flushCommandCommon_quiet n fun _ => h
  | other jobs => exact ⟨submitAll_grows s jobs, submitAll_clients s jobs⟩
  | multi | exec | discard => exact ⟨Grows.refl s, rfl⟩

theorem executeAll_quiet {s : Server} {id : Nat} (cmds : List Cmd)
    (h : (s.clients id).avoidsBlockingFlush = true) :
    Grows s (executeAll s id cmds) [] ∧ (executeAll s id cmds).clients = s.clients := by
  induction cmds generalizing s with
  | nil => exact ⟨Grows.refl s, rfl⟩
  | cons cmd cmds ih =>
      obtain ⟨hg, hc⟩ := execute_quiet (s := s) cmd h
      obtain ⟨hg', hc'⟩ := ih (s := execute s id cmd) (by rw [hc]; exact h)
      exact ⟨hg.trans hg', hc'.trans hc⟩

/-- Inside EXEC every flush avoids blocking. -/
theorem execCommand_quiet (s : Server) (id : Nat) : Grows s (execCommand s id) [] := by
  unfold execCommand
  simp only
  split
  · exact setClient_grows s id _
  · set s₁ := s.setClient id { s.clients id with denyBlocking := true } with hs₁
    have havoid : (s₁.clients id).avoidsBlockingFlush = true := by
      simp [hs₁, Server.setClient, Client.avoidsBlockingFlush]
    have h := (setClient_grows s id { s.clients id with denyBlocking := true }).trans
      (executeAll_quiet (s.clients id).queue havoid).1
    exact h.trans (setClient_grows _ id _)

theorem processCommand_blocks {s : Server} {id : Nat} {all : Bool} {args : List Bytes} {n : Nat}
    (h : BlockingFlush s (.command id (.flush all args n))) :
    Grows s (processCommand s id (.flush all args n)) [s.iterations] := by
  obtain ⟨hconn, hblocked, hmay, hflags⟩ := h
  have hmulti : (s.clients id).multi = false := by
    simp only [Client.avoidsBlockingFlush, Bool.or_eq_false_iff] at hmay
    exact hmay.1.1.2
  simp only [processCommand, hconn, hblocked, hmulti]
  exact flushCommandCommon_blocks n hflags hmay

theorem processCommand_quiet {s : Server} {id : Nat} {cmd : Cmd}
    (h : ¬ BlockingFlush s (.command id cmd)) : Grows s (processCommand s id cmd) [] := by
  unfold processCommand
  simp only
  split
  · exact Grows.refl s
  next hserved =>
  have hserved' : (s.clients id).connected = true ∧ (s.clients id).blockedLazyfree = none := by
    simpa using hserved
  split
  · exact setClient_grows s id _
  · split
    · exact execCommand_quiet s id
    · exact Grows.refl s
  · split
    · exact setClient_grows s id _
    · exact Grows.refl s
  · split
    · exact setClient_grows s id _
    · cases cmd with
      | flush all args n =>
          refine (flushCommandCommon_quiet n ?_).1
          intro hflags
          by_contra hmay
          exact h ⟨hserved'.1, hserved'.2, by simpa using hmay, hflags⟩
      | other jobs => exact submitAll_grows s jobs
      | multi | exec | discard => exact Grows.refl s

/-! ## Steps -/

/-- What one event does: it ends an iteration or not, and makes a request or not. -/
structure Steps (s s' : Server) (ends : Bool) (reqs : List Nat) : Prop where
  inv : Inv s'
  iterations : s'.iterations = s.iterations + ends.toNat
  requests : compIters s' = compIters s ++ reqs

theorem steps_of_grows {s s' : Server} {reqs : List Nat} (hs : Inv s) (h : Grows s s' reqs) :
    Steps s s' false reqs :=
  ⟨h.inv hs, h.iterations, h.requests⟩

theorem step_blocks {s : Server} {e : Event} (hs : Inv s) (h : BlockingFlush s e) :
    Steps s (step s e) e.isEnd [s.iterations] := by
  cases e with
  | command id cmd =>
      cases cmd with
      | flush all args n => exact steps_of_grows hs (processCommand_blocks h)
      | _ => exact h.elim
  | _ => exact h.elim

theorem step_quiet {s : Server} {e : Event} (hs : Inv s) (h : ¬ BlockingFlush s e) :
    Steps s (step s e) e.isEnd [] := by
  cases e with
  | connect id luaDebug module =>
      refine steps_of_grows hs ?_
      simp only [step]
      split
      · exact Grows.refl s
      · exact setClient_grows s id _
  | disconnect id => exact steps_of_grows hs (setClient_grows s id _)
  | command id cmd => exact steps_of_grows hs (processCommand_quiet h)
  | touchWatched id => exact steps_of_grows hs (setClient_grows s id _)
  | configLazyUserFlush on => exact steps_of_grows hs (grows_of_same rfl rfl rfl rfl)
  | endIteration =>
      -- the handler of the pipe is not registered
      have hoff : (s.pipeEvent && decide (0 < s.pipeBytes)) = false := by
        rw [hs.noEvent, Bool.false_and]
      simp only [step, hoff, Bool.false_eq_true, if_false]
      exact ⟨⟨hs.noEvent, hs.finished_lt, hs.unfinished⟩, rfl, (List.append_nil _).symm⟩

/-! ## Runs -/

/-- In a state where no callback has run, the requests are in time only if none is old enough. -/
theorem deliversInTime_iff {s : Server} (hs : Inv s) :
    DeliversInTime s ↔ ∀ i ∈ compIters s, s.iterations < i + 2 := by
  constructor
  · intro h i hi
    obtain ⟨job, hjob, rfl⟩ := List.mem_map.mp hi
    obtain ⟨hmem, hcomp⟩ := List.mem_filter.mp hjob
    obtain ⟨r, hr⟩ := List.mem_iff_getElem?.mp hmem
    by_contra hold
    have hdel := h r job hr hcomp (by omega)
    have hnot := hs.unfinished r job hr hcomp
    have hzero := List.count_eq_zero_of_not_mem hnot
    have hone := hdel.once
    omega
  · intro h r job hjob hcomp hold
    have hmem : job.iteration ∈ compIters s :=
      List.mem_map_of_mem (List.mem_filter.mpr ⟨List.mem_of_getElem? hjob, hcomp⟩)
    have := h _ hmem
    omega

/-- The exact condition from any state in which no callback has run. -/
theorem always_deliversInTime_iff {s : Server} (hs : Inv s) (es : List Event) :
    Always step DeliversInTime s es ↔
      (∀ i ∈ compIters s, s.iterations + es.countP Event.isEnd < i + 2) ∧
      ∀ pre e post, es = pre ++ e :: post → BlockingFlush (run step s pre) e →
        post.countP Event.isEnd < 2 := by
  induction es generalizing s with
  | nil =>
      rw [Always, deliversInTime_iff hs]
      simp
  | cons e es ih =>
      have hsplit : (∀ pre e' post, e :: es = pre ++ e' :: post →
            BlockingFlush (run step s pre) e' → post.countP Event.isEnd < 2) ↔
          (BlockingFlush s e → es.countP Event.isEnd < 2) ∧
          ∀ pre e' post, es = pre ++ e' :: post →
            BlockingFlush (run step (step s e) pre) e' → post.countP Event.isEnd < 2 := by
        constructor
        · intro h
          refine ⟨h [] e es rfl, ?_⟩
          intro pre e' post heq
          exact h (e :: pre) e' post (by rw [heq]; rfl)
        · rintro ⟨hhead, htail⟩ pre e' post heq hblock
          cases pre with
          | nil =>
              obtain ⟨rfl, rfl⟩ := List.cons.inj heq
              exact hhead hblock
          | cons a pre =>
              obtain ⟨rfl, hes⟩ := List.cons.inj heq
              exact htail pre e' post hes hblock
      have hcount : (e :: es).countP Event.isEnd = e.isEnd.toNat + es.countP Event.isEnd := by
        cases h : e.isEnd with
        | false => simp [h]
        | true =>
            simp [h]
            omega
      rw [Always, deliversInTime_iff hs, hsplit, hcount]
      by_cases hb : BlockingFlush s e
      · obtain ⟨hinv, hiter, hreq⟩ := step_blocks hs hb
        have hend : e.isEnd = false := by
          cases e with
          | endIteration => exact hb.elim
          | _ => rfl
        rw [ih hinv, hiter, hreq, hend]
        simp only [List.mem_append, List.mem_singleton, Bool.toNat_false]
        constructor
        · rintro ⟨-, hall, htail⟩
          refine ⟨fun i hi => ?_, fun _ => ?_, htail⟩
          · have := hall i (Or.inl hi)
            omega
          · have := hall s.iterations (Or.inr rfl)
            omega
        · rintro ⟨hall, hhead, htail⟩
          refine ⟨fun i hi => ?_, ?_, htail⟩
          · have := hall i hi
            omega
          · rintro i (hi | rfl)
            · have := hall i hi
              omega
            · have := hhead hb
              omega
      · obtain ⟨hinv, hiter, hreq⟩ := step_quiet hs hb
        rw [ih hinv, hiter, hreq, List.append_nil]
        constructor
        · rintro ⟨-, hall, htail⟩
          refine ⟨fun i hi => ?_, fun hblock => absurd hblock hb, htail⟩
          have := hall i hi
          omega
        · rintro ⟨hall, -, htail⟩
          refine ⟨fun i hi => ?_, fun i hi => ?_, htail⟩
          · have := hall i hi
            omega
          · have := hall i hi
            omega

theorem bioInit_inv (lazyUserFlush : Bool) : Inv (bioInit lazyUserFlush) :=
  ⟨rfl, by simp [bioInit], by simp [bioInit]⟩

/-- In a run of the server every completion request is delivered in time exactly if no blocking
flush — a synchronous FLUSHALL or FLUSHDB of a client that may block — was executed before the
start of the last complete iteration. -/
theorem completion_delivered_iff (lazyUserFlush : Bool) (es : List Event) :
    Always step DeliversInTime (bioInit lazyUserFlush) es ↔
      ∀ pre e post, es = pre ++ e :: post → BlockingFlush (run step (bioInit lazyUserFlush) pre) e →
        post.countP Event.isEnd < 2 := by
  rw [always_deliversInTime_iff (bioInit_inv lazyUserFlush)]
  simp [compIters, bioInit]

/-- FLUSHALL by a plain client, two iterations ago: the callback has not run, and the client is
still blocked. -/
theorem flushall_not_delivered :
    ¬ DeliversInTime (run step (bioInit false)
      [.connect 1 false false, .command 1 (.flush true [] 1), .endIteration, .endIteration]) := by
  intro h
  have hdel := h 1 ⟨.lazyFree, some 1, 0⟩ rfl rfl (by decide)
  exact absurd hdel.unblocked (fun hun => hun 1 rfl rfl)

end WasiPorts.Redis.Bio
