import WasiPorts.Redis.Ae.Invariant

/-!
# The limits of the event loop

The size of the event loop follows from `maxclients`, and only a resize compares it with
`FD_SETSIZE`.

* `fd_sets_bounded_iff` — the descriptor sets never overflow exactly if the size at start is below
  `FD_SETSIZE`.
* `event_indices_iff` — the module pipe is registered as descriptor -1, so the table is used outside
  of its range in every server that starts. No other descriptor is out of range.
-/

namespace WasiPorts.Redis.Ae

open WasiPorts.Run

/-! ## The server keeps the loop -/

structure ServerOk (s : Server) : Prop where
  loop : LoopOk s.el
  fds : ∀ fd ∈ s.fds, 0 ≤ fd

variable {s : Server} {fd : Int}

theorem updateMaxclients_cases {heap : Int → Mask} {s' : Server}
    (h : updateMaxclients s heap = some s') :
    s' = s ∨ ∃ n el, aeResizeSetSize s.el heap n = some el ∧ s' = { s with el := el } := by
  unfold updateMaxclients at h
  split at h
  · obtain ⟨el, hel, rfl⟩ := Option.map_eq_some_iff.mp h
    exact .inr ⟨_, el, hel, rfl⟩
  · cases h
    exact .inl rfl

/-- `CONFIG SET maxclients` does at most one resize. -/
theorem configSet_cases (s : Server) (n : Nat) (heap : Int → Mask) :
    ∃ n' k, configSetMaxclients s n heap =
      { s with el := (aeResizeSetSize s.el heap n').getD s.el, maxclients := k } := by
  have hsame : aeResizeSetSize s.el heap s.el.setsize = some s.el := if_pos rfl
  unfold configSetMaxclients
  split
  · exact ⟨s.el.setsize, s.maxclients, by rw [hsame]; rfl⟩
  · split
    · next s' h =>
        obtain rfl | ⟨n', el, hel, rfl⟩ := updateMaxclients_cases h
        · exact ⟨s.el.setsize, n, by rw [hsame]; rfl⟩
        · have hel' : aeResizeSetSize s.el heap n' = some el := hel
          exact ⟨n', n, by rw [hel']; rfl⟩
    · cases h : updateMaxclients s heap with
      | none => exact ⟨s.el.setsize, s.maxclients, by rw [hsame]; rfl⟩
      | some s' =>
          obtain rfl | ⟨n', el, hel, rfl⟩ := updateMaxclients_cases h
          · exact ⟨s'.el.setsize, s'.maxclients, by rw [hsame]; rfl⟩
          · exact ⟨n', s.maxclients, by rw [hel]; rfl⟩

/-- What an event does to the loop. -/
inductive LoopStep (s : Server) : EventLoop → Prop where
  | same : LoopStep s s.el
  | create (fd : Int) (mask : Mask) (hfd : 0 ≤ fd) (hmask : mask ≠ aeNone) :
      LoopStep s ((aeCreateFileEvent s.el fd mask).getD s.el)
  | delete (fd : Int) (mask : Mask) (hfd : 0 ≤ fd) : LoopStep s (aeDeleteFileEvent s.el fd mask)
  | resize (heap : Int → Mask) (n : Int) : LoopStep s ((aeResizeSetSize s.el heap n).getD s.el)

/-- One event does one of these, and the descriptors of the system are not negative. -/
theorem step_cases (s : Server) (ev : Event) (hfds : ∀ fd ∈ s.fds, 0 ≤ fd) :
    LoopStep s (step s ev).el ∧ (∀ fd ∈ (step s ev).fds, 0 ≤ fd) ∧
      (step s ev).running = s.running := by
  have hstay : LoopStep s s.el ∧ (∀ fd ∈ s.fds, 0 ≤ fd) ∧ s.running = s.running :=
    ⟨.same, hfds, rfl⟩
  unfold step
  split
  · exact hstay
  · cases ev with
    | accept fd links =>
        dsimp only
        split
        · next hfree =>
            have h0 : 0 ≤ fd := by
              unfold Server.free at hfree
              exact of_decide_eq_true (Bool.and_eq_true_iff.mp hfree).1
            have hcons : ∀ i ∈ fd :: s.fds, 0 ≤ i := by
              intro i hi
              obtain rfl | hi := List.mem_cons.mp hi
              · exact h0
              · exact hfds i hi
            unfold acceptCommonHandler
            dsimp only
            split
            · refine ⟨.delete fd _ h0, ?_, rfl⟩
              intro i hi
              exact hcons i (List.mem_filter.mp hi).1
            · exact ⟨.create fd _ h0 (by decide), hcons, rfl⟩
        · exact hstay
    | openFd fd =>
        dsimp only
        split
        · next hfree =>
            refine ⟨.same, ?_, rfl⟩
            intro i hi
            obtain rfl | hi := List.mem_cons.mp hi
            · unfold Server.free at hfree
              exact of_decide_eq_true (Bool.and_eq_true_iff.mp hfree).1
            · exact hfds i hi
        · exact hstay
    | install fd mask =>
        dsimp only
        split
        · next h => exact ⟨.create fd mask (hfds fd h.1) h.2, hfds, rfl⟩
        · exact hstay
    | remove fd mask =>
        dsimp only
        split
        · next h => exact ⟨.delete fd mask (hfds fd h), hfds, rfl⟩
        · exact hstay
    | close fd =>
        dsimp only
        split
        · next h =>
            refine ⟨.delete fd _ (hfds fd h), ?_, rfl⟩
            intro i hi
            exact hfds i (List.mem_filter.mp hi).1
        · exact hstay
    | configSet n heap =>
        obtain ⟨n', k, h⟩ := configSet_cases s n heap
        dsimp only
        rw [h]
        exact ⟨.resize heap n', hfds, rfl⟩
    | resize n heap => exact ⟨.resize heap n, hfds, rfl⟩

theorem step_ok (h : ServerOk s) (ev : Event) : ServerOk (step s ev) := by
  obtain ⟨hloop, hfds, -⟩ := step_cases s ev h.fds
  refine ⟨?_, hfds⟩
  generalize (step s ev).el = el at hloop
  cases hloop with
  | same => exact h.loop
  | create fd mask hfd hmask => exact aeCreateFileEvent_ok h.loop (by omega) hmask
  | delete fd mask hfd => exact aeDeleteFileEvent_ok h.loop hfd mask
  | resize heap n => exact aeResizeSetSize_ok h.loop heap n

/-- Only a resize changes the size, and it stays below `FD_SETSIZE`. -/
theorem step_setsize (s : Server) (ev : Event) (hfds : ∀ fd ∈ s.fds, 0 ≤ fd)
    (h : s.el.setsize < fdSetsize) : (step s ev).el.setsize < fdSetsize := by
  obtain ⟨hloop, -, -⟩ := step_cases s ev hfds
  generalize (step s ev).el = el at hloop
  cases hloop with
  | same => exact h
  | create fd mask hfd hmask =>
      by_cases hlt : fd < s.el.setsize
      · rw [aeCreateFileEvent_eq mask hlt]
        exact h
      · rw [aeCreateFileEvent_err (by omega)]
        exact h
  | delete fd mask hfd =>
      obtain heq | ⟨-, -, mask', events', -, heq⟩ := aeDeleteFileEvent_cases s.el fd mask
      · rw [heq]
        exact h
      · rw [heq]
        exact h
  | resize heap n =>
      cases hres : aeResizeSetSize s.el heap n with
      | none => exact h
      | some el' =>
          obtain rfl | ⟨-, hlt, rfl⟩ := aeResizeSetSize_cases hres
          · exact h
          · exact hlt

/-! ## The start -/

/-- The loop size of a server with `maxclients`, as an `int`. -/
def loopSize (maxclients : Nat) : Int := toInt (fdsetSize maxclients)

/-- Without a pipe and with a table, -1 is registered. -/
theorem initServer_runs (heap : Int → Mask) {maxclients : Nat} (h : 0 ≤ loopSize maxclients) :
    initServer none heap maxclients = {
      el := {
        maxfd := -1
        setsize := loopSize maxclients
        events := fun i => if i = -1 then (heap (-1)).or aeReadable
          else (aeCreateEventLoop heap (loopSize maxclients)).events i
        rfds := [-1]
        wfds := []
        accesses := [(-1, loopSize maxclients)] }
      maxclients := maxclients
      fds := []
      clients := []
      running := true } := by
  have hlt : -1 < (aeCreateEventLoop heap (loopSize maxclients)).setsize := by
    show -1 < loopSize maxclients
    omega
  have hcreate : aeCreateFileEvent (aeCreateEventLoop heap (toInt (fdsetSize maxclients)))
      (modulePipe none) aeReadable = _ := aeCreateFileEvent_eq aeReadable hlt
  unfold initServer
  dsimp only
  rw [hcreate]
  rfl

/-- With a negative size the registration fails, and the server panics. -/
theorem initServer_panics (heap : Int → Mask) {maxclients : Nat} (h : loopSize maxclients < 0) :
    initServer none heap maxclients =
      ⟨aeCreateEventLoop heap (loopSize maxclients), maxclients, [], [], false⟩ := by
  have hle : (aeCreateEventLoop heap (loopSize maxclients)).setsize ≤ -1 := by
    show loopSize maxclients ≤ -1
    omega
  have hcreate : aeCreateFileEvent (aeCreateEventLoop heap (toInt (fdsetSize maxclients)))
      (modulePipe none) aeReadable = none := aeCreateFileEvent_err hle
  unfold initServer
  dsimp only
  rw [hcreate]
  rfl

theorem initServer_ok (heap : Int → Mask) {maxclients : Nat} (h : 0 ≤ loopSize maxclients) :
    ServerOk (initServer none heap maxclients) := by
  have hloop := aeCreateFileEvent_ok (aeCreateEventLoop_ok heap h) (Int.le_refl (-1))
    (by decide : aeReadable ≠ aeNone)
  have hlt : -1 < (aeCreateEventLoop heap (loopSize maxclients)).setsize := by
    show -1 < loopSize maxclients
    omega
  rw [initServer_runs heap h]
  rw [aeCreateFileEvent_eq aeReadable hlt] at hloop
  exact ⟨hloop, nofun⟩

/-- A server that panicked does nothing. -/
theorem step_panicked (h : s.running = false) (ev : Event) : step s ev = s := by
  unfold step
  rw [h]
  rfl

theorem always_panicked {P : Server → Prop} (h : s.running = false) (hP : P s) (evs : List Event) :
    Always step P s evs := by
  have hstep : ∀ t ev, (t.running = false ∧ P t) → (step t ev).running = false ∧ P (step t ev) := by
    intro t ev ht
    rw [step_panicked ht.1]
    exact ht
  exact (Always.of_step hstep ⟨h, hP⟩ evs).mono fun t ht => ht.2

/-! ## The descriptor sets -/

/-- The descriptor sets have room for what is in them. -/
def Bounded (s : Server) : Prop :=
  s.el.rfds.length ≤ fdSetsize.toNat ∧ s.el.wfds.length ≤ fdSetsize.toNat

instance (s : Server) : Decidable (Bounded s) := inferInstanceAs (Decidable (_ ∧ _))

/-- A set holds -1 and what lies between 0 and `maxfd`. -/
theorem SetOk.length_le {el : EventLoop} {bit : Mask → Bool} {set : List Int}
    (h : SetOk el bit set) (hleast : -1 ≤ el.maxfd) : (set.length : Int) ≤ el.maxfd + 2 := by
  have hsub : set.toFinset ⊆ Finset.Icc (-1) el.maxfd := by
    intro i hi
    rw [Finset.mem_Icc]
    obtain rfl | ⟨h0, hi', -⟩ := h.bits i (List.mem_toFinset.mp hi)
    · exact ⟨Int.le_refl _, hleast⟩
    · exact ⟨by omega, hi'⟩
  have hcard := Finset.card_le_card hsub
  rw [List.toFinset_card_of_nodup h.nodup, Int.card_Icc] at hcard
  omega

theorem LoopOk.bounded {el : EventLoop} (h : LoopOk el) (hsize : el.setsize < fdSetsize) :
    el.rfds.length ≤ fdSetsize.toNat ∧ el.wfds.length ≤ fdSetsize.toNat := by
  have hr := h.rfds.length_le h.least
  have hw := h.wfds.length_le h.least
  have hroom := h.room
  unfold fdSetsize at *
  omega

/-- `k` descriptors and -1 are in `rfds`. -/
structure Filled (maxclients k : Nat) (s : Server) : Prop where
  running : s.running = true
  setsize : s.el.setsize = loopSize maxclients
  maxclients : s.maxclients = maxclients
  length : s.el.rfds.length = k + 1
  rfds : ∀ fd ∈ s.el.rfds, fd < k
  fds : ∀ fd ∈ s.fds, fd < k
  clients : s.clients.length ≤ k

/-- The descriptor `k` is a client, or something else once there are enough clients. -/
def fill (maxclients k : Nat) : List Event :=
  if k < maxclients then [.accept k 0] else [.openFd k, .install k aeReadable]

theorem Filled.next {maxclients k : Nat} {t : Server} (clients : List Int)
    (h : Filled maxclients k s) (hk : (k : Int) < loopSize maxclients) (hclients : clients.length ≤ k + 1)
    (ht : t = { installHandler { s with fds := k :: s.fds } k aeReadable with clients := clients }) :
    Filled maxclients (k + 1) t := by
  have hlt : (k : Int) < s.el.setsize := by
    rw [h.setsize]
    exact hk
  have hnew : (k : Int) ∉ s.el.rfds := fun hmem => Int.lt_irrefl _ (h.rfds k hmem)
  have hel : (aeCreateFileEvent s.el k aeReadable).getD s.el = _ :=
    congrArg (·.getD s.el) (aeCreateFileEvent_eq aeReadable hlt)
  have hrfds : t.el.rfds = s.el.rfds ++ [(k : Int)] := by
    rw [ht]
    show ((aeCreateFileEvent s.el k aeReadable).getD s.el).rfds = _
    rw [hel]
    exact if_neg hnew
  refine ⟨by rw [ht]; exact h.running, ?_, by rw [ht]; exact h.maxclients, ?_, ?_, ?_, ?_⟩
  · rw [ht]
    show ((aeCreateFileEvent s.el k aeReadable).getD s.el).setsize = _
    rw [hel]
    exact h.setsize
  · rw [hrfds, List.length_append, h.length, List.length_singleton]
  · intro fd hfd
    rw [hrfds, List.mem_append, List.mem_singleton] at hfd
    obtain hfd | rfl := hfd
    · have := h.rfds fd hfd
      omega
    · omega
  · intro fd hfd
    rw [ht] at hfd
    obtain rfl | hfd := List.mem_cons.mp hfd
    · omega
    · have := h.fds fd hfd
      omega
  · rw [ht]
    exact hclients

theorem fill_filled {maxclients k : Nat} (h : Filled maxclients k s)
    (hk : (k : Int) < loopSize maxclients) :
    Filled maxclients (k + 1) (run step s (fill maxclients k)) := by
  have hfree : s.free k = true := by
    have hnot : (k : Int) ∉ s.fds := fun hmem => Int.lt_irrefl _ (h.fds k hmem)
    unfold Server.free
    rw [decide_eq_true (Int.natCast_nonneg k), decide_eq_true hnot]
    rfl
  have hrun : ¬ (!s.running) = true := by
    rw [h.running]
    decide
  have hclients := h.clients
  unfold fill
  split
  · next hmax =>
      refine h.next (k :: s.clients) hk ?_ ?_
      · rw [List.length_cons]
        omega
      · show step s (.accept k 0) = _
        unfold step
        rw [if_neg hrun]
        dsimp only
        rw [if_pos hfree]
        unfold acceptCommonHandler
        dsimp only
        rw [if_neg (by rw [h.maxclients]; omega)]
  · refine h.next s.clients hk (by omega) ?_
    have hopen : step s (.openFd k) = { s with fds := k :: s.fds } := by
      unfold step
      rw [if_neg hrun]
      exact if_pos hfree
    show step (step s (.openFd k)) (.install k aeReadable) = _
    rw [hopen]
    unfold step
    rw [if_neg hrun]
    exact if_pos ⟨List.mem_cons_self, by decide⟩

/-- The first `n` descriptors. -/
def fillAll (maxclients n : Nat) : List Event := (List.range n).flatMap (fill maxclients)

theorem fillAll_filled {maxclients n : Nat} (hs : Filled maxclients 0 s)
    (hn : (n : Int) ≤ loopSize maxclients) :
    Filled maxclients n (run step s (fillAll maxclients n)) := by
  induction n with
  | zero => exact hs
  | succ n ih =>
      have hsplit : fillAll maxclients (n + 1) = fillAll maxclients n ++ fill maxclients n := by
        unfold fillAll
        rw [List.range_succ, List.flatMap_append, List.flatMap_cons, List.flatMap_nil,
          List.append_nil]
      rw [hsplit, run_append]
      exact fill_filled (ih (by omega)) (by omega)

theorem initServer_filled (heap : Int → Mask) {maxclients : Nat} (h : 0 ≤ loopSize maxclients) :
    Filled maxclients 0 (initServer none heap maxclients) := by
  rw [initServer_runs heap h]
  refine ⟨rfl, rfl, rfl, rfl, ?_, nofun, Nat.le_refl _⟩
  intro fd hfd
  rw [List.mem_singleton] at hfd
  subst hfd
  decide

/-- A loop that has room for 1024 descriptors overflows its descriptor sets. -/
theorem fillAll_overflows (heap : Int → Mask) {maxclients : Nat}
    (h : fdSetsize ≤ loopSize maxclients) :
    ¬ Bounded (run step (initServer none heap maxclients) (fillAll maxclients fdSetsize.toNat)) := by
  have hsize : ((fdSetsize.toNat : Nat) : Int) = fdSetsize := by decide
  have h0 : 0 ≤ loopSize maxclients := Int.le_trans (by decide) h
  have hfilled := fillAll_filled (initServer_filled heap h0) (hsize ▸ h)
  intro hb
  have hlen := hb.1
  rw [hfilled.length] at hlen
  omega

/-- For a server that starts with `maxclients`, the descriptor sets stay within `FD_SETSIZE` in every
run, resizes included, exactly if its event loop is smaller than `FD_SETSIZE`. -/
theorem fd_sets_bounded_iff (heap : Int → Mask) (maxclients : Nat) :
    (∀ evs, Always step Bounded (initServer none heap maxclients) evs) ↔
      loopSize maxclients < fdSetsize := by
  constructor
  · intro h
    by_contra hge
    have hover := fillAll_overflows heap (Int.not_lt.mp hge)
    generalize fillAll maxclients fdSetsize.toNat = evs at hover
    exact hover (h evs).last
  · intro hlt evs
    by_cases hneg : loopSize maxclients < 0
    · rw [initServer_panics heap hneg]
      exact always_panicked rfl ⟨Nat.zero_le _, Nat.zero_le _⟩ evs
    · have hpos : 0 ≤ loopSize maxclients := by omega
      have hstep : ∀ t ev, (ServerOk t ∧ t.el.setsize < fdSetsize) →
          ServerOk (step t ev) ∧ (step t ev).el.setsize < fdSetsize :=
        fun t ev ht => ⟨step_ok ht.1 ev, step_setsize t ev ht.1.fds ht.2⟩
      have hstart : (initServer none heap maxclients).el.setsize < fdSetsize := by
        rw [initServer_runs heap hpos]
        exact hlt
      exact (Always.of_step hstep ⟨initServer_ok heap hpos, hstart⟩ evs).mono
        fun t ht => ht.1.loop.bounded ht.2

/-- The default of 10000 clients: 1024 of them are accepted, and `rfds` holds 1025 descriptors. -/
theorem default_maxclients_overflows :
    ¬ Bounded (run step (initServer none (fun _ => aeNone) 10000) (fillAll 10000 1024)) :=
  fillAll_overflows _ (by decide)

/-! ## The table -/

/-- `maxfd` is -1 or the largest descriptor with a handler. -/
def MaxfdOk (el : EventLoop) : Prop :=
  el.maxfd = -1 ∨ 0 ≤ el.maxfd ∧ el.maxfd < el.setsize ∧ el.events el.maxfd ≠ aeNone ∧
    ∀ fd, el.maxfd < fd → fd < el.setsize → el.events fd = aeNone

/-- The index `fd` is in a table of size `setsize`, or one of the exceptions. -/
def InTable (exceptions : List Int) (fd setsize : Int) : Prop :=
  fd ∈ exceptions ∨ 0 ≤ fd ∧ fd < setsize

/-- All indices and descriptors are in range, apart from the exceptions. -/
structure IndicesOk (exceptions : List Int) (s : Server) : Prop where
  accesses : ∀ x ∈ s.el.accesses, InTable exceptions x.1 x.2
  rfds : ∀ fd ∈ s.el.rfds, InTable exceptions fd s.el.setsize
  wfds : ∀ fd ∈ s.el.wfds, InTable exceptions fd s.el.setsize
  maxfd : MaxfdOk s.el

theorem LoopOk.maxfdOk {el : EventLoop} (h : LoopOk el) : MaxfdOk el := by
  by_cases hneg : el.maxfd = -1
  · exact .inl hneg
  · have hleast := h.least
    exact .inr ⟨by omega, h.room, h.last hneg, h.above⟩

theorem SetOk.inTable {el : EventLoop} {bit : Mask → Bool} {set : List Int} (h : SetOk el bit set)
    (hroom : el.maxfd < el.setsize) : ∀ fd ∈ set, InTable [-1] fd el.setsize := by
  intro fd hfd
  obtain rfl | ⟨h0, hle, -⟩ := h.bits fd hfd
  · exact .inl (List.mem_singleton.mpr rfl)
  · exact .inr ⟨h0, by omega⟩

theorem ServerOk.indicesOk (h : ServerOk s) : IndicesOk [-1] s := by
  refine ⟨?_, h.loop.rfds.inTable h.loop.room, h.loop.wfds.inTable h.loop.room, h.loop.maxfdOk⟩
  intro x hx
  obtain hneg | hin := h.loop.accesses x hx
  · exact .inl (List.mem_singleton.mpr hneg)
  · exact .inr hin

theorem initServer_panicked_indicesOk (heap : Int → Mask) {maxclients : Nat}
    (h : loopSize maxclients < 0) (exceptions : List Int) :
    IndicesOk exceptions (initServer none heap maxclients) := by
  rw [initServer_panics heap h]
  exact ⟨nofun, nofun, nofun, .inl rfl⟩

/-- Without a pipe, all indices are in range only if the size of the table is negative, where the
server panics before it uses the table. In every run of every server -1 is the only index out of
range, and `maxfd` is right. -/
theorem event_indices_iff (heap : Int → Mask) (maxclients : Nat) (evs : List Event) :
    (Always step (IndicesOk []) (initServer none heap maxclients) evs ↔ loopSize maxclients < 0) ∧
      Always step (IndicesOk [-1]) (initServer none heap maxclients) evs := by
  refine ⟨⟨?_, ?_⟩, ?_⟩
  · intro h
    by_contra hge
    have hstart := h.head.accesses
    rw [initServer_runs heap (by omega)] at hstart
    obtain hmem | ⟨h0, -⟩ := hstart (-1, loopSize maxclients) (List.mem_singleton.mpr rfl)
    · cases hmem
    · have h0' : (0 : Int) ≤ -1 := h0
      exact absurd h0' (by decide)
  · intro hneg
    have hrun : (initServer none heap maxclients).running = false := by rw [initServer_panics heap hneg]
    exact always_panicked hrun (initServer_panicked_indicesOk heap hneg []) evs
  · by_cases hneg : loopSize maxclients < 0
    · have hrun : (initServer none heap maxclients).running = false := by
        rw [initServer_panics heap hneg]
      exact always_panicked hrun (initServer_panicked_indicesOk heap hneg [-1]) evs
    · have hstep : ∀ t ev, ServerOk t → ServerOk (step t ev) := fun t ev ht => step_ok ht ev
      exact (Always.of_step hstep (initServer_ok heap (by omega)) evs).mono fun t ht => ht.indicesOk

/-- The default start: `aeCreateFileEvent` uses the index -1, and -1 is in `rfds`. -/
theorem default_start_uses_minus_one :
    let s := initServer none (fun _ => aeNone) 10000
    s.running = true ∧ s.el.accesses = [(-1, 10128)] ∧ s.el.rfds = [-1] ∧ ¬ IndicesOk [] s := by
  refine ⟨by decide, by decide, by decide, ?_⟩
  intro h
  have hmem : ((-1, 10128) : Int × Int) ∈
      (initServer none (fun _ => aeNone) 10000).el.accesses := by decide
  obtain hin | ⟨h0, -⟩ := h.accesses _ hmem
  · cases hin
  · exact absurd h0 (by decide)

end WasiPorts.Redis.Ae
