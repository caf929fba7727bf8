import WasiPorts.Nginx.PipeDelivery

/-!
# A connection to an upstream server that fails

A transport error is returned by one `read`, and every later `read` returns 0. The loop of the WASI
build over the pieces drops an error that comes after a full piece: the call returns what it has read,
and the next call finds the end of the stream.

* `CutShort` — the failing read comes after full pieces in one call.
* `failure_reported_iff` — the failure is reported as an error, and never as the end of the response,
  exactly in the runs in which no call is cut short.
-/

namespace WasiPorts.Nginx

open WasiPorts.Memory WasiPorts.Run

/-! ## The failing read -/

/-- The read `f` fails, and every later one returns 0. -/
structure FailsAt (outcome : Nat → ReadOutcome) (f : Nat) : Prop where
  before : ∀ i < f, outcome i ≠ .eof ∧ ∀ code, outcome i ≠ .fail (.other code)
  fails : ∃ code, outcome f = .fail (.other code)
  after : ∀ i, f < i → outcome i = .eof

/-- The reads from `i` on fill whole pieces, until the read `f` has its turn. -/
def fillsUpTo (outcome : Nat → ReadOutcome) (f : Nat) : List Iovec → Nat → Bool
  | [], _ => false
  | v :: iovs, i =>
    if i = f then true
    else
      match outcome i with
      | .give _ bs => decide (v.len ≤ bs.length + 1) && fillsUpTo outcome f iovs (i + 1)
      | _ => false

/-- A call over the pieces `iovs`, after `calls` reads: once it is no longer interrupted, it fills at
least one piece, and then makes the read `f`. -/
def CutShort (outcome : Nat → ReadOutcome) (f : Nat) (iovs : List Iovec) (calls : Nat) : Prop :=
  ∃ s, calls ≤ s ∧ s < f ∧ (∀ i, calls ≤ i → i < s → outcome i = .fail .eintr) ∧
    fillsUpTo outcome f iovs s = true

variable {f : Nat} {u u' : Upstream} {iovs : List Iovec}

theorem read_give {s : Inlet} {b : Byte} {bs : List Byte} (h : s.outcome s.calls = .give b bs)
    (len : Nat) : s.read len = (.ok ((b :: bs).take len), { s with
      calls := s.calls + 1
      received := s.received ++ (b :: bs).take len }) := by
  unfold Inlet.read
  rw [h]

theorem read_fail {s : Inlet} {e : Errno} (h : s.outcome s.calls = .fail e) (len : Nat) :
    s.read len = (.error e, { s with calls := s.calls + 1 }) := by
  unfold Inlet.read
  rw [h]

/-- The loop over the pieces comes to the failing read. -/
theorem readSegments_reached (n : Nat) (hpos : ∀ iov ∈ iovs, 0 < iov.len)
    (hf : FailsAt u.socket.outcome f) (h : fillsUpTo u.socket.outcome f iovs u.socket.calls = true) :
    (readSegments iovs n u).2.socket.calls = f + 1 ∧
      (n = 0 → u.socket.calls = f → ∃ code, (readSegments iovs n u).1 = .error (.other code)) ∧
      (n ≠ 0 ∨ u.socket.calls ≠ f → ∃ m, 0 < m ∧ (readSegments iovs n u).1 = .ok m) := by
  induction iovs generalizing n u with
  | nil => cases h
  | cons iov iovs ih =>
      have hlen := hpos iov List.mem_cons_self
      unfold fillsUpTo at h
      unfold readSegments
      split at h
      · next hi =>
          obtain ⟨code, hcode⟩ := hf.fails
          rw [← hi] at hcode
          rw [read_fail hcode]
          dsimp only
          refine ⟨by rw [hi], fun hn _ => ⟨code, if_pos hn⟩, ?_⟩
          rintro (hn | hne)
          · exact ⟨n, Nat.pos_of_ne_zero hn, if_neg hn⟩
          · exact absurd hi hne
      · next hi =>
          split at h
          · next b bs hout =>
              obtain ⟨hfull, hrest⟩ := Bool.and_eq_true_iff.mp h
              have hfull' : iov.len ≤ bs.length + 1 := of_decide_eq_true hfull
              rw [read_give hout]
              have hxs : ((b :: bs).take iov.len).length = iov.len := by
                rw [List.length_take, List.length_cons]
                omega
              have hne : (b :: bs).take iov.len ≠ [] := by
                intro hnil
                rw [hnil] at hxs
                exact Nat.ne_of_gt hlen hxs.symm
              dsimp only
              rw [if_neg hne, if_neg (by omega)]
              generalize hu : Upstream.mk _ _ _ _ _ _ = u₁
              have hout₁ : u₁.socket.outcome = u.socket.outcome := by rw [← hu]
              have hcalls₁ : u₁.socket.calls = u.socket.calls + 1 := by rw [← hu]
              -- the next piece, with something read already
              rw [← hout₁] at hf
              rw [← hout₁, ← hcalls₁] at hrest
              obtain ⟨hcalls, -, hok⟩ := ih (n + ((b :: bs).take iov.len).length)
                (fun iov' h' => hpos iov' (List.mem_cons_of_mem iov h')) hf hrest
              refine ⟨hcalls, fun _ hf' => absurd hf' hi, fun _ => hok (.inl ?_)⟩
              omega
          · cases h

/-- The loop over the pieces stops before the failing read. -/
theorem readSegments_unreached (n : Nat) (hpos : ∀ iov ∈ iovs, 0 < iov.len)
    (hf : FailsAt u.socket.outcome f) (hle : u.socket.calls ≤ f)
    (h : fillsUpTo u.socket.outcome f iovs u.socket.calls = false) :
    (readSegments iovs n u).2.socket.calls ≤ f ∧
      (n ≠ 0 → ∃ m, 0 < m ∧ (readSegments iovs n u).1 = .ok m) ∧
      (n = 0 → iovs ≠ [] →
        (∃ m, 0 < m ∧ (readSegments iovs n u).1 = .ok m ∧
          u.socket.outcome u.socket.calls ≠ .fail .eintr) ∨
        (readSegments iovs n u).1 = .error .eagain ∧
          u.socket.outcome u.socket.calls = .fail .eagain ∨
        (readSegments iovs n u).1 = .error .eintr ∧
          u.socket.outcome u.socket.calls = .fail .eintr ∧
          (readSegments iovs n u).2.socket.calls = u.socket.calls + 1) := by
  induction iovs generalizing n u with
  | nil => exact ⟨hle, fun hn => ⟨n, Nat.pos_of_ne_zero hn, rfl⟩, fun _ hne => absurd rfl hne⟩
  | cons iov iovs ih =>
      have hlen := hpos iov List.mem_cons_self
      unfold fillsUpTo at h
      unfold readSegments
      split at h
      · cases h
      · next hi =>
          have hlt : u.socket.calls < f := Nat.lt_of_le_of_ne hle hi
          cases hout : u.socket.outcome u.socket.calls with
          | eof => exact absurd hout (hf.before _ hlt).1
          | fail e =>
              rw [read_fail hout]
              dsimp only
              refine ⟨hlt, fun hn => ⟨n, Nat.pos_of_ne_zero hn, if_neg hn⟩, ?_⟩
              intro hn _
              rw [if_pos hn]
              cases e with
              | eagain => exact .inr (.inl ⟨rfl, rfl⟩)
              | eintr => exact .inr (.inr ⟨rfl, rfl, rfl⟩)
              | other code => exact absurd hout ((hf.before _ hlt).2 code)
          | give b bs =>
              rw [hout] at h
              rw [read_give hout]
              have hne : (b :: bs).take iov.len ≠ [] := by
                obtain ⟨k, hk⟩ := Nat.exists_eq_succ_of_ne_zero (Nat.ne_of_gt hlen)
                rw [hk]
                simp
              have hxs := List.length_pos_iff.mpr hne
              dsimp only at h ⊢
              rw [if_neg hne]
              split
              · exact ⟨hlt, fun _ => ⟨_, by omega, rfl⟩, fun _ _ => .inl ⟨_, by omega, rfl, by simp⟩⟩
              · next hfull =>
                  have hfull' : iov.len ≤ bs.length + 1 := by
                    rw [List.length_take, List.length_cons] at hfull
                    omega
                  rw [decide_eq_true hfull', Bool.true_and] at h
                  generalize hu : Upstream.mk _ _ _ _ _ _ = u₁
                  have hout₁ : u₁.socket.outcome = u.socket.outcome := by rw [← hu]
                  have hcalls₁ : u₁.socket.calls = u.socket.calls + 1 := by rw [← hu]
                  rw [← hout₁] at hf
                  rw [← hout₁, ← hcalls₁] at h
                  obtain ⟨hcalls, hok, -⟩ := ih (n + ((b :: bs).take iov.len).length)
                    (fun iov' h' => hpos iov' (List.mem_cons_of_mem iov h')) hf
                    (Nat.le_trans (Nat.le_of_eq hcalls₁) hlt) h
                  obtain ⟨m, hm, hr⟩ := hok (by omega)
                  exact ⟨hcalls, fun _ => ⟨m, hm, hr⟩, fun _ _ => .inl ⟨m, hm, hr, by simp⟩⟩

/-- An interrupted call starts over. -/
theorem cutShort_interrupted {outcome : Nat → ReadOutcome} {calls : Nat}
    (hout : outcome calls = .fail .eintr) (h : fillsUpTo outcome f iovs calls = false) :
    CutShort outcome f iovs calls ↔ CutShort outcome f iovs (calls + 1) := by
  constructor
  · rintro ⟨s, hle, hlt, heintr, hfills⟩
    obtain rfl | hlt' := Nat.eq_or_lt_of_le hle
    · rw [h] at hfills
      cases hfills
    · exact ⟨s, hlt', hlt, fun i hi his => heintr i (Nat.le_of_succ_le hi) his, hfills⟩
  · rintro ⟨s, hle, hlt, heintr, hfills⟩
    refine ⟨s, Nat.le_of_succ_le hle, hlt, ?_, hfills⟩
    intro i hi his
    obtain rfl | hi' := Nat.eq_or_lt_of_le hi
    · exact hout
    · exact heintr i hi' his

/-- A call that is not interrupted at first. -/
theorem cutShort_start {outcome : Nat → ReadOutcome} {calls : Nat}
    (hout : outcome calls ≠ .fail .eintr) :
    CutShort outcome f iovs calls ↔ calls < f ∧ fillsUpTo outcome f iovs calls = true := by
  constructor
  · rintro ⟨s, hle, hlt, heintr, hfills⟩
    obtain rfl | hlt' := Nat.eq_or_lt_of_le hle
    · exact ⟨hlt, hfills⟩
    · exact absurd (heintr calls (Nat.le_refl _) hlt') hout
  · rintro ⟨hlt, hfills⟩
    exact ⟨calls, Nat.le_refl _, hlt, fun i hi his => absurd his (Nat.not_lt.mpr hi), hfills⟩

/-- What one call of `ngx_readv_chain` returns: the failure is lost if the call is cut short, and
reported otherwise. -/
def ReportsFailure (f : Nat) (iovs : List Iovec) (u : Upstream) (r : RecvResult) (u' : Upstream) :
    Prop :=
  (CutShort u.socket.outcome f iovs u.socket.calls →
    f < u'.socket.calls ∧ ∃ n, 0 < n ∧ r = .bytes n) ∧
  (¬ CutShort u.socket.outcome f iovs u.socket.calls →
    r ≠ .bytes 0 ∧ (f < u'.socket.calls → r = .error))

theorem readvLoop_failing {vec : ReadVec} {fuel : Nat} {r : RecvResult}
    (hpos : ∀ iov ∈ vec.iovs, 0 < iov.len) (hne : vec.iovs ≠ [])
    (hf : FailsAt u.socket.outcome f) (hlog : u.logError = .err) (hle : u.socket.calls ≤ f)
    (h : readvLoop vec fuel u = some (r, u')) : ReportsFailure f vec.iovs.reverse u r u' := by
  induction fuel generalizing u with
  | zero => cases h
  | succ fuel ih =>
      have hpos' : ∀ iov ∈ vec.iovs.reverse, 0 < iov.len :=
        fun iov hiov => hpos iov (List.mem_reverse.mp hiov)
      have hne' : vec.iovs.reverse ≠ [] := by simpa using hne
      obtain ⟨xs, hstored, -⟩ := readSegments_spec vec.iovs.reverse 0 u hpos'
      have ho := hstored.outcome
      have hl := hstored.logError
      unfold readvLoop at h
      cases hfills : fillsUpTo u.socket.outcome f vec.iovs.reverse u.socket.calls with
      | true =>
          obtain ⟨hcalls, herr, hok⟩ := readSegments_reached 0 hpos' hf hfills
          generalize readSegments vec.iovs.reverse 0 u = r₀ at h ho hl hcalls herr hok
          obtain ⟨r₀, u₀⟩ := r₀
          by_cases hcf : u.socket.calls = f
          · -- the failing read is the first one
            obtain ⟨code, hr⟩ := herr rfl hcf
            obtain rfl : r₀ = .error (.other code) := hr
            have hign : errorIgnored u₀.logError code = false := by
              rw [hl, hlog]
              simp [errorIgnored]
            dsimp only at h
            rw [hign] at h
            cases h
            refine ⟨?_, fun _ => ⟨by simp, fun _ => rfl⟩⟩
            rintro ⟨s, hs, hsf, -⟩
            omega
          · obtain ⟨m, hm, hr⟩ := hok (.inr hcf)
            obtain rfl : r₀ = .ok m := hr
            dsimp only at h
            rw [if_neg (Nat.ne_of_gt hm)] at h
            cases h
            refine ⟨fun _ => ⟨Nat.lt_of_lt_of_eq (Nat.lt_succ_self f) hcalls.symm, m, hm, rfl⟩, ?_⟩
            intro hncut
            exact absurd ⟨_, Nat.le_refl _, Nat.lt_of_le_of_ne hle hcf,
              fun i hi his => absurd his (Nat.not_lt.mpr hi), hfills⟩ hncut
      | false =>
          obtain ⟨hcalls, -, hres⟩ := readSegments_unreached 0 hpos' hf hle hfills
          have hres := hres rfl hne'
          generalize readSegments vec.iovs.reverse 0 u = r₀ at h ho hl hcalls hres
          obtain ⟨r₀, u₀⟩ := r₀
          have hcalls' : ¬ f < u₀.socket.calls := Nat.not_lt.mpr hcalls
          obtain ⟨m, hm, hr, hout⟩ | ⟨hr, hout⟩ | ⟨hr, hout, hnext⟩ := hres
          · obtain rfl : r₀ = .ok m := hr
            dsimp only at h
            rw [if_neg (Nat.ne_of_gt hm)] at h
            cases h
            refine ⟨fun hcut => ?_, fun _ => ⟨?_, fun hlt => absurd hlt hcalls'⟩⟩
            · rw [cutShort_start hout, hfills] at hcut
              cases hcut.2
            · intro h0
              cases h0
              exact Nat.lt_irrefl 0 hm
          · obtain rfl : r₀ = .error .eagain := hr
            cases h
            refine ⟨fun hcut => ?_, fun _ => ⟨by simp, fun hlt => absurd hlt hcalls'⟩⟩
            rw [cutShort_start (by simp [hout]), hfills] at hcut
            cases hcut.2
          · obtain rfl : r₀ = .error .eintr := hr
            have hnext' : u₀.socket.calls = u.socket.calls + 1 := hnext
            have hrec := ih (u := u₀) (ho ▸ hf) (hl.trans hlog) hcalls h
            unfold ReportsFailure at hrec ⊢
            rw [cutShort_interrupted hout hfills, ← hnext', ← ho]
            exact hrec

/-- One call of `ngx_readv_chain` on a failing connection. -/
theorem ngxReadvChain_failing {fuel limit : Nat} {chain : List RawBuf} {r : RecvResult}
    (hok : ∀ b ∈ chain, b.Ok) (hne : chain ≠ []) (hf : FailsAt u.socket.outcome f)
    (hlog : u.logError = .err) (hle : u.socket.calls ≤ f)
    (h : ngxReadvChain fuel chain limit u = some (r, u')) :
    ReportsFailure f (readvVec ngxIovsPreallocate limit chain .start).iovs.reverse u r u' := by
  obtain ⟨k, -, -, hiovs, hcov⟩ := readVector_spec limit hok hne
  exact readvLoop_failing hcov.pos hiovs hf hlog hle h

/-! ## What leaves the report alone -/

/-- Nothing is read, and nothing is reported. -/
structure SameReport (p q : Pipe) : Prop where
  socket : q.up.socket = p.up.socket
  logError : q.up.logError = p.up.logError
  upstreamEof : q.upstreamEof = p.upstreamEof
  upstreamError : q.upstreamError = p.upstreamError

variable {p q : Pipe}

theorem SameReport.refl (p : Pipe) : SameReport p p := ⟨rfl, rfl, rfl, rfl⟩

theorem SameReport.trans {r : Pipe} (h : SameReport p q) (h' : SameReport q r) : SameReport p r :=
  ⟨h'.socket.trans h.socket, h'.logError.trans h.logError, h'.upstreamEof.trans h.upstreamEof,
    h'.upstreamError.trans h.upstreamError⟩

theorem SameInput.report (h : SameInput p q) : SameReport p q :=
  ⟨by rw [h.up], by rw [h.up], h.upstreamEof, h.upstreamError⟩

theorem deliver_report (chain : List RawBuf) (n : Nat) (p : Pipe) :
    SameReport p (deliver chain n p) := by
  have hsame := (distribute_same chain n
    { p with readLength := p.readLength + n, freeRawBufs := [] }).report
  unfold deliver
  dsimp only
  generalize distribute chain n { p with readLength := p.readLength + n, freeRawBufs := [] } = r
    at hsame
  obtain ⟨ok, cl, q⟩ := r
  have hq : SameReport p q :=
    ⟨hsame.socket, hsame.logError, hsame.upstreamEof, hsame.upstreamError⟩
  cases ok with
  | false => exact hq.trans ⟨rfl, rfl, rfl, rfl⟩
  | true =>
      generalize (if p.limitRate = 0 then 0 else n * 1000 / p.limitRate) = delay
      dsimp only
      split
      · exact hq.trans ⟨rfl, rfl, rfl, rfl⟩
      · exact hq.trans ⟨rfl, rfl, rfl, rfl⟩

theorem finishLength_report (p : Pipe) : SameReport p (finishLength p) := by
  unfold finishLength
  split
  · next b rest length hfree hlength =>
      split
      · have hsame := (handOut_same { p with freeRawBufs := rest } b b).report
        have hq : SameReport p (handOut { p with freeRawBufs := rest } b b) :=
          ⟨hsame.socket, hsame.logError, hsame.upstreamEof, hsame.upstreamError⟩
        show SameReport p (if _ then
          { handOut { p with freeRawBufs := rest } b b with phase := .aborted }
          else handOut { p with freeRawBufs := rest } b b)
        split
        · exact hq.trans ⟨rfl, rfl, rfl, rfl⟩
        · exact hq
      · exact .refl p
  · exact .refl p

theorem finishEnd_report (p : Pipe) : SameReport p (finishEnd p) := by
  unfold finishEnd
  split
  · exact .refl p
  · split
    · dsimp only
      split
      · exact ⟨rfl, rfl, rfl, rfl⟩
      · exact ⟨rfl, rfl, rfl, rfl⟩
    · exact .refl p

theorem finishDone_report (p : Pipe) : SameReport p (finishDone p) := by
  unfold finishDone
  split
  · exact ⟨rfl, rfl, rfl, rfl⟩
  · exact .refl p

theorem finish_report (p : Pipe) : SameReport p (finish p) := by
  have hlength := finishLength_report p
  unfold finish unlessAborted
  split
  · exact hlength
  · have hend := (hlength.trans (finishDone_report _)).trans (finishEnd_report _)
    dsimp only
    split
    · exact hend
    · exact hend.trans ⟨rfl, rfl, rfl, rfl⟩

theorem save_report (write : Option TempWrite) (p : Pipe) : SameReport p (save write p) := by
  unfold save
  split
  · exact ⟨rfl, rfl, rfl, rfl⟩
  · split
    · split
      · exact ⟨rfl, rfl, rfl, rfl⟩
      · exact ⟨rfl, rfl, rfl, rfl⟩
      · exact ⟨rfl, rfl, rfl, rfl⟩
    · exact ⟨rfl, rfl, rfl, rfl⟩

/-- Only a turn of the loop reads. -/
theorem pipeStep_report (fuel : Nat) (p : Pipe) (ev : PipeEvent)
    (h : ∀ env, ev = .turn env → p.phase ≠ .loop) : SameReport p (pipeStep fuel p ev) := by
  unfold pipeStep
  split
  · unfold enter
    dsimp only
    split
    · exact ⟨rfl, rfl, rfl, rfl⟩
    · exact ⟨rfl, rfl, rfl, rfl⟩
  · next env hphase => exact absurd hphase (h env rfl)
  · exact finish_report p
  · exact save_report _ p
  · exact (addFreeBuf_same p _).report
  · exact ⟨rfl, rfl, rfl, rfl⟩
  · exact ⟨rfl, rfl, rfl, rfl⟩
  · exact .refl p

/-! ## A turn of the loop -/

/-- The chain and the limit of the read of a turn, if it reads. -/
def readOfTurn (env : TurnEnv) (p : Pipe) : Option (List RawBuf × Nat) :=
  if p.upstreamEof || p.upstreamError || p.upstreamDone then none
  else if p.prereadBufs ≠ [] ∨ p.up.ready = false then none
  else if p.limitRate ≠ 0 ∧ (p.delayed ∨ rateLimit p env.elapsed ≤ 0) then none
  else
    match pickChain env p with
    | .stop _ => none
    | .into chain _ _ =>
      some (chain, if p.limitRate = 0 then 0 else (rateLimit p env.elapsed).toNat)

/-- The pipe after the choice of the chain. -/
def Pick.Same (p : Pipe) : Pick → Prop
  | .stop q => SameReport p q
  | .into _ _ q => q.up = p.up ∧ SameReport p q

theorem pickFree_same (h : SameReport p q) (hup : q.up = p.up) : (pickFree q).Same p := by
  unfold pickFree
  split
  · exact ⟨hup, h⟩
  · exact ⟨hup, h⟩

theorem pickChain_same (env : TurnEnv) (p : Pipe) : (pickChain env p).Same p := by
  unfold pickChain
  split
  · exact pickFree_same (.refl p) rfl
  · split
    · split
      · exact ⟨rfl, rfl, rfl, rfl⟩
      · exact ⟨rfl, rfl, rfl, rfl, rfl⟩
    · split
      · exact ⟨rfl, rfl, rfl, rfl⟩
      · split
        · split
          · exact ⟨rfl, rfl, rfl, rfl⟩
          · exact ⟨rfl, rfl, rfl, rfl⟩
          · exact pickFree_same ⟨rfl, rfl, rfl, rfl⟩ rfl
        · exact ⟨rfl, rfl, rfl, rfl⟩

/-- A turn that does not read. -/
theorem turn_report (fuel : Nat) {env : TurnEnv} (h : readOfTurn env p = none) :
    SameReport p (turn fuel env p) := by
  unfold readOfTurn at h
  unfold turn
  split
  · exact ⟨rfl, rfl, rfl, rfl⟩
  · next hflags =>
      rw [if_neg hflags] at h
      split
      · exact ⟨rfl, rfl, rfl, rfl⟩
      · next hready =>
          split
          · have hsame := deliver_report p.prereadBufs p.prereadSize { p with
              prereadBufs := []
              read := p.read || decide (p.prereadSize ≠ 0) }
            exact ⟨hsame.socket, hsame.logError, hsame.upstreamEof, hsame.upstreamError⟩
          · next hpre =>
              have hpre' : p.prereadBufs = [] := not_not.mp hpre
              have hready' : p.up.ready ≠ false := fun hr => hready ⟨hpre', hr⟩
              rw [if_neg (by simp [hpre', hready'])] at h
              split
              · exact ⟨rfl, rfl, rfl, rfl⟩
              · next hdelayed =>
                  split
                  · exact ⟨rfl, rfl, rfl, rfl⟩
                  · next hlimit =>
                      rw [if_neg (by tauto)] at h
                      have hpick := pickChain_same env p
                      dsimp only
                      generalize pickChain env p = pick at h hpick
                      cases pick with
                      | stop q => exact hpick
                      | into cl rest q => cases h

/-- A turn that reads. -/
theorem turn_reads (fuel : Nat) {env : TurnEnv} {chain : List RawBuf} {limit : Nat}
    (h : readOfTurn env p = some (chain, limit)) :
    ∃ rest q, pickChain env p = .into chain rest q ∧
      turn fuel env p = recvInto fuel limit chain rest q ∧ p.prereadBufs = [] ∧
      p.upstreamError = false := by
  unfold readOfTurn at h
  split at h
  · cases h
  · next hflags =>
      split at h
      · cases h
      · next hready =>
          split at h
          · cases h
          · next hrate =>
              push Not at hready
              have herr : p.upstreamError = false := by
                simp only [Bool.or_eq_true, not_or, Bool.not_eq_true] at hflags
                exact hflags.1.2
              unfold turn
              rw [if_neg hflags, if_neg (by tauto), if_neg (by tauto), if_neg (by tauto),
                if_neg (by tauto)]
              generalize pickChain env p = pick at h
              cases pick with
              | stop q => cases h
              | into cl rest q =>
                  cases h
                  exact ⟨rest, q, rfl, rfl, hready.1, herr⟩

/-- What a read does to the report. -/
theorem recvInto_report {fuel limit : Nat} {chain : List RawBuf} (rest : List RawBuf)
    {r : RecvResult} {up : Upstream} (hne : chain ≠ [])
    (h : ngxReadvChain fuel chain limit q.up = some (r, up)) :
    (recvInto fuel limit chain rest q).up.socket = up.socket ∧
      (recvInto fuel limit chain rest q).up.logError = up.logError ∧
      (recvInto fuel limit chain rest q).upstreamEof =
        (q.upstreamEof || decide (r = .bytes 0)) ∧
      (recvInto fuel limit chain rest q).upstreamError =
        (q.upstreamError || decide (r = .error)) := by
  unfold recvInto
  rw [if_neg hne, h]
  cases r with
  | error => exact ⟨rfl, rfl, (Bool.or_false _).symm, (Bool.or_true _).symm⟩
  | again => exact ⟨rfl, rfl, (Bool.or_false _).symm, (Bool.or_false _).symm⟩
  | bytes n =>
      dsimp only
      split
      · next h0 =>
          subst h0
          exact ⟨rfl, rfl, (Bool.or_true _).symm, (Bool.or_false _).symm⟩
      · next h0 =>
          have hsame := deliver_report (chain ++ rest) n
            { q with up := up, freeRawBufs := chain ++ rest, read := true }
          have hn : (RecvResult.bytes n = .bytes 0) ↔ False := by
            constructor
            · rintro ⟨⟩
              exact h0 rfl
            · exact False.elim
          refine ⟨hsame.socket, hsame.logError, hsame.upstreamEof.trans ?_,
            hsame.upstreamError.trans (Bool.or_false _).symm⟩
          simp [hn]

/-- A read that does not return. -/
theorem recvInto_hung {fuel limit : Nat} {chain : List RawBuf} (rest : List RawBuf)
    (h : chain = [] ∨ ngxReadvChain fuel chain limit q.up = none) :
    SameReport q (recvInto fuel limit chain rest q) := by
  unfold recvInto
  split
  · exact ⟨rfl, rfl, rfl, rfl⟩
  · next hne =>
      obtain hnil | hnone := h
      · exact absurd hnil hne
      · rw [hnone]
        exact ⟨rfl, rfl, rfl, rfl⟩

/-! ## Runs -/

/-- The failure is not reported as the end of the response, and once it has happened it is reported
as an error. -/
def FailureReported (f : Nat) (p : Pipe) : Prop :=
  p.upstreamEof = false ∧ (f < p.up.socket.calls → p.upstreamError = true)

instance (f : Nat) (p : Pipe) : Decidable (FailureReported f p) :=
  inferInstanceAs (Decidable (_ ∧ _))

/-- The failing read does not come after full pieces in a call of `ngx_readv_chain`. -/
def FailureApart (f : Nat) (p : Pipe) : PipeEvent → Prop
  | .turn env => p.phase = .loop → ∀ chain limit, readOfTurn env p = some (chain, limit) →
      ¬ CutShort p.up.socket.outcome f
        (readvVec ngxIovsPreallocate limit chain .start).iovs.reverse p.up.socket.calls
  | _ => True

structure FailureInv (f : Nat) (p : Pipe) : Prop where
  intact : Intact p
  fails : FailsAt p.up.socket.outcome f
  logError : p.up.logError = .err
  reported : FailureReported f p

theorem FailureInv.of_report (h : FailureInv f p) (hq : Intact q) (hsame : SameReport p q) :
    FailureInv f q := by
  refine ⟨hq, ?_, hsame.logError.trans h.logError, ?_⟩
  · rw [hsame.socket]
    exact h.fails
  · unfold FailureReported
    rw [hsame.upstreamEof, hsame.socket, hsame.upstreamError]
    exact h.reported

/-- A turn that reads: the chain, and what the read returns. -/
theorem FailureInv.turn_reads (h : FailureInv f p) (fuel : Nat) {env : TurnEnv}
    {chain : List RawBuf} {limit : Nat} (hphase : p.phase = .loop) (hown : OwnedEvent p (.turn env))
    (hread : readOfTurn env p = some (chain, limit)) :
    ∃ rest q, SameReport p q ∧ q.up = p.up ∧ turn fuel env p = recvInto fuel limit chain rest q ∧
      (∀ b ∈ chain, b.Ok) ∧ p.upstreamError = false ∧ p.up.socket.calls ≤ f := by
  obtain ⟨rest, q, hpick, hturn, hpre, herr⟩ := Nginx.turn_reads fuel hread
  have hok := pickChain_ok env (h.intact.pipeOk (by rw [hphase]; nofun)) hpre hown
  have hsame := pickChain_same env p
  rw [hpick] at hok hsame
  refine ⟨rest, q, hsame.2, hsame.1, hturn, ?_, herr, ?_⟩
  · intro b hb
    exact (hok.2.1.bufs b (List.mem_append_left rest hb)).ok
  · by_contra hlt
    have := h.reported.2 (Nat.lt_of_not_le hlt)
    rw [herr] at this
    cases this

theorem turn_reported (fuel : Nat) {env : TurnEnv} (h : FailureInv f p) (hphase : p.phase = .loop)
    (hown : OwnedEvent p (.turn env)) (hapart : FailureApart f p (.turn env)) :
    FailureInv f (turn fuel env p) := by
  have hintact := turn_intact fuel env (h.intact.pipeOk (by rw [hphase]; nofun)) hown
  cases hread : readOfTurn env p with
  | none => exact h.of_report hintact (turn_report fuel hread)
  | some cl =>
      obtain ⟨chain, limit⟩ := cl
      obtain ⟨rest, q, hsame, hup, hturn, hok, herr, hcalls⟩ := h.turn_reads fuel hphase hown hread
      rw [hturn] at hintact ⊢
      by_cases hhung : chain = [] ∨ ngxReadvChain fuel chain limit q.up = none
      · exact h.of_report hintact (hsame.trans (recvInto_hung rest hhung))
      · push Not at hhung
        obtain ⟨hne, hsome⟩ := hhung
        obtain ⟨⟨r, up⟩, hr⟩ := Option.ne_none_iff_exists'.mp hsome
        obtain ⟨xs, hstored, -, -⟩ := ngxReadvChain_spec hok hne hr
        obtain ⟨hsock, hlog, heof', herr'⟩ := recvInto_report rest hne hr
        rw [hup] at hr
        -- the failure, if it is read now, is returned as an error
        have hrep := (ngxReadvChain_failing hok hne h.fails h.logError hcalls hr).2
          (hapart hphase chain limit hread)
        refine ⟨hintact, ?_, ?_, ?_, ?_⟩
        · rw [hsock, hstored.outcome, hup]
          exact h.fails
        · rw [hlog, hstored.logError, hup]
          exact h.logError
        · rw [heof', hsame.upstreamEof, h.reported.1, decide_eq_false hrep.1]
          rfl
        · rw [hsock, herr']
          intro hlt
          rw [decide_eq_true (hrep.2 hlt), Bool.or_true]

/-- A turn in which the failing read comes after full pieces. -/
theorem turn_loses_failure {fuel : Nat} {env : TurnEnv} {chain : List RawBuf} {limit : Nat}
    (h : FailureInv f p) (hphase : p.phase = .loop) (hown : OwnedEvent p (.turn env))
    (hfuel : f < fuel) (hread : readOfTurn env p = some (chain, limit))
    (hcut : CutShort p.up.socket.outcome f
      (readvVec ngxIovsPreallocate limit chain .start).iovs.reverse p.up.socket.calls) :
    ¬ FailureReported f (turn fuel env p) := by
  obtain ⟨rest, q, hsame, hup, hturn, hok, herr, hcalls⟩ := h.turn_reads fuel hphase hown hread
  have hne : chain ≠ [] := by
    rintro rfl
    obtain ⟨s, -, -, -, hfills⟩ := hcut
    cases hfills
  -- from the failing read on no call is interrupted
  have hfin : p.up.socket.FinitelyInterrupted f := by
    intro i hi hout
    obtain rfl | hlt := Nat.eq_or_lt_of_le hi
    · obtain ⟨code, hcode⟩ := h.fails.fails
      rw [hcode] at hout
      cases hout
    · rw [h.fails.after i hlt] at hout
      cases hout
  obtain ⟨⟨r, up⟩, hr⟩ := Option.isSome_iff_exists.mp
    (ngxReadvChain_isSome limit hok hne hfin (by omega : f - p.up.socket.calls < fuel))
  obtain ⟨hlt, n, hn, hbytes⟩ :=
    (ngxReadvChain_failing hok hne h.fails h.logError hcalls hr).1 hcut
  rw [← hup] at hr
  obtain ⟨hsock, -, -, herr'⟩ := recvInto_report rest hne hr
  rw [hturn]
  rintro ⟨-, himp⟩
  have := himp (by rw [hsock]; exact hlt)
  rw [herr', hsame.upstreamError, herr, hbytes] at this
  cases this

theorem pipeStep_reported (fuel : Nat) {ev : PipeEvent} (h : FailureInv f p)
    (hown : OwnedEvent p ev) (hapart : FailureApart f p ev) : FailureInv f (pipeStep fuel p ev) := by
  by_cases hturn : ∀ env, ev = .turn env → p.phase ≠ .loop
  · exact h.of_report (pipeStep_intact fuel ev h.intact hown) (pipeStep_report fuel p ev hturn)
  · push Not at hturn
    obtain ⟨env, rfl, hphase⟩ := hturn
    have hstep : pipeStep fuel p (.turn env) = turn fuel env p := by
      unfold pipeStep
      rw [hphase]
    rw [hstep]
    exact turn_reported fuel h hphase hown hapart

theorem pipeStep_loses_failure {fuel : Nat} {ev : PipeEvent} (hfuel : f < fuel)
    (h : FailureInv f p) (hown : OwnedEvent p ev) (hcut : ¬ FailureApart f p ev) :
    ¬ FailureReported f (pipeStep fuel p ev) := by
  cases ev with
  | turn env =>
      unfold FailureApart at hcut
      push Not at hcut
      obtain ⟨hphase, chain, limit, hread, hcut⟩ := hcut
      have hstep : pipeStep fuel p (.turn env) = turn fuel env p := by
        unfold pipeStep
        rw [hphase]
      rw [hstep]
      exact turn_loses_failure h hphase hown hfuel hread hcut
  | enter => exact absurd trivial hcut
  | finish => exact absurd trivial hcut
  | save write => exact absurd trivial hcut
  | recycle b => exact absurd trivial hcut
  | ready => exact absurd trivial hcut
  | timer => exact absurd trivial hcut

/-- A connection that has not failed yet will fail at the read `f`. In every run the failure is
reported as an error, and never as the end of the response, exactly if the failing read does not come
after full pieces in its call of `ngx_readv_chain`. -/
theorem failure_reported_iff (fuel f : Nat) (p : Pipe) (evs : List PipeEvent) (hp : PipeOk p)
    (hfails : FailsAt p.up.socket.outcome f) (hcalls : p.up.socket.calls ≤ f)
    (hlog : p.up.logError = .err) (heof : p.upstreamEof = false) (hfuel : f < fuel)
    (hown : Meets (pipeStep fuel) OwnedEvent p evs) :
    Always (pipeStep fuel) (FailureReported f) p evs ↔
      Meets (pipeStep fuel) (FailureApart f) p evs := by
  have hinv : FailureInv f p :=
    ⟨hp.intact, hfails, hlog, heof, fun hlt => absurd hlt (Nat.not_lt.mpr hcalls)⟩
  exact always_iff_meets_of (fun q hq => hq.reported)
    (fun q ev hq hev hok => pipeStep_reported fuel hq hev hok)
    (fun q ev hq hev hcut => pipeStep_loses_failure hfuel hq hev hcut) hinv hown

/-- One buffer of four bytes. Two bytes arrive, then the connection fails. -/
theorem failure_after_short_read_reported :
    let outcome : Nat → ReadOutcome
      | 0 => .give 1 [2]
      | 1 => .fail (.other econnreset)
      | _ => .eof
    let env : TurnEnv := ⟨0, none, false, false, .busy⟩
    let p := Pipe.start [.fresh 100 104] outcome
    let evs := [PipeEvent.enter, .turn env, .turn env, .finish, .save none, .ready, .enter,
      .turn env, .turn env, .finish, .save none]
    Always (pipeStep 3) (FailureReported 1) p evs ∧ Meets (pipeStep 3) (FailureApart 1) p evs ∧
      (run (pipeStep 3) p evs).upstreamError = true := by
  intro outcome env p evs
  have hp : PipeOk p := Pipe.start_ok outcome (by decide) (by decide) (by decide)
  have hfails : FailsAt p.up.socket.outcome 1 := by
    refine ⟨?_, ⟨econnreset, rfl⟩, ?_⟩
    · intro i hi
      obtain rfl : i = 0 := by omega
      exact ⟨nofun, nofun⟩
    · intro i hi
      obtain ⟨k, rfl⟩ := Nat.exists_eq_add_of_le' hi
      rfl
  have hown : Meets (pipeStep 3) OwnedEvent p evs :=
    ⟨trivial, ⟨nofun, nofun⟩, ⟨nofun, nofun⟩, trivial, trivial, trivial, trivial, ⟨nofun, nofun⟩,
      ⟨nofun, nofun⟩, trivial, trivial, trivial⟩
  have hall : Always (pipeStep 3) (FailureReported 1) p evs := by decide +kernel
  have hiff := failure_reported_iff 3 1 p evs hp hfails (by decide) rfl rfl (by decide) hown
  exact ⟨hall, hiff.mp hall, by decide +kernel⟩

/-- Two buffers of four bytes. Four bytes arrive, and the connection fails: the response ends as if
it were complete. -/
theorem failure_taken_for_end :
    let outcome : Nat → ReadOutcome
      | 0 => .give 1 [2, 3, 4]
      | 1 => .fail (.other econnreset)
      | _ => .eof
    let env : TurnEnv := ⟨0, none, false, false, .busy⟩
    let p := Pipe.start [.fresh 100 104, .fresh 200 204] outcome
    let evs := [PipeEvent.enter, .turn env, .turn env, .finish, .save none, .ready, .enter,
      .turn env, .turn env, .finish, .save none]
    let q := run (pipeStep 3) p evs
    PipeOk p ∧ FailsAt outcome 1 ∧ Meets (pipeStep 3) OwnedEvent p evs ∧ p.up.logError = .err ∧
      q.phase = .idle ∧ 1 < q.up.socket.calls ∧ q.upstreamEof = true ∧ q.upstreamError = false := by
  intro outcome env p evs q
  have hfails : FailsAt outcome 1 := by
    refine ⟨?_, ⟨econnreset, rfl⟩, ?_⟩
    · intro i hi
      obtain rfl : i = 0 := by omega
      exact ⟨nofun, nofun⟩
    · intro i hi
      obtain ⟨k, rfl⟩ := Nat.exists_eq_add_of_le' hi
      rfl
  have hown : Meets (pipeStep 3) OwnedEvent p evs :=
    ⟨trivial, ⟨nofun, nofun⟩, ⟨nofun, nofun⟩, trivial, trivial, trivial, trivial, ⟨nofun, nofun⟩,
      ⟨nofun, nofun⟩, trivial, trivial, trivial⟩
  exact ⟨Pipe.start_ok outcome (by decide) (by decide) (by decide), hfails, hown, rfl,
    by decide +kernel, by decide +kernel, by decide +kernel, by decide +kernel⟩

end WasiPorts.Nginx
