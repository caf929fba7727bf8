import WasiPorts.Nginx.Writev

/-!
# Reading into a chain of raw buffers

`ngx_readv_chain`: the free space of the buffers is described by at most 64 pieces of memory,
joining neighbours, up to a limit, and the WASI build then reads piece by piece until a `read` falls
short.

The pieces are the free addresses of the chain in order (`readvVec_spec`), so what is read goes to
the first free addresses (`Stored`), and the count that is returned says how many.
-/

namespace WasiPorts.Nginx

open WasiPorts.Memory

/-! ## The function -/

/-- `ngx_buf_t` as a raw buffer; `stop` is its field `end`. -/
structure RawBuf where
  start : Nat
  pos : Nat
  last : Nat
  stop : Nat
  deriving DecidableEq, Repr

/-- The local variables of the first loop of `ngx_readv_chain`. The latest piece is the first of
`iovs`. -/
structure ReadVec where
  iovs : List Iovec
  prev : Option Nat
  size : Nat
  deriving DecidableEq, Repr

def ReadVec.start : ReadVec := ⟨[], none, 0⟩

/-- The latest piece grows by `n`. -/
def ReadVec.grow (v : ReadVec) (n stop : Nat) : ReadVec :=
  ⟨match v.iovs with
    | [] => []
    | iov :: iovs => { iov with len := iov.len + n } :: iovs,
    some stop, v.size + n⟩

/-- A new piece. -/
def ReadVec.push (v : ReadVec) (base n stop : Nat) : ReadVec :=
  ⟨⟨base, n⟩ :: v.iovs, some stop, v.size + n⟩

/-- The first loop of `ngx_readv_chain`. -/
def readvVec (nalloc limit : Nat) : List RawBuf → ReadVec → ReadVec
  | [], v => v
  | b :: chain, v =>
    if limit ≠ 0 ∧ limit ≤ v.size then v
    else
      let room := b.stop - b.last
      let n := if limit ≠ 0 ∧ limit < v.size + room then limit - v.size else room
      if v.prev = some b.last then readvVec nalloc limit chain (v.grow n b.stop)
      else if v.iovs.length = nalloc then v
      else readvVec nalloc limit chain (v.push b.last n b.stop)

/-- `ngx_connection_t::log_error`. -/
inductive LogError where
  | alert | err | info | ignoreEconnreset | ignoreEinval | ignoreEmsgsize
  deriving DecidableEq, Repr

def econnreset : Nat := 15

def emsgsize : Nat := 35

/-- `ngx_connection_error` returns 0, not `NGX_ERROR`. -/
def errorIgnored (log : LogError) (code : Nat) : Bool :=
  decide (code = econnreset ∧ log = .ignoreEconnreset ∨ code = emsgsize ∧ log = .ignoreEmsgsize)

/-- The connection to the upstream server, and the memory it reads into. -/
structure Upstream where
  mem : Nat → Byte
  socket : Inlet
  /-- `c->read->ready`. -/
  ready : Bool
  /-- `c->read->eof`. -/
  eof : Bool
  /-- `c->read->error`. -/
  error : Bool
  logError : LogError

/-- The loop of the WASI build that reads piece by piece. -/
def readSegments : List Iovec → Nat → Upstream → Except Errno Nat × Upstream
  | [], n, u => (.ok n, u)
  | v :: iovs, n, u =>
    match u.socket.read v.len with
    | (.error e, s) => (if n = 0 then .error e else .ok n, { u with socket := s })
    | (.ok xs, s) =>
      let u := { u with
        socket := s
        mem := scatter u.mem (List.range' v.base xs.length) xs }
      if xs = [] then (.ok n, u)
      else if xs.length < v.len then (.ok (n + xs.length), u)
      else readSegments iovs (n + xs.length) u

/-- The results of `ngx_readv_chain`. -/
inductive RecvResult where
  | bytes (n : Nat)
  | again
  | error
  deriving DecidableEq, Repr

/-- The `do` loop of `ngx_readv_chain`; `none` if it does not end within the fuel. -/
def readvLoop (vec : ReadVec) : Nat → Upstream → Option (RecvResult × Upstream)
  | 0, _ => none
  | fuel + 1, u =>
    match readSegments vec.iovs.reverse 0 u with
    | (.ok n, u) =>
      if n = 0 then some (.bytes 0, { u with ready := false, eof := true })
      else some (.bytes n, { u with ready := u.ready && decide (vec.size ≤ n) })
    | (.error .eagain, u) => some (.again, { u with ready := false })
    | (.error .eintr, u) => readvLoop vec fuel u
    | (.error (.other code), u) =>
      if errorIgnored u.logError code then some (.bytes 0, { u with ready := false })
      else some (.error, { u with ready := false, error := true })

/-- `ngx_readv_chain`. -/
def ngxReadvChain (fuel : Nat) (chain : List RawBuf) (limit : Nat) (u : Upstream) :
    Option (RecvResult × Upstream) :=
  readvLoop (readvVec ngxIovsPreallocate limit chain .start) fuel u

/-! ## Free space -/

/-- A raw buffer with free space. -/
def RawBuf.Ok (b : RawBuf) : Prop := b.start ≤ b.pos ∧ b.pos ≤ b.last ∧ b.last < b.stop

instance (b : RawBuf) : Decidable b.Ok := inferInstanceAs (Decidable (_ ∧ _))

/-- The addresses of the free space, in order. -/
def freeAddrs (chain : List RawBuf) : List Nat :=
  chain.flatMap fun b => List.range' b.last (b.stop - b.last)

/-- The addresses of the pieces, in order. -/
def pieceAddrs (iovs : List Iovec) : List Nat := iovs.flatMap fun v => List.range' v.base v.len

variable {b : RawBuf} {chain : List RawBuf} {v : ReadVec} {addrs : List Nat}

@[simp] theorem freeAddrs_nil : freeAddrs [] = [] := rfl

@[simp] theorem freeAddrs_cons :
    freeAddrs (b :: chain) = List.range' b.last (b.stop - b.last) ++ freeAddrs chain :=
  List.flatMap_cons

theorem pieceAddrs_append (as bs : List Iovec) :
    pieceAddrs (as ++ bs) = pieceAddrs as ++ pieceAddrs bs :=
  List.flatMap_append

theorem pieceAddrs_singleton (iov : Iovec) :
    pieceAddrs [iov] = List.range' iov.base iov.len := by
  simp [pieceAddrs]

/-! ## The vector -/

/-- The vector describes the addresses `addrs`. The end of the last piece is known as long as the
limit is not reached. -/
structure ReadVec.Covers (limit : Nat) (v : ReadVec) (addrs : List Nat) : Prop where
  pieces : pieceAddrs v.iovs.reverse = addrs
  size : v.size = addrs.length
  pos : ∀ iov ∈ v.iovs, 0 < iov.len
  prev : ∀ p, v.prev = some p → limit = 0 ∨ v.size < limit →
    ∃ iov iovs, v.iovs = iov :: iovs ∧ iov.base + iov.len = p

theorem ReadVec.Covers.start (limit : Nat) : ReadVec.start.Covers limit [] :=
  ⟨rfl, rfl, nofun, nofun⟩

theorem ReadVec.Covers.push {limit base n stop : Nat} (h : v.Covers limit addrs) (hn : 0 < n)
    (hstop : limit = 0 ∨ v.size + n < limit → base + n = stop) :
    (v.push base n stop).Covers limit (addrs ++ List.range' base n) := by
  refine ⟨?_, ?_, ?_, ?_⟩
  · show pieceAddrs (List.reverse (⟨base, n⟩ :: v.iovs)) = _
    rw [List.reverse_cons, pieceAddrs_append, h.pieces, pieceAddrs_singleton]
  · show v.size + n = _
    rw [h.size, List.length_append, List.length_range']
  · intro iov hiov
    obtain rfl | hiov := List.mem_cons.mp hiov
    · exact hn
    · exact h.pos iov hiov
  · intro p hp hlim
    obtain rfl : stop = p := Option.some.inj hp
    exact ⟨⟨base, n⟩, v.iovs, rfl, hstop hlim⟩

theorem ReadVec.Covers.grow {limit base n stop : Nat} (h : v.Covers limit addrs)
    (hprev : v.prev = some base) (hroom : limit = 0 ∨ v.size < limit)
    (hstop : limit = 0 ∨ v.size + n < limit → base + n = stop) :
    (v.grow n stop).Covers limit (addrs ++ List.range' base n) := by
  obtain ⟨iov, iovs, hiovs, hend⟩ := h.prev base hprev hroom
  have hgrow : (v.grow n stop).iovs = { iov with len := iov.len + n } :: iovs := by
    unfold ReadVec.grow
    rw [hiovs]
  refine ⟨?_, ?_, ?_, ?_⟩
  · rw [hgrow, ← h.pieces, hiovs, List.reverse_cons, List.reverse_cons, pieceAddrs_append,
      pieceAddrs_append, pieceAddrs_singleton, pieceAddrs_singleton, ← List.range'_append_1, hend,
      List.append_assoc]
  · show v.size + n = _
    rw [h.size, List.length_append, List.length_range']
  · intro iov' hiov'
    rw [hgrow] at hiov'
    obtain rfl | hiov' := List.mem_cons.mp hiov'
    · have hpos := h.pos iov (hiovs ▸ List.mem_cons_self)
      show 0 < iov.len + n
      omega
    · exact h.pos iov' (hiovs ▸ List.mem_cons_of_mem iov hiov')
  · intro p hp hlim
    obtain rfl : stop = p := Option.some.inj hp
    refine ⟨_, _, hgrow, ?_⟩
    have hstop' := hstop hlim
    show iov.base + (iov.len + n) = stop
    omega

theorem readvVec_full {nalloc limit : Nat} (h : limit ≠ 0 ∧ limit ≤ v.size) :
    readvVec nalloc limit chain v = v := by
  cases chain with
  | nil => rfl
  | cons b chain => rw [readvVec, if_pos h]

/-- The vector is extended by the first free addresses of the chain, within the limit. -/
theorem readvVec_spec (nalloc limit : Nat) (hok : ∀ b ∈ chain, b.Ok) (hv : v.Covers limit addrs)
    (hle : limit ≠ 0 → v.size ≤ limit) :
    ∃ k, (readvVec nalloc limit chain v).Covers limit (addrs ++ (freeAddrs chain).take k) ∧
      k ≤ (freeAddrs chain).length ∧
      (limit ≠ 0 → (readvVec nalloc limit chain v).size ≤ limit) ∧
      (v.iovs = [] → (limit = 0 ∨ v.size < limit) → 0 < nalloc → chain ≠ [] → 0 < k) := by
  induction chain generalizing v addrs with
  | nil => exact ⟨0, by simpa [readvVec] using hv, Nat.zero_le _, hle, by simp⟩
  | cons b chain ih =>
      have hb := hok b List.mem_cons_self
      have hok' : ∀ b ∈ chain, b.Ok := fun b' hb' => hok b' (List.mem_cons_of_mem b hb')
      have hstop : v.Covers limit (addrs ++ (freeAddrs (b :: chain)).take 0) := by simpa using hv
      unfold readvVec
      split
      · next hfull => exact ⟨0, hstop, Nat.zero_le _, hle, by omega⟩
      · next hroom =>
          dsimp only
          generalize hn : (if limit ≠ 0 ∧ limit < v.size + (b.stop - b.last) then limit - v.size
            else b.stop - b.last) = n
          have hlt := hb.2.2
          have hn0 : 0 < n := by
            split at hn <;> omega
          have hnle : n ≤ b.stop - b.last := by
            split at hn <;> omega
          have hend : limit = 0 ∨ v.size + n < limit → b.last + n = b.stop := by
            split at hn <;> omega
          have hlen : (List.range' b.last (b.stop - b.last)).length = b.stop - b.last :=
            List.length_range'
          have htake : (List.range' b.last (b.stop - b.last)).take n = List.range' b.last n := by
            obtain ⟨d, hd⟩ := Nat.exists_eq_add_of_le hnle
            rw [hd, ← List.range'_append_1, List.take_left' List.length_range']
          -- the vector extended by this buffer, as far as the limit allows
          have hnext : ∀ v₁ : ReadVec, v₁.Covers limit (addrs ++ List.range' b.last n) →
              v₁.size = v.size + n →
              ∃ k, (readvVec nalloc limit chain v₁).Covers limit
                  (addrs ++ (freeAddrs (b :: chain)).take k) ∧
                k ≤ (freeAddrs (b :: chain)).length ∧
                (limit ≠ 0 → (readvVec nalloc limit chain v₁).size ≤ limit) ∧ 0 < k := by
            intro v₁ hv₁ hsize
            by_cases hcut : n = b.stop - b.last
            · obtain ⟨k, hcov, hk, hlim, -⟩ := ih hok' hv₁ (by split at hn <;> omega)
              refine ⟨n + k, ?_, ?_, hlim, by omega⟩
              · have hall : (freeAddrs (b :: chain)).take (n + k) =
                    List.range' b.last n ++ (freeAddrs chain).take k := by
                  rw [freeAddrs_cons, List.take_append, hlen, ← hcut, Nat.add_sub_cancel_left,
                    List.take_of_length_le (by rw [List.length_range']; omega)]
                rw [hall, ← List.append_assoc]
                exact hcov
              · rw [freeAddrs_cons, List.length_append, hlen]
                omega
            · have hreached : limit ≠ 0 ∧ limit ≤ v₁.size := by
                split at hn <;> omega
              rw [readvVec_full hreached]
              refine ⟨n, ?_, ?_, by split at hn <;> omega, hn0⟩
              · rw [freeAddrs_cons, List.take_append_of_le_length (by omega), htake]
                exact hv₁
              · rw [freeAddrs_cons, List.length_append, hlen]
                omega
          split
          · next hprev =>
              obtain ⟨k, hcov, hk, hlim, hpos⟩ := hnext _ (hv.grow hprev (by omega) hend) rfl
              exact ⟨k, hcov, hk, hlim, fun _ _ _ _ => hpos⟩
          · split
            · next hfull =>
                refine ⟨0, hstop, Nat.zero_le _, hle, ?_⟩
                intro hnil _ hpos
                rw [hnil, List.length_nil] at hfull
                omega
            · obtain ⟨k, hcov, hk, hlim, hpos⟩ := hnext _ (hv.push hn0 hend) rfl
              exact ⟨k, hcov, hk, hlim, fun _ _ _ _ => hpos⟩

/-! ## Reading -/

variable {u u' : Upstream} {xs : List Byte}

/-- `u'` is `u` after `xs` was read from the socket and stored along the first of `addrs`. -/
structure Stored (addrs : List Nat) (u : Upstream) (xs : List Byte) (u' : Upstream) : Prop where
  room : xs.length ≤ addrs.length
  mem : u'.mem = scatter u.mem (addrs.take xs.length) xs
  received : u'.socket.received = u.socket.received ++ xs
  outcome : u'.socket.outcome = u.socket.outcome
  calls : u.socket.calls ≤ u'.socket.calls
  logError : u'.logError = u.logError

theorem Stored.nothing {s : Inlet} (hr : s.received = u.socket.received)
    (ho : s.outcome = u.socket.outcome) (hc : u.socket.calls ≤ s.calls) :
    Stored addrs u [] { u with socket := s } :=
  ⟨Nat.zero_le _, by simp, by rw [List.append_nil]; exact hr, ho, hc, rfl⟩

/-- The flags of the connection do not matter. -/
theorem Stored.flags (h : Stored addrs u xs u') (ready eof error : Bool) :
    Stored addrs u xs { u' with ready := ready, eof := eof, error := error } :=
  ⟨h.room, h.mem, h.received, h.outcome, h.calls, h.logError⟩

/-- Reading goes on after all of `addrs`. -/
theorem Stored.append {addrs' : List Nat} {u₁ : Upstream} {ys : List Byte}
    (h : Stored addrs u xs u₁) (hfull : xs.length = addrs.length) (h' : Stored addrs' u₁ ys u') :
    Stored (addrs ++ addrs') u (xs ++ ys) u' := by
  refine ⟨?_, ?_, ?_, h'.outcome.trans h.outcome, Nat.le_trans h.calls h'.calls,
    h'.logError.trans h.logError⟩
  · rw [List.length_append, List.length_append]
    have := h'.room
    omega
  · have htake : (addrs ++ addrs').take (xs ++ ys).length = addrs ++ addrs'.take ys.length := by
      rw [List.length_append, hfull, List.take_append, List.take_of_length_le (by omega),
        Nat.add_sub_cancel_left]
    rw [htake, scatter_append _ _ _ _ _ hfull.symm, h'.mem, h.mem,
      List.take_of_length_le (by omega)]
  · rw [h'.received, h.received, List.append_assoc]

/-- A `read` into the piece `iov`. -/
theorem Stored.piece {iov : Iovec} {s : Inlet} (hlen : xs.length ≤ iov.len)
    (hr : s.received = u.socket.received ++ xs) (ho : s.outcome = u.socket.outcome)
    (hc : u.socket.calls ≤ s.calls) :
    Stored (List.range' iov.base iov.len) u xs
      { u with socket := s, mem := scatter u.mem (List.range' iov.base xs.length) xs } := by
  have htake : (List.range' iov.base iov.len).take xs.length = List.range' iov.base xs.length := by
    obtain ⟨d, hd⟩ := Nat.exists_eq_add_of_le hlen
    rw [hd, ← List.range'_append_1, List.take_left' List.length_range']
  exact ⟨by rw [List.length_range']; exact hlen, by rw [htake], hr, ho, hc, rfl⟩

theorem Stored.mono {addrs' : List Nat} (h : Stored addrs u xs u') :
    Stored (addrs ++ addrs') u xs u' := by
  refine ⟨?_, ?_, h.received, h.outcome, h.calls, h.logError⟩
  · rw [List.length_append]
    have := h.room
    omega
  · rw [List.take_append_of_le_length h.room]
    exact h.mem

/-- What the loop over the pieces reads, stores and returns. -/
theorem readSegments_spec (iovs : List Iovec) (n : Nat) (u : Upstream)
    (hpos : ∀ iov ∈ iovs, 0 < iov.len) :
    ∃ xs, Stored (pieceAddrs iovs) u xs (readSegments iovs n u).2 ∧
      (iovs ≠ [] → u.socket.calls < (readSegments iovs n u).2.socket.calls) ∧
      (((readSegments iovs n u).1 = .ok (n + xs.length) ∧
          (iovs ≠ [] → n = 0 → xs = [] → u.socket.outcome u.socket.calls = .eof)) ∨
        ∃ e, (readSegments iovs n u).1 = .error e ∧ n = 0 ∧ xs = [] ∧
          u.socket.outcome u.socket.calls = .fail e ∧
          (readSegments iovs n u).2.socket.calls = u.socket.calls + 1) := by
  induction iovs generalizing n u with
  | nil => exact ⟨[], .nothing rfl rfl (Nat.le_refl _), by simp, .inl ⟨rfl, by simp⟩⟩
  | cons iov iovs ih =>
      have hlen := hpos iov List.mem_cons_self
      have haddrs : pieceAddrs (iov :: iovs) = List.range' iov.base iov.len ++ pieceAddrs iovs :=
        List.flatMap_cons
      unfold readSegments
      obtain ⟨xs, hne, hle, heq⟩ | ⟨hout, heq⟩ | ⟨e, hout, heq⟩ := u.socket.read_cases hlen
      · rw [heq, haddrs]
        dsimp only
        rw [if_neg hne]
        generalize hs : Inlet.mk _ _ _ = s
        have hpiece : Stored (List.range' iov.base iov.len) u xs
            { u with socket := s, mem := scatter u.mem (List.range' iov.base xs.length) xs } := by
          subst hs
          exact .piece hle rfl rfl (Nat.le_succ _)
        have hcalls : u.socket.calls < s.calls := by
          subst hs
          exact Nat.lt_succ_self _
        split
        · exact ⟨xs, hpiece.mono, fun _ => hcalls, .inl ⟨rfl, fun _ _ hnil => absurd hnil hne⟩⟩
        · next hfull =>
            have hall : xs.length = (List.range' iov.base iov.len).length := by
              rw [List.length_range']
              omega
            obtain ⟨ys, hys, -, hres⟩ := ih (n + xs.length) _
              fun iov' h' => hpos iov' (List.mem_cons_of_mem iov h')
            refine ⟨xs ++ ys, hpiece.append hall hys, fun _ => Nat.lt_of_lt_of_le hcalls hys.calls, ?_⟩
            obtain ⟨hr, -⟩ | ⟨e, -, hzero, -⟩ := hres
            · refine .inl ⟨?_, fun _ _ hnil => absurd (List.append_eq_nil_iff.mp hnil).1 hne⟩
              rw [hr, List.length_append, Nat.add_assoc]
            · have := List.length_pos_iff.mpr hne
              omega
      · rw [heq]
        dsimp only
        refine ⟨[], ?_, fun _ => Nat.lt_succ_self _, .inl ⟨rfl, fun _ _ _ => hout⟩⟩
        rw [List.length_nil, scatter_nil]
        exact .nothing rfl rfl (Nat.le_succ _)
      · rw [heq]
        dsimp only
        refine ⟨[], .nothing rfl rfl (Nat.le_succ _), fun _ => Nat.lt_succ_self _, ?_⟩
        split
        · next hn => exact .inr ⟨e, rfl, hn, rfl, hout, rfl⟩
        · next hn => exact .inl ⟨rfl, fun _ h0 => absurd h0 hn⟩

/-- What one call of `ngx_readv_chain` returns, when it stored `xs`: their number, 0 only at the
end of the stream, and `NGX_AGAIN` and `NGX_ERROR` only if it stored nothing. -/
def RecvResult.Reports (u : Upstream) (xs : List Byte) (u' : Upstream) : RecvResult → Prop
  | .bytes n => n = xs.length ∧ (n = 0 → ∃ i, u.socket.calls ≤ i ∧ i < u'.socket.calls ∧
      (u.socket.outcome i = .eof ∨
        ∃ code, u.socket.outcome i = .fail (.other code) ∧ errorIgnored u.logError code = true))
  | .again => xs = []
  | .error => xs = [] ∧ ∃ i code, u.socket.calls ≤ i ∧ i < u'.socket.calls ∧
      u.socket.outcome i = .fail (.other code)

/-- A call that starts after one that read nothing. -/
theorem Stored.after {u₁ : Upstream} (h : Stored addrs u [] u₁) (h' : Stored addrs u₁ xs u') :
    Stored addrs u xs u' := by
  have hmem : u₁.mem = u.mem := by rw [h.mem, scatter_nil]
  have hrec : u₁.socket.received = u.socket.received := by rw [h.received, List.append_nil]
  exact ⟨h'.room, hmem ▸ h'.mem, hrec ▸ h'.received, h'.outcome.trans h.outcome,
    Nat.le_trans h.calls h'.calls, h'.logError.trans h.logError⟩

theorem RecvResult.Reports.after {u₁ : Upstream} {r : RecvResult} (h : Stored addrs u [] u₁)
    (h' : r.Reports u₁ xs u') : r.Reports u xs u' := by
  have ho := h.outcome
  have hl := h.logError
  have hc := h.calls
  cases r with
  | bytes n =>
      refine ⟨h'.1, fun h0 => ?_⟩
      obtain ⟨i, hle, hlt, hi⟩ := h'.2 h0
      rw [ho, hl] at hi
      exact ⟨i, Nat.le_trans hc hle, hlt, hi⟩
  | again => exact h'
  | error =>
      obtain ⟨hnil, i, code, hle, hlt, hi⟩ := h'
      rw [ho] at hi
      exact ⟨hnil, i, code, Nat.le_trans hc hle, hlt, hi⟩

theorem readvLoop_spec {vec : ReadVec} {fuel : Nat} {r : RecvResult}
    (hpos : ∀ iov ∈ vec.iovs, 0 < iov.len) (hne : vec.iovs ≠ [])
    (h : readvLoop vec fuel u = some (r, u')) :
    ∃ xs, Stored (pieceAddrs vec.iovs.reverse) u xs u' ∧ r.Reports u xs u' := by
  induction fuel generalizing u with
  | zero => cases h
  | succ fuel ih =>
      have hpos' : ∀ iov ∈ vec.iovs.reverse, 0 < iov.len :=
        fun iov hiov => hpos iov (List.mem_reverse.mp hiov)
      have hne' : vec.iovs.reverse ≠ [] := by simpa using hne
      obtain ⟨xs, hstored, hcalls, hres⟩ := readSegments_spec vec.iovs.reverse 0 u hpos'
      unfold readvLoop at h
      generalize readSegments vec.iovs.reverse 0 u = r₀ at h hstored hcalls hres
      obtain ⟨r₀, u₀⟩ := r₀
      have hlt : u.socket.calls < u₀.socket.calls := hcalls hne'
      obtain ⟨hr, heof⟩ | ⟨e, hr, -, hnil, hout, -⟩ := hres
      · obtain rfl : r₀ = .ok (0 + xs.length) := hr
        rw [Nat.zero_add] at h
        dsimp only at h
        split at h
        · next h0 =>
            cases h
            have hxs : xs = [] := List.length_eq_zero_iff.mp h0
            exact ⟨xs, hstored.flags _ _ _, h0.symm,
              fun _ => ⟨_, Nat.le_refl _, hlt, .inl (heof hne' rfl hxs)⟩⟩
        · next h0 =>
            cases h
            exact ⟨xs, hstored.flags _ _ _, rfl, fun hz => absurd hz h0⟩
      · obtain rfl : r₀ = .error e := hr
        subst hnil
        cases e with
        | eagain =>
            cases h
            exact ⟨[], hstored.flags _ _ _, rfl⟩
        | eintr =>
            obtain ⟨ys, hys, hrep⟩ := ih h
            exact ⟨ys, hstored.after hys, hrep.after hstored⟩
        | other code =>
            dsimp only at h
            split at h
            · next hign =>
                cases h
                have hign' : errorIgnored u.logError code = true := by
                  rw [← hstored.logError]
                  exact hign
                exact ⟨[], hstored.flags _ _ _, rfl,
                  fun _ => ⟨_, Nat.le_refl _, hlt, .inr ⟨code, hout, hign'⟩⟩⟩
            · cases h
              exact ⟨[], hstored.flags _ _ _, rfl, _, code, Nat.le_refl _, hlt, hout⟩

/-- The loop ends once the calls are no longer interrupted. -/
theorem readvLoop_isSome {vec : ReadVec} {fuel K : Nat} (hpos : ∀ iov ∈ vec.iovs, 0 < iov.len)
    (hK : u.socket.FinitelyInterrupted K) (hfuel : K - u.socket.calls < fuel) :
    (readvLoop vec fuel u).isSome := by
  induction fuel generalizing u with
  | zero => omega
  | succ fuel ih =>
      have hpos' : ∀ iov ∈ vec.iovs.reverse, 0 < iov.len :=
        fun iov hiov => hpos iov (List.mem_reverse.mp hiov)
      obtain ⟨xs, hstored, -, hres⟩ := readSegments_spec vec.iovs.reverse 0 u hpos'
      unfold readvLoop
      generalize readSegments vec.iovs.reverse 0 u = r₀ at hstored hres ⊢
      obtain ⟨r₀, u₀⟩ := r₀
      obtain ⟨hr, -⟩ | ⟨e, hr, -, -, hout, hcalls⟩ := hres
      · obtain rfl : r₀ = .ok (0 + xs.length) := hr
        dsimp only
        split <;> rfl
      · obtain rfl : r₀ = .error e := hr
        cases e with
        | eagain => rfl
        | other code =>
            dsimp only
            split <;> rfl
        | eintr =>
            -- the interrupted call was one of the first `K`
            have hlt : u.socket.calls < K := by
              by_contra hge
              exact hK _ (Nat.le_of_not_lt hge) hout
            have hcalls' : u₀.socket.calls = u.socket.calls + 1 := hcalls
            apply ih
            · intro i hi
              rw [hstored.outcome]
              exact hK i hi
            · omega

/-! ## One call -/

/-- The vector of `ngx_readv_chain`. -/
theorem readVector_spec (limit : Nat) (hok : ∀ b ∈ chain, b.Ok) (hne : chain ≠ []) :
    ∃ k, k ≤ (freeAddrs chain).length ∧ (limit ≠ 0 → k ≤ limit) ∧
      (readvVec ngxIovsPreallocate limit chain .start).iovs ≠ [] ∧
      (readvVec ngxIovsPreallocate limit chain .start).Covers limit ((freeAddrs chain).take k) := by
  obtain ⟨k, hcov, hk, hlim, hpos⟩ :=
    readvVec_spec ngxIovsPreallocate limit hok (.start limit) (fun _ => Nat.zero_le _)
  rw [List.nil_append] at hcov
  have hsize := hcov.size
  rw [List.length_take, Nat.min_eq_left hk] at hsize
  refine ⟨k, hk, fun h => hsize ▸ hlim h, ?_, hcov⟩
  have hk0 : 0 < k := by
    refine hpos rfl ?_ (by decide) hne
    by_cases h0 : limit = 0
    · exact .inl h0
    · exact .inr (Nat.pos_of_ne_zero h0)
  intro hnil
  have hpieces := hcov.pieces
  rw [hnil] at hpieces
  have hlen := congrArg List.length hpieces.symm
  rw [List.length_take, Nat.min_eq_left hk] at hlen
  exact Nat.ne_of_gt hk0 hlen

/-- One call of `ngx_readv_chain`: what it stored went to the first free addresses of the chain, and
it reports that. -/
theorem ngxReadvChain_spec {fuel limit : Nat} {r : RecvResult} (hok : ∀ b ∈ chain, b.Ok)
    (hne : chain ≠ []) (h : ngxReadvChain fuel chain limit u = some (r, u')) :
    ∃ xs, Stored (freeAddrs chain) u xs u' ∧ (limit ≠ 0 → xs.length ≤ limit) ∧
      r.Reports u xs u' := by
  obtain ⟨k, hk, hlim, hiovs, hcov⟩ := readVector_spec limit hok hne
  obtain ⟨xs, hstored, hrep⟩ := readvLoop_spec hcov.pos hiovs h
  rw [hcov.pieces] at hstored
  have hroom := hstored.room
  rw [List.length_take] at hroom
  refine ⟨xs, ?_, fun hl => Nat.le_trans (by omega) (hlim hl), hrep⟩
  rw [← List.take_append_drop k (freeAddrs chain)]
  exact hstored.mono

/-- One call of `ngx_readv_chain` returns if only finitely many calls of `read` are interrupted. -/
theorem ngxReadvChain_isSome {fuel K : Nat} (limit : Nat) (hok : ∀ b ∈ chain, b.Ok)
    (hne : chain ≠ []) (hK : u.socket.FinitelyInterrupted K) (hfuel : K - u.socket.calls < fuel) :
    (ngxReadvChain fuel chain limit u).isSome := by
  obtain ⟨k, -, -, -, hcov⟩ := readVector_spec limit hok hne
  exact readvLoop_isSome hcov.pos hK hfuel

end WasiPorts.Nginx
